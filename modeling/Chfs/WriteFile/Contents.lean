import Chfs.WriteFile.Indirect

namespace chfs.InodeManager

open BlockManager

/-- What `write_file` writes at each position but `NDIRECT`. -/
def file_chunk (buf : Mem) (size : Int) (j : Nat) : Mem :=
  if j < 100 then direct_chunk buf j else entry_chunk buf size j

/-- Up to the end of the file, the chunks are the contents of the buffer. -/
theorem file_chunk_slot {buf : Mem} {size k p : Nat} (hsize : 512 * k + p < size) :
    file_chunk buf size (slot_position k) p = buf (512 * k + p) := by
  unfold file_chunk slot_position
  by_cases hk : k < 100
  · simp only [hk, ↓reduceIte, direct_chunk, Mem.shift_apply]
  · have hnot : ¬ k + 1 < 100 := by omega
    have hsub : k + 1 - 1 = k := by omega
    simp only [hk, hnot, ↓reduceIte, entry_chunk, hsub]
    rw [if_pos (by exact_mod_cast hsize)]

/-- The position behind the last pointer that `size` bytes ask for and an inode has room for. -/
def target (size : Nat) : Nat := min 229 (pointers_for (blocks_for size))

/-- The variables of `write_file` before its first loop. -/
def start (bm : BlockManager) (node : Inode) : WriteState :=
  { bm, node, indirect_blocks := Mem.zero, arr_for_remain := Mem.zero, i := 0, pos := 0 }

/-- The state in which the loop over the indirect table starts: a file that goes on
    behind its direct blocks keeps its indirect block with the table on disk, or
    is given one and starts from an empty table. -/
def indirect_start (s : WriteState) : WriteState :=
  let (valid, bm) := s.bm.is_valid_block (s.node.block NDIRECT)
  if valid then
    { s with bm, indirect_blocks := bm.read_block (s.node.block NDIRECT) Mem.zero, i := 0 }
  else
    let (id, bm) := bm.alloc_block
    { s with bm, node := s.node.set_block NDIRECT id, indirect_blocks := Mem.zero, i := 0 }

theorem write_indirect_eq {buf : Mem} {size : Int} {s : WriteState}
    (h : (s.pos : Int) < size ∧ s.i = NDIRECT) :
    write_indirect buf size s =
      let last := write_entries buf size NINDIRECT (indirect_start s)
      { last with bm := last.bm.write_block (last.node.block NDIRECT) last.indirect_blocks } := by
  rw [write_indirect, if_pos h, indirect_start]
  by_cases hvalid : (s.bm.is_valid_block (s.node.block NDIRECT)).1 = true
  · simp only [hvalid, ↓reduceIte]
  · simp only [hvalid, Bool.false_eq_true, ↓reduceIte]

theorem indirect_start_frame (s : WriteState) :
    (indirect_start s).i = 0 ∧ (indirect_start s).pos = s.pos ∧
      (indirect_start s).arr_for_remain = s.arr_for_remain ∧
      ∃ blocks, (indirect_start s).node = { s.node with blocks } := by
  unfold indirect_start
  dsimp only
  split
  · exact ⟨rfl, rfl, rfl, _, rfl⟩
  · exact ⟨rfl, rfl, rfl, _, rfl⟩

theorem indirect_start_fills (chunk : Nat → Mem) {s : WriteState} (hwf : s.bm.WF)
    (hheld : Held s.bm (pointers s.bm s.node)) :
    Fills chunk 100 101 s.bm (pointers s.bm s.node) (indirect_start s).bm
      (pointers_with (indirect_start s).node (table_pointers (indirect_start s).indirect_blocks)) := by
  have hat : pointers s.bm s.node 100 = s.node.block 100 := pointers_of_le _ _ (le_refl 100)
  obtain ⟨id, bm₁, hensure⟩ : ∃ id bm₁, ensure_block s.bm (s.node.block 100) = (id, bm₁) := ⟨_, _, rfl⟩
  have hfills : Fills chunk 100 101 s.bm (pointers s.bm s.node) bm₁
      (Function.update (pointers s.bm s.node) 100 id) := by
    refine ensure_block_fills (d := bm₁.d) hwf hheld 100 (by rw [hat]; exact hensure) ?_ ?_
    · intro _ _
      rfl
    · intro h
      exact absurd rfl h
  have hensure : ensure_block s.bm (s.node.block NDIRECT) = (id, bm₁) := hensure
  by_cases hzero : s.node.block 100 = 0
  · have hzero' : s.node.block NDIRECT = 0 := hzero
    have hnot : (s.bm.is_valid_block (s.node.block NDIRECT)).1 = false := by
      rw [hzero']
      exact is_valid_block_of_not_inUse hwf hwf.not_inUse_zero
    simp only [ensure_block, hnot, Bool.false_eq_true, ↓reduceIte] at hensure
    simp only [indirect_start, hnot, Bool.false_eq_true, ↓reduceIte, hensure]
    convert hfills using 1
    rw [pointers, ← pointers_with_set_block s.node _ (le_refl 100)]
    apply pointers_with_congr
    intro j hj
    simp [entries_on_disk, hzero, table_pointers]
  · have huse : s.bm.InUse (s.node.block NDIRECT) := by
      rw [NDIRECT_eq, ← hat]
      exact hheld.in_use 100 (by rwa [hat])
    have hvalid := is_valid_block_of_inUse hwf huse
    have hsame := s.bm.is_valid_block_same (s.node.block NDIRECT)
    have hupdate : Function.update (pointers s.bm s.node) 100 (s.node.block NDIRECT) =
        pointers s.bm s.node := by
      rw [NDIRECT_eq, ← hat]
      exact Function.update_eq_self 100 _
    simp only [ensure_block, hvalid, ↓reduceIte, Prod.mk.injEq] at hensure
    obtain ⟨rfl, rfl⟩ := hensure
    rw [hupdate] at hfills
    simp only [indirect_start, hvalid, ↓reduceIte]
    convert hfills using 1
    apply pointers_with_congr
    intro j hj
    rw [entries_on_disk, if_neg hzero, read_block_zero, hsame.data, NDIRECT_eq]

/-- The indirect part fills the positions from `NDIRECT` on. It leaves the table in
    the block at position `NDIRECT`, also when that is block 0 because no block
    was left. -/
theorem write_indirect_fills {buf : Mem} {size : Int} {s s' : WriteState} (hwf : s.bm.WF)
    (hheld : Held s.bm (pointers s.bm s.node)) (hi : s.i = 100) (hpos : s.pos = 51200)
    (hclear : s.arr_for_remain = Mem.zero) (hmore : 100 < blocks_for size.toNat)
    (hs' : s' = write_indirect buf size s) :
    Fills (entry_chunk buf size) 100 (target size.toNat) s.bm (pointers s.bm s.node)
        s'.bm (pointers s'.bm s'.node) ∧
      (∃ blocks, s'.node = { s.node with blocks }) ∧
      ∀ i < 128, (s'.bm.data (s'.node.block 100)).word i = pointers s'.bm s'.node (101 + i) := by
  have hlt : (s.pos : Int) < size := by
    unfold blocks_for at hmore
    omega
  have hfills₂ := indirect_start_fills (entry_chunk buf size) hwf hheld
  obtain ⟨hi₂, hpos₂, harr₂, hnode₂⟩ := indirect_start_frame s
  obtain ⟨hnode₃, hfills₃⟩ := write_entries_fills buf size 128 (indirect_start s)
    (by omega) (by omega) (harr₂.trans hclear) hfills₂.wf (hfills₂.held hheld)
  rw [write_indirect_eq ⟨hlt, hi⟩] at hs'
  rw [show (128 : Nat) = NINDIRECT from rfl] at hnode₃ hfills₃
  set last := write_entries buf size NINDIRECT (indirect_start s) with hlast
  have hend : 101 + max (indirect_start s).i (min NINDIRECT (blocks_for size.toNat - 100)) =
      target size.toNat := by
    rw [hi₂, NINDIRECT_eq]
    unfold target pointers_for
    split <;> omega
  rw [hi₂, Nat.add_zero] at hfills₃
  rw [hi₂] at hend
  rw [hend, ← hnode₃] at hfills₃
  have htarget : 101 ≤ target size.toNat := by omega
  rw [← hnode₃] at hfills₂
  have hall := hfills₂.trans hheld (by omega) htarget hfills₃
  have hat : pointers_with last.node (table_pointers last.indirect_blocks) 100 = last.node.block 100 :=
    pointers_with_of_le _ _ (le_refl 100)
  have hflush := hall.write_indirect_block hheld (le_refl 100) (by omega) last.indirect_blocks
  rw [hat] at hflush
  have hsmall : (last.node.block 100).toNat < 32768 := by
    by_cases hzero : last.node.block 100 = 0
    · rw [hzero]
      decide
    · rw [← hat] at hzero ⊢
      exact (hall.wf.data_block _ ((hall.held hheld).in_use 100 hzero)).2
  have hnode : s'.node = last.node := by rw [hs']
  have hbm : s'.bm = last.bm.write_block (last.node.block 100) last.indirect_blocks := by rw [hs']; rfl
  have hdata : ∀ p < 512, s'.bm.data (s'.node.block 100) p = last.indirect_blocks p := by
    intro p hp
    rw [hnode, hbm]
    exact data_write_block_same _ hsmall _ hp
  have hnew : pointers s'.bm s'.node = pointers_with last.node (table_pointers last.indirect_blocks) := by
    rw [← hnode]
    apply pointers_of_table (fun _ => hdata)
    intro hzero j hj
    -- no indirect block: none was there and none was left, so every entry is 0
    rw [hnode, ← hat] at hzero
    have hold : pointers s.bm s.node 100 = 0 := by
      by_contra hne
      have hkept := hall.kept 100 hne
      rw [hzero] at hkept
      exact hne hkept.symm
    have hj' : pointers s.bm s.node j = 0 :=
      pointers_of_no_indirect _ (by rwa [pointers_of_le _ _ (le_refl 100)] at hold) hj
    rw [← pointers_with_of_gt last.node (table_pointers last.indirect_blocks) hj]
    by_cases hin : j < target size.toNat
    · exact hall.in_order 100 j (le_refl 100) (by omega) hin hzero hj'
    · rw [hall.outside j (by omega), hj']
  refine ⟨?_, ?_, ?_⟩
  · rw [hnew, hbm]
    exact hflush
  · obtain ⟨blocks, hnode₂⟩ := hnode₂
    exact ⟨blocks, by rw [hnode, hnode₃, hnode₂]⟩
  · intro i hi'
    have hle : 101 + i ≤ 228 := by omega
    have hsub : 101 + i - 101 = i := by omega
    rw [hnew, pointers_with_of_gt _ _ (by omega), table_pointers, if_pos hle, hsub]
    exact Mem.word_congr fun p hp => hdata p (by omega)

/-- The direct loop leaves the indirect block and its table alone. -/
theorem DirectDone.pointers_eq {buf : Mem} {size : Int} {bm : BlockManager} {node : Inode}
    {s : WriteState} (hheld : Held bm (pointers bm node))
    (h : DirectDone buf size (entries_on_disk bm node) (start bm node) s) :
    pointers s.bm s.node = pointers_with s.node (entries_on_disk bm node) := by
  have hi : s.i ≤ 100 := by
    have hi := h.i
    simp [start] at hi
    omega
  have hindirect : s.node.block 100 = node.block 100 := by
    have hout := h.fills.outside 100 (by omega)
    rwa [pointers_with_of_le _ _ (le_refl 100), pointers_with_of_le _ _ (le_refl 100)] at hout
  have hheld' := h.fills.held hheld
  have hat : pointers_with s.node (entries_on_disk bm node) 100 = node.block 100 := by
    rw [pointers_with_of_le _ _ (le_refl 100), hindirect]
  apply pointers_with_congr
  intro j hj
  unfold entries_on_disk
  rw [hindirect]
  split
  · rfl
  · next hne =>
    rw [h.fills.frame (node.block 100)]
    · rfl
    · intro k _ hkhi hk
      have := hheld'.injective k 100 (by rwa [hk]) (hk.trans hat.symm)
      omega

/-- The two writing loops fill as many positions as the size asks for and the
    inode has room for. -/
theorem write_blocks_fills {buf : Mem} {size : Int} {bm : BlockManager} {node : Inode} (hwf : bm.WF)
    (hheld : Held bm (pointers bm node)) {s : WriteState}
    (hs : s = write_indirect buf size (write_direct buf size NDIRECT (start bm node))) :
    Fills (file_chunk buf size) 0 (target size.toNat) bm (pointers bm node) s.bm (pointers s.bm s.node) ∧
      (∃ blocks, s.node = { node with blocks }) ∧
      (100 < blocks_for size.toNat → ∀ i < 128,
        (s.bm.data (s.node.block 100)).word i = pointers s.bm s.node (101 + i)) := by
  have hdone : DirectDone buf size (entries_on_disk bm node) (start bm node)
      (write_direct buf size NDIRECT (start bm node)) :=
    write_direct_done 100 (start bm node) rfl rfl hwf hheld
  set s₁ := write_direct buf size NDIRECT (start bm node)
  have hpointers := hdone.pointers_eq hheld
  obtain ⟨hi, hpos, hfills, ⟨blocks₁, hnode₁⟩, harr⟩ := hdone
  have hfills : Fills (direct_chunk buf) 0 s₁.i bm (pointers bm node) s₁.bm (pointers s₁.bm s₁.node) := by
    rw [hpointers]
    exact hfills
  have hi : s₁.i = min 100 (blocks_for size.toNat) := by simpa [start] using hi
  have hdirect : Fills (file_chunk buf size) 0 s₁.i bm (pointers bm node) s₁.bm (pointers s₁.bm s₁.node) := by
    apply hfills.congr_chunk
    intro j _ hj _
    have hlt : j < 100 := by omega
    simp only [file_chunk, hlt, ↓reduceIte]
  by_cases hmore : 100 < blocks_for size.toNat
  · have hi₁ : s₁.i = 100 := by omega
    have hlt : (s₁.pos : Int) < size := by
      unfold blocks_for at hmore
      omega
    obtain ⟨hindirect, ⟨blocks, hnode⟩, htable⟩ := write_indirect_fills hfills.wf (hfills.held hheld)
      hi₁ (by omega) (harr hlt) hmore hs
    refine ⟨?_, ⟨blocks, by rw [hnode, hnode₁]; rfl⟩, fun _ => htable⟩
    rw [hi₁] at hdirect
    refine hdirect.trans hheld (Nat.zero_le 100) ?_ (hindirect.congr_chunk ?_)
    · unfold target pointers_for
      split <;> omega
    · intro j hj _ _
      have hnot : ¬ j < 100 := by omega
      simp only [file_chunk, hnot, ↓reduceIte]
  · have hnot : ¬((s₁.pos : Int) < size ∧ s₁.i = NDIRECT) := by
      rintro ⟨hlt, _⟩
      unfold blocks_for at hi hmore
      omega
    rw [write_indirect, if_neg hnot] at hs
    have hend : s₁.i = target size.toNat := by
      unfold target pointers_for
      split <;> omega
    subst hs
    exact ⟨hend ▸ hdirect, ⟨blocks₁, hnode₁⟩, fun h => absurd h hmore⟩

end chfs.InodeManager
