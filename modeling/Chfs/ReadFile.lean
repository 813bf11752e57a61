import Chfs.Inodes.Unchanged
import Chfs.WriteFile.Spec

namespace chfs

/-- The bytes of a file by offset: what its blocks hold and, where it has none, what
    the memory `heap` held before. -/
def file_bytes (bm : BlockManager) (node : Inode) (heap : Mem) : Mem :=
  fun q =>
    let id := pointers bm node (slot_position (q / 512))
    if id = 0 then heap q else bm.data id (q % 512)

/-- The number of blocks `read_file` makes room for. -/
theorem block_count_eq (n : Nat) :
    (if n % 512 ≠ 0 ∨ n / 512 = 0 then n / 512 + 1 else n / 512) = max 1 (blocks_for n) := by
  unfold blocks_for
  split <;> omega

theorem pre_block_num_eq (node : Inode) :
    InodeManager.pre_block_num node = max 1 (blocks_for node.size.toNat) := by
  unfold InodeManager.pre_block_num blocks_for
  split
  · next h => simp [h]
  · next h =>
    have hne : node.size.toNat ≠ 0 := fun hzero => h (UInt32.toNat_inj.mp hzero)
    simp only [BLOCK_SIZE_eq]
    omega

namespace InodeManager

open BlockManager

theorem copy_out_ok {k off n : Nat} {out buf : Mem} (h : off + n ≤ 512 * k) :
    copy_out k out off buf n = .ok (Mem.memcpy out off buf n) := by
  apply if_pos
  simp only [BLOCK_SIZE_eq]
  omega

/-- The chunk at slot `i` of a file of `k` blocks and `size` bytes is copied as a whole,
    up to the end of the file for the last one. -/
theorem copy_slot {k size i n : Nat} (out block : Mem) (hk : k = max 1 (blocks_for size)) (hi : i < k)
    (hn : n = if i = k - 1 ∧ size % 512 ≠ 0 then size % 512 else 512) :
    ∃ out', copy_out k out (i * 512) block n = .ok out' ∧
      ∀ q < size, out' q = if q / 512 = i then block (q % 512) else out q := by
  unfold blocks_for at hk
  refine ⟨_, copy_out_ok ?_, ?_⟩
  · split at hn <;> omega
  · intro q hq
    by_cases hin : q / 512 = i
    · have hoff : q - i * 512 = q % 512 := by omega
      rw [Mem.memcpy_inside (by omega) (by split at hn <;> omega), hoff, if_pos hin]
    · rw [Mem.memcpy_outside (by split at hn <;> omega), if_neg hin]

/-- The loop over the direct slots copies the blocks there are. -/
theorem read_direct_done {k size : Nat} {node : Inode} (hk : k = max 1 (blocks_for size))
    (hslots : ∀ j < 100, node.block j ≠ 0 → j < k) (n : Nat) :
    ∀ (i : Nat) (bm : BlockManager) (out : Mem), i + n = 100 → bm.WF →
      (∀ j < 100, node.block j ≠ 0 → bm.InUse (node.block j)) →
      ∃ i' bm' out', read_direct k (size % 512) node n i bm out = .ok (i', bm', out') ∧ Same bm bm' ∧
        (i' = 100 ∨ k ≤ 100) ∧
        ∀ q < size, out' q =
          if i ≤ q / 512 ∧ q / 512 < 100 ∧ node.block (q / 512) ≠ 0 then
            bm.data (node.block (q / 512)) (q % 512)
          else out q := by
  induction n with
  | zero =>
    intro i bm out hi _ _
    refine ⟨i, bm, out, rfl, Same.refl bm, .inl (by omega), ?_⟩
    intro q _
    rw [if_neg (by omega)]
  | succ n ih =>
    intro i bm out hi hwf huse
    have hsame := bm.is_valid_block_same (node.block i)
    have hwf₁ := hsame.wf hwf
    have huse₁ : ∀ j < 100, node.block j ≠ 0 → (bm.is_valid_block (node.block i)).2.InUse (node.block j) :=
      fun j hj hne => (hsame.in_use _).mpr (huse j hj hne)
    rw [read_direct]
    by_cases hzero : node.block i = 0
    · have hnot : (bm.is_valid_block (node.block i)).1 = false := by
        rw [hzero]
        exact is_valid_block_of_not_inUse hwf hwf.not_inUse_zero
      obtain ⟨i', bm', out', hrun, hsame', hend, hbytes⟩ := ih (i + 1) _ out (by omega) hwf₁ huse₁
      refine ⟨i', bm', out', ?_, hsame.trans hsame', hend, ?_⟩
      · simp only [hnot, Bool.false_eq_true, ↓reduceIte]
        exact hrun
      · intro q hq
        rw [hbytes q hq, hsame.data]
        by_cases heq : q / 512 = i
        · rw [if_neg (by omega), if_neg (by rw [heq]; simp [hzero])]
        · simp only [show i + 1 ≤ q / 512 ↔ i ≤ q / 512 by omega]
    · have hvalid := is_valid_block_of_inUse hwf (huse i (by omega) hzero)
      have hik := hslots i (by omega) hzero
      simp only [hvalid, ↓reduceIte]
      by_cases hlast : i = k - 1 ∧ size % 512 ≠ 0
      · obtain ⟨out₁, hcopy, hslot⟩ := copy_slot out
          ((bm.is_valid_block (node.block i)).2.read_block (node.block i) Mem.zero) hk hik
          (if_pos hlast).symm
        refine ⟨i, (bm.is_valid_block (node.block i)).2, out₁, ?_, hsame, .inr (by omega), ?_⟩
        · rw [if_pos hlast, BLOCK_SIZE_eq, hcopy]
          rfl
        · intro q hq
          rw [hslot q hq, read_block_zero, hsame.data]
          unfold blocks_for at hk
          by_cases heq : q / 512 = i
          · rw [if_pos heq, heq, if_pos ⟨le_refl i, by omega, hzero⟩]
          · rw [if_neg heq, if_neg (by omega)]
      · obtain ⟨out₁, hcopy, hslot⟩ := copy_slot out
          ((bm.is_valid_block (node.block i)).2.read_block (node.block i) Mem.zero) hk hik
          (if_neg hlast).symm
        obtain ⟨i', bm', out', hrun, hsame', hend, hbytes⟩ := ih (i + 1) _ out₁ (by omega) hwf₁ huse₁
        refine ⟨i', bm', out', ?_, hsame.trans hsame', hend, ?_⟩
        · rw [if_neg hlast, BLOCK_SIZE_eq, hcopy]
          exact hrun
        · intro q hq
          rw [hbytes q hq, hsame.data, hslot q hq, read_block_zero, hsame.data]
          by_cases heq : q / 512 = i
          · rw [if_neg (by omega), if_pos heq, heq, if_pos ⟨le_refl i, by omega, hzero⟩]
          · rw [if_neg heq]
            simp only [show i + 1 ≤ q / 512 ↔ i ≤ q / 512 by omega]

/-- The loop over the entries does the same, as long as the table has an entry for
    each block. -/
theorem read_indirect_done {k size : Nat} (table : Mem) (hk : k = max 1 (blocks_for size)) (hk' : k ≤ 228)
    (n : Nat) :
    ∀ (i : Nat) (bm : BlockManager) (out : Mem), i + n = k - 100 → bm.WF →
      (∀ j < 128, table.word j ≠ 0 → bm.InUse (table.word j)) →
      ∃ bm' out', read_indirect k (size % 512) table n i bm out = .ok (bm', out') ∧ Same bm bm' ∧
        ∀ q < size, out' q =
          if 100 + i ≤ q / 512 ∧ table.word (q / 512 - 100) ≠ 0 then
            bm.data (table.word (q / 512 - 100)) (q % 512)
          else out q := by
  induction n with
  | zero =>
    intro i bm out hi _ _
    refine ⟨bm, out, rfl, Same.refl bm, ?_⟩
    intro q hq
    unfold blocks_for at hk
    rw [if_neg (by omega)]
  | succ n ih =>
    intro i bm out hi hwf huse
    have hsame := bm.is_valid_block_same (table.word i)
    have hwf₁ := hsame.wf hwf
    have huse₁ : ∀ j < 128, table.word j ≠ 0 → (bm.is_valid_block (table.word i)).2.InUse (table.word j) :=
      fun j hj hne => (hsame.in_use _).mpr (huse j hj hne)
    have hentry : entry table i = .ok (table.word i) := if_pos (by simp; omega)
    rw [read_indirect, hentry, Except.ok_bind]
    by_cases hzero : table.word i = 0
    · have hnot : (bm.is_valid_block (table.word i)).1 = false := by
        rw [hzero]
        exact is_valid_block_of_not_inUse hwf hwf.not_inUse_zero
      obtain ⟨bm', out', hrun, hsame', hbytes⟩ := ih (i + 1) _ out (by omega) hwf₁ huse₁
      refine ⟨bm', out', ?_, hsame.trans hsame', ?_⟩
      · simp only [hnot, Bool.false_eq_true, ↓reduceIte]
        exact hrun
      · intro q hq
        rw [hbytes q hq, hsame.data]
        by_cases heq : q / 512 = 100 + i
        · rw [if_neg (by omega), if_neg (by rw [heq]; simp [hzero])]
        · simp only [show 100 + (i + 1) ≤ q / 512 ↔ 100 + i ≤ q / 512 by omega]
    · have hvalid := is_valid_block_of_inUse hwf (huse i (by omega) hzero)
      have hword : ∀ q, q / 512 = i + 100 → table.word (q / 512 - 100) = table.word i := by
        intro q heq
        rw [heq, Nat.add_sub_cancel]
      simp only [hvalid, ↓reduceIte]
      by_cases hlast : i + 100 = k - 1 ∧ size % 512 ≠ 0
      · obtain ⟨out₁, hcopy, hslot⟩ := copy_slot out
          ((bm.is_valid_block (table.word i)).2.read_block (table.word i) Mem.zero) hk
          (show i + 100 < k by omega) (if_pos hlast).symm
        refine ⟨(bm.is_valid_block (table.word i)).2, out₁, ?_, hsame, ?_⟩
        · rw [NDIRECT_eq, if_pos hlast, BLOCK_SIZE_eq, hcopy]
          rfl
        · intro q hq
          rw [hslot q hq, read_block_zero, hsame.data]
          unfold blocks_for at hk
          by_cases heq : q / 512 = i + 100
          · rw [if_pos heq, hword q heq, if_pos ⟨by omega, hzero⟩]
          · rw [if_neg heq, if_neg (by omega)]
      · obtain ⟨out₁, hcopy, hslot⟩ := copy_slot out
          ((bm.is_valid_block (table.word i)).2.read_block (table.word i) Mem.zero) hk
          (show i + 100 < k by omega) (if_neg hlast).symm
        obtain ⟨bm', out', hrun, hsame', hbytes⟩ := ih (i + 1) _ out₁ (by omega) hwf₁ huse₁
        refine ⟨bm', out', ?_, hsame.trans hsame', ?_⟩
        · rw [NDIRECT_eq, if_neg hlast, BLOCK_SIZE_eq, hcopy]
          exact hrun
        · intro q hq
          rw [hbytes q hq, hsame.data, hslot q hq, read_block_zero, hsame.data]
          by_cases heq : q / 512 = i + 100
          · rw [if_neg (by omega), if_pos heq, hword q heq, if_pos ⟨by omega, hzero⟩]
          · rw [if_neg heq]
            simp only [show 100 + (i + 1) ≤ q / 512 ↔ 100 + i ≤ q / 512 by omega]

/-- It runs off the table when there are more blocks than entries. -/
theorem read_indirect_fault {k : Nat} (remain : Nat) (table : Mem) (hk : 228 < k) (n : Nat) :
    ∀ (i : Nat) (bm : BlockManager) (out : Mem), i + n = k - 100 → i ≤ 128 →
      ∃ fault, read_indirect k remain table n i bm out = .error fault := by
  induction n with
  | zero =>
    intro i bm out hi hle
    omega
  | succ n ih =>
    intro i bm out hi hle
    rw [read_indirect]
    by_cases hend : i = 128
    · have hentry : entry table i = .error .out_of_bounds := if_neg (by simp; omega)
      rw [hentry, Except.error_bind]
      exact ⟨_, rfl⟩
    · have hentry : entry table i = .ok (table.word i) := if_pos (by simp; omega)
      have hnot : ¬(i + NDIRECT = k - 1 ∧ remain ≠ 0) := by
        simp only [NDIRECT_eq]
        omega
      simp only [hentry, Except.ok_bind, hnot, ↓reduceIte]
      split
      · cases hcopy : copy_out k out ((i + NDIRECT) * BLOCK_SIZE) _ BLOCK_SIZE with
        | error fault => exact ⟨fault, rfl⟩
        | ok out' =>
          rw [Except.ok_bind]
          exact ih (i + 1) _ out' (by omega) (by omega)
      · exact ih (i + 1) _ out (by omega) (by omega)

theorem read_file_dead {im : InodeManager} {inum : UInt32} (hdead : im.get_inode inum = none) :
    im.read_file inum = .ok (none, im) := by
  unfold read_file
  split
  · rfl
  · simp only [hdead]
    rfl

/-- A byte among the direct blocks. -/
theorem file_bytes_of_lt (bm : BlockManager) (node : Inode) (heap : Mem) {q : Nat} (hq : q / 512 < 100) :
    file_bytes bm node heap q =
      if node.block (q / 512) ≠ 0 then bm.data (node.block (q / 512)) (q % 512) else heap q := by
  have hslot : slot_position (q / 512) = q / 512 := if_pos hq
  rw [file_bytes, hslot, pointers_of_le bm node hq.le, ite_not]

/-- A byte behind them. -/
theorem file_bytes_of_ge {bm : BlockManager} {node : Inode} (heap : Mem) {q : Nat}
    (hne : node.block 100 ≠ 0) (hq : 100 ≤ q / 512) (hq' : q / 512 < 228) :
    file_bytes bm node heap q =
      if (bm.data (node.block 100)).word (q / 512 - 100) ≠ 0 then
        bm.data ((bm.data (node.block 100)).word (q / 512 - 100)) (q % 512)
      else heap q := by
  have hslot : slot_position (q / 512) = q / 512 + 1 := if_neg (by omega)
  have hle : q / 512 + 1 ≤ 228 := by omega
  have hsub : q / 512 + 1 - 101 = q / 512 - 100 := by omega
  have hentry : pointers bm node (q / 512 + 1) = (bm.data (node.block 100)).word (q / 512 - 100) := by
    rw [pointers, pointers_with_of_gt _ _ (by omega), entries_on_disk, if_neg hne, table_pointers,
      if_pos hle, hsub]
  rw [file_bytes, hslot, hentry, ite_not]

/-- Storing the new access time at the end leaves the files as they are. -/
theorem unchanged_read {im : InodeManager} {inum : UInt32} {node : Inode} {bm : BlockManager}
    (hlive : im.get_inode inum = some node) (hsame : Same im.bm bm) (env : Env) (now : UInt32) :
    Unchanged im ({ im with bm, env }.put_inode inum { node with atime := now }) := by
  have hsame' := (unchanged_of_same hsame).trans (unchanged_env _ env)
  have hlive' : ({ im with bm, env } : InodeManager).get_inode inum = some node := by
    rw [← hlive]
    exact get_inode_congr fun _ => hsame.data _
  exact hsame'.trans (unchanged_put_inode { node with atime := now } hlive' rfl)

/-- What a live inode asks of the loop over its direct slots. -/
theorem read_direct_of_layout {bm : BlockManager} {node : Inode} {p : Nat} (hwf : bm.WF)
    (hlayout : Layout bm node p) (out : Mem) :
    ∃ i bm' out', read_direct (pre_block_num node) (node.size.toNat % 512) node 100 0 bm out =
        .ok (i, bm', out') ∧ Same bm bm' ∧ (i = 100 ∨ pre_block_num node ≤ 100) ∧
      ∀ q < node.size.toNat, out' q =
        if q / 512 < 100 ∧ node.block (q / 512) ≠ 0 then bm.data (node.block (q / 512)) (q % 512)
        else out q := by
  have hblock : ∀ j ≤ 100, pointers bm node j = node.block j := fun j hj => pointers_of_le _ _ hj
  obtain ⟨i, bm', out', hrun, hsame, hend, hbytes⟩ := InodeManager.read_direct_done (pre_block_num_eq node)
    (by
      intro j hj hne
      rw [← hblock j (by omega)] at hne
      have hreach := (hlayout.front j).mp hne
      have hbounded := hlayout.bounded
      unfold pointers_for at hbounded
      split at hbounded <;> omega)
    100 0 bm out (by omega) hwf
    (by
      intro j hj hne
      rw [← hblock j (by omega)] at hne ⊢
      exact hlayout.held.in_use j hne)
  refine ⟨i, bm', out', hrun, hsame, hend, ?_⟩
  intro q hq
  rw [hbytes q hq]
  simp only [Nat.zero_le, true_and]

/-- A live file is read when its indirect table has an entry for each of its blocks, or
    it has no table and is not too large for a buffer. -/
theorem read_file_done {im : InodeManager} {inum : UInt32} {node : Inode} {p : Nat}
    (hlive : im.get_inode inum = some node) (hwf : im.bm.WF) (hlayout : Layout im.bm node p)
    (hroom : pre_block_num node ≤ 228 ∨ (p ≤ 100 ∧ pre_block_num node * 512 < 2 ^ 31)) :
    ∃ buf im', im.read_file inum = .ok (some (buf, node.size.toNat), im') ∧ Unchanged im im' ∧
      ∀ q < node.size.toNat, buf q = file_bytes im.bm node (im.env.heap 0) q := by
  have hnot : ¬ INODE_NUM < inum.toNat := by
    have := live_le hlive
    simp
    omega
  have hk := pre_block_num_eq node
  have hcount : (if node.size.toNat % BLOCK_SIZE ≠ 0 ∨ node.size.toNat / BLOCK_SIZE = 0 then
      node.size.toNat / BLOCK_SIZE + 1 else node.size.toNat / BLOCK_SIZE) = pre_block_num node :=
    (block_count_eq node.size.toNat).trans hk.symm
  have hbig : ¬ 2 ^ 31 ≤ pre_block_num node * BLOCK_SIZE := by
    simp only [BLOCK_SIZE_eq]
    omega
  obtain ⟨i, bm₁, out₁, hdirect, hsame₁, hend, hbytes₁⟩ := read_direct_of_layout hwf hlayout (im.env.heap 0)
  have hdirect : read_direct (pre_block_num node) (node.size.toNat % BLOCK_SIZE) node NDIRECT 0
      im.malloc.2.bm im.malloc.1 = .ok (i, bm₁, out₁) := hdirect
  have hat : pointers im.bm node 100 = node.block 100 := pointers_of_le _ _ (le_refl 100)
  unfold read_file
  simp only [hnot, ↓reduceIte, hlive, hcount, hbig, hdirect, Except.ok_bind]
  by_cases hzero : node.block 100 = 0
  · -- no indirect block: what lies behind the direct blocks stays as it was
    have hbytes : ∀ q < node.size.toNat, out₁ q = file_bytes im.bm node (im.env.heap 0) q := by
      intro q hq
      rw [hbytes₁ q hq]
      by_cases hlt : q / 512 < 100
      · rw [file_bytes_of_lt _ _ _ hlt]
        simp only [hlt, true_and]
      · have hslot : slot_position (q / 512) = q / 512 + 1 := if_neg hlt
        rw [if_neg (fun h => hlt h.1), file_bytes, hslot,
          pointers_of_no_indirect im.bm hzero (show 100 < q / 512 + 1 by omega), if_pos rfl]
    have hnone : (if i = NDIRECT then bm₁.is_valid_block (node.block NDIRECT) else (false, bm₁)).1 = false ∧
        Same bm₁ (if i = NDIRECT then bm₁.is_valid_block (node.block NDIRECT) else (false, bm₁)).2 := by
      split
      · have hzero' : node.block NDIRECT = 0 := hzero
        have hwf₁ := hsame₁.wf hwf
        rw [hzero']
        exact ⟨is_valid_block_of_not_inUse hwf₁ hwf₁.not_inUse_zero, bm₁.is_valid_block_same 0⟩
      · exact ⟨rfl, Same.refl bm₁⟩
    rw [if_neg (by rw [hnone.1]; exact Bool.false_ne_true)]
    exact ⟨_, _, rfl, unchanged_read hlive (hsame₁.trans hnone.2) _ _, hbytes⟩
  · -- the file goes on behind its direct blocks, so the first loop went through all of them
    have hreach : 100 < p := (hlayout.front 100).mp (by rwa [hat])
    have hbounded := hlayout.bounded
    have hi : i = NDIRECT := by
      rcases hend with hi | hsmall
      · exact hi
      · rw [pointers_for, if_pos hsmall] at hbounded
        omega
    have huse : bm₁.InUse (node.block NDIRECT) := by
      rw [hsame₁.in_use, NDIRECT_eq, ← hat]
      exact hlayout.held.in_use 100 (by rwa [hat])
    have hwf₁ := hsame₁.wf hwf
    have hvalid := is_valid_block_of_inUse hwf₁ huse
    have hsame₂ := hsame₁.trans (bm₁.is_valid_block_same (node.block NDIRECT))
    simp only [hi, ↓reduceIte, hvalid]
    obtain ⟨bm₂, hbm₂⟩ : ∃ bm₂, bm₂ = (bm₁.is_valid_block (node.block NDIRECT)).2 := ⟨_, rfl⟩
    rw [← hbm₂] at hsame₂ ⊢
    have htable : bm₂.read_block (node.block NDIRECT) Mem.zero = im.bm.data (node.block 100) := by
      rw [read_block_zero, hsame₂.data, NDIRECT_eq]
    have hword : ∀ j < 128, pointers im.bm node (101 + j) = (im.bm.data (node.block 100)).word j := by
      intro j hj
      have hle : 101 + j ≤ 228 := by omega
      have hsub : 101 + j - 101 = j := by omega
      rw [pointers, pointers_with_of_gt _ _ (by omega), entries_on_disk, if_neg hzero, table_pointers,
        if_pos hle, hsub]
    obtain ⟨bm₃, out₃, hrun, hsame₃, hbytes₃⟩ := read_indirect_done (im.bm.data (node.block 100))
      hk (by omega) (pre_block_num node - 100) 0 bm₂ out₁ (by omega) (hsame₂.wf hwf)
      (by
        intro j hj hne
        rw [hsame₂.in_use]
        rw [← hword j hj] at hne ⊢
        exact hlayout.held.in_use _ hne)
    have hrun : read_indirect (pre_block_num node) (node.size.toNat % BLOCK_SIZE)
        (im.bm.data (node.block 100)) (pre_block_num node - NDIRECT) 0 bm₂ out₁ = .ok (bm₃, out₃) := hrun
    rw [htable, hrun, Except.ok_bind]
    refine ⟨_, _, rfl, unchanged_read hlive (hsame₂.trans hsame₃) _ _, ?_⟩
    intro q hq
    change out₃ q = _
    rw [hbytes₃ q hq, hbytes₁ q hq]
    by_cases hlt : q / 512 < 100
    · rw [if_neg (by omega), file_bytes_of_lt _ _ _ hlt]
      simp only [hlt, true_and]
    · have hq' : q / 512 < 228 := by
        unfold blocks_for at hk
        omega
      rw [file_bytes_of_ge _ hzero (by omega) hq', hsame₂.data]
      simp only [hlt, show 100 + 0 ≤ q / 512 by omega, true_and, false_and, ↓reduceIte]

/-- Otherwise the table is read past its end, or the size of the buffer overflows. -/
theorem read_file_fault {im : InodeManager} {inum : UInt32} {node : Inode} {p : Nat}
    (hlive : im.get_inode inum = some node) (hwf : im.bm.WF) (hlayout : Layout im.bm node p)
    (hroom : ¬(pre_block_num node ≤ 228 ∨ (p ≤ 100 ∧ pre_block_num node * 512 < 2 ^ 31))) :
    ∃ fault, im.read_file inum = .error fault := by
  have hnot : ¬ INODE_NUM < inum.toNat := by
    have := live_le hlive
    simp
    omega
  have hk := pre_block_num_eq node
  have hcount : (if node.size.toNat % BLOCK_SIZE ≠ 0 ∨ node.size.toNat / BLOCK_SIZE = 0 then
      node.size.toNat / BLOCK_SIZE + 1 else node.size.toNat / BLOCK_SIZE) = pre_block_num node :=
    (block_count_eq node.size.toNat).trans hk.symm
  unfold read_file
  simp only [hnot, ↓reduceIte, hlive, hcount]
  by_cases hbig : 2 ^ 31 ≤ pre_block_num node * BLOCK_SIZE
  · simp only [hbig, ↓reduceIte]
    exact ⟨_, rfl⟩
  · simp only [hbig, ↓reduceIte]
    simp only [BLOCK_SIZE_eq] at hbig
    obtain ⟨i, bm₁, out₁, hdirect, hsame₁, hend, _⟩ := read_direct_of_layout hwf hlayout (im.env.heap 0)
    have hdirect : read_direct (pre_block_num node) (node.size.toNat % BLOCK_SIZE) node NDIRECT 0
        im.malloc.2.bm im.malloc.1 = .ok (i, bm₁, out₁) := hdirect
    have hat : pointers im.bm node 100 = node.block 100 := pointers_of_le _ _ (le_refl 100)
    have hi : i = NDIRECT := by
      rcases hend with hi | hsmall
      · exact hi
      · omega
    have huse : bm₁.InUse (node.block NDIRECT) := by
      have hne : pointers im.bm node 100 ≠ 0 := (hlayout.front 100).mpr (by omega)
      rw [hsame₁.in_use, NDIRECT_eq, ← hat]
      exact hlayout.held.in_use 100 hne
    have hvalid := is_valid_block_of_inUse (hsame₁.wf hwf) huse
    simp only [hdirect, Except.ok_bind, hi, ↓reduceIte, hvalid]
    obtain ⟨fault, hfault⟩ := read_indirect_fault (k := pre_block_num node) (node.size.toNat % BLOCK_SIZE)
      ((bm₁.is_valid_block (node.block NDIRECT)).2.read_block (node.block NDIRECT) Mem.zero)
      (by omega) (pre_block_num node - 100) 0 (bm₁.is_valid_block (node.block NDIRECT)).2 out₁ (by omega)
      (by omega)
    have hfault : read_indirect (pre_block_num node) (node.size.toNat % BLOCK_SIZE)
        ((bm₁.is_valid_block (node.block NDIRECT)).2.read_block (node.block NDIRECT) Mem.zero)
        (pre_block_num node - NDIRECT) 0 (bm₁.is_valid_block (node.block NDIRECT)).2 out₁ = .error fault :=
      hfault
    rw [hfault, Except.error_bind]
    exact ⟨_, rfl⟩

end InodeManager

end chfs
