import Chfs.Inodes.Table
import Chfs.WriteFile.FreeUnused

namespace chfs

open BlockManager InodeManager

/-- How a file lies on the disk: the first `p` of its pointers name blocks in use,
    each another one, and there are no more than its size asks for. -/
structure Layout (bm : BlockManager) (node : Inode) (p : Nat) : Prop where
  held : Held bm (pointers bm node)
  front : Prefix (pointers bm node) p
  bounded : p ≤ pointers_for (pre_block_num node)

/-- What writing `n` bytes from `buf` leaves of the pointers `a` and the block layer
    `bm`, when `a` holds blocks up to position `p`. -/
structure Written (buf : Mem) (n : Nat) (bm : BlockManager) (a : Pointers) (p : Nat)
    (bm' : BlockManager) (a' : Pointers) : Prop where
  wf : bm'.WF
  held : Held bm' a'
  front : Prefix a' (min (filled p (target n) bm.free_count) (pointers_for (max 1 (blocks_for n))))
  in_use : ∀ id, bm'.InUse id ↔ (bm.InUse id ∧ ∀ j, a j ≠ id) ∨ ∃ j, a' j = id ∧ id ≠ 0
  kept : ∀ j, j < pointers_for (max 1 (blocks_for n)) → a j ≠ 0 → a' j = a j
  fresh : ∀ j, a' j ≠ 0 → a' j = a j ∨ ¬ bm.InUse (a' j)
  frame : ∀ id, DataBlock id → (∀ j, a j ≠ id) → (∀ j, a' j ≠ id) → bm'.data id = bm.data id
  zeroed : ∀ j, a j ≠ 0 → a' j = 0 → bm'.data (a j) = Mem.zero
  blocks : ∀ k < blocks_for n, a' (slot_position k) ≠ 0 → ∀ q < 512,
    bm'.data (a' (slot_position k)) q = file_chunk buf n (slot_position k) q
  failed : bm'.failed_allocs = bm.failed_allocs + (target n - p - bm.free_count)
  free : bm'.free_count + min (filled p (target n) bm.free_count) (pointers_for (max 1 (blocks_for n))) =
    bm.free_count + p

theorem target_le (n : Nat) : target n ≤ pointers_for (max 1 (blocks_for n)) := by
  unfold target pointers_for
  split <;> split <;> omega

theorem slot_position_ne (k : Nat) : slot_position k ≠ 100 := by
  unfold slot_position
  split <;> omega

/-- Filling up to the target and trimming behind it writes the file. -/
theorem Fills.trims_written {buf : Mem} {n p : Nat} {bm bm₁ bm' : BlockManager} {a a₁ a' : Pointers}
    (hheld : Held bm a) (hfront : Prefix a p) (hp : p ≤ 229)
    (hfills : Fills (file_chunk buf n) 0 (target n) bm a bm₁ a₁)
    (htrims : Trims (pointers_for (max 1 (blocks_for n))) (filled p (target n) bm.free_count) bm₁ a₁ bm' a') :
    Written buf n bm a p bm' a' := by
  obtain ⟨r, hr⟩ : ∃ r, r = pointers_for (max 1 (blocks_for n)) := ⟨_, rfl⟩
  have ht : target n ≤ r := hr ▸ target_le n
  rw [← hr] at htrims
  have hfront₁ := hfront.fills hfills
  have hheld₁ := hfills.held hheld
  have hpointers := htrims.pointers
  have hfront' : Prefix a' (min (filled p (target n) bm.free_count) r) := by
    intro j
    rw [hpointers]
    by_cases hj : j < r
    · rw [if_pos hj, hfront₁ j]
      omega
    · simp [hj]
  have hkept : ∀ j, a' j ≠ 0 → a' j = a₁ j := fun j hj => htrims.kept hj
  have hbehind : ∀ j, r ≤ j → a₁ j = a j := fun j hj => hfills.outside j (by omega)
  refine ⟨htrims.wf, htrims.held hheld₁, hr ▸ hfront', htrims.in_use_filled hheld hfills ht, ?_, ?_, ?_, ?_, ?_, ?_, ?_⟩
  · intro j hj hne
    rw [hpointers, if_pos (hr ▸ hj), hfills.kept j hne]
  · intro j hj
    rw [hkept j hj]
    rw [hkept j hj] at hj
    by_cases hzero : a j = 0
    · exact .inr (hfills.fresh j hzero hj)
    · exact .inl (hfills.kept j hzero)
  · intro id hid hold hnew
    have hnone : ∀ j, a₁ j ≠ id := by
      intro j hj
      by_cases hjr : j < r
      · exact hnew j (by rw [hpointers, if_pos hjr, hj])
      · rw [hbehind j (by omega)] at hj
        exact hold j hj
    rw [htrims.frame id (hnone 100).symm (fun j _ _ => hnone j),
      hfills.frame id (fun j _ _ => hnone j)]
  · intro j hne hzero
    have hjr : r ≤ j := by
      by_contra hjr
      rw [hpointers, if_pos (by omega), hfills.kept j hne] at hzero
      exact hne hzero
    rw [← hbehind j hjr] at hne ⊢
    exact htrims.zeroed j hjr hne
  · intro k hk hne q hq
    obtain ⟨j, hj⟩ : ∃ j, j = slot_position k := ⟨_, rfl⟩
    have hj100 : j ≠ 100 := hj ▸ slot_position_ne k
    rw [← hj] at hne ⊢
    have hne₁ : a₁ j ≠ 0 := by rwa [← hkept j hne]
    have hslot : j < target n := by
      have hreach := (hfront' j).mp hne
      have hlarge := (hfront₁ j).mp hne₁
      have hk : j < pointers_for (blocks_for n) := by
        rw [hj]
        exact slot_position_lt_pointers_for hk
      have h229 : j < 229 := by
        have ht229 : target n ≤ 229 := Nat.min_le_left _ _
        unfold filled at hlarge
        omega
      unfold target
      omega
    have hout : ∀ i, r ≤ i → a₁ i ≠ 0 → a₁ i ≠ a₁ j := by
      intro i hi _ heq
      have := hheld₁.injective j i hne₁ heq.symm
      omega
    have h100 : a₁ j ≠ a₁ 100 := fun heq => hj100 (hheld₁.injective j 100 hne₁ heq)
    rw [hkept j hne, htrims.frame _ h100 hout,
      hfills.written j (Nat.zero_le j) hslot hj100 hne₁ q hq]
  · rw [htrims.failed, hfills.failed, hfront₁.missing]
    unfold filled
    omega
  · rw [htrims.free, hfills.free, hfront.missing]
    unfold filled
    omega

/-- The bytes written up to the end of the file are those of the buffer. -/
theorem Written.contents {buf : Mem} {n p : Nat} {bm bm' : BlockManager} {a a' : Pointers}
    (h : Written buf n bm a p bm' a') (k q : Nat) (hne : a' (slot_position k) ≠ 0) (hq : q < 512)
    (hn : 512 * k + q < n) : bm'.data (a' (slot_position k)) q = buf (512 * k + q) := by
  have hk : k < blocks_for n := by
    unfold blocks_for
    omega
  rw [h.blocks k hk hne q hq]
  exact file_chunk_slot (by exact_mod_cast hn)

/-- Filling and trimming leave every other block alone, block 0 included when no
    position to fill stays without a block. -/
theorem Fills.trims_frame {chunk : Nat → Mem} {t r p : Nat} {bm bm₁ bm' : BlockManager}
    {a a₁ a' : Pointers} (ht : t ≤ r) (hfills : Fills chunk 0 t bm a bm₁ a₁)
    (htrims : Trims r p bm₁ a₁ bm' a') {id : blockid_t} (hold : ∀ j, a j ≠ 0 → a j ≠ id)
    (hnew : ∀ j, a' j ≠ 0 → a' j ≠ id) (hfilled : id = 0 → ∀ j < t, a₁ j ≠ 0)
    (hindirect : id = 0 → a₁ 100 = 0 → bm'.data 0 = bm₁.data 0) :
    bm'.data id = bm.data id := by
  have hnone : ∀ j, a₁ j ≠ 0 → a₁ j ≠ id := by
    intro j hj
    by_cases hzero : a j = 0
    · -- a block taken at `j` is not trimmed again
      have hjt : j < t := by
        by_contra hjt
        rw [hfills.outside j (by omega)] at hj
        exact hj hzero
      have hat : a' j = a₁ j := by rw [htrims.pointers, if_pos (by omega)]
      rw [← hat] at hj ⊢
      exact hnew j hj
    · rw [hfills.kept j hzero]
      exact hold j hzero
  by_cases hid : id = 0
  · subst hid
    have hfill : bm₁.data 0 = bm.data 0 := hfills.frame 0 fun j _ hj => hfilled rfl j hj
    rw [← hfill]
    by_cases hzero : a₁ 100 = 0
    · exact hindirect rfl hzero
    · exact htrims.frame 0 (Ne.symm hzero) fun j _ hj => hj
  · have hall : ∀ j, a₁ j ≠ id := by
      intro j heq
      exact hnone j (heq ▸ hid) heq
    rw [htrims.frame id (hall 100).symm fun j _ _ => hall j, hfills.frame id fun j _ _ => hall j]

/-- Neither a filled nor a trimmed block is one of the inode table. -/
theorem Fills.trims_table {chunk : Nat → Mem} {t r p : Nat} {bm bm₁ bm' : BlockManager}
    {a a₁ a' : Pointers} (hheld : Held bm a) (hfills : Fills chunk 0 t bm a bm₁ a₁)
    (htrims : Trims r p bm₁ a₁ bm' a') {inum : UInt32} (hinum : inum.toNat ≤ 1024) :
    bm'.data (IBLOCK inum) = bm.data (IBLOCK inum) := by
  have hne := IBLOCK_ne_zero hinum
  have hnone : ∀ j, a₁ j ≠ IBLOCK inum := by
    intro j heq
    have hdata := hfills.wf.data_block _ ((hfills.held hheld).in_use j (heq ▸ hne))
    exact hdata.ne_IBLOCK hinum heq
  rw [htrims.frame _ (hnone 100).symm (fun j _ _ => hnone j), hfills.frame _ (fun j _ _ => hnone j)]

/-- Storing an inode afterwards makes no difference. -/
theorem Written.put_inode {buf : Mem} {n p : Nat} {bm : BlockManager} {a a' : Pointers} {im : InodeManager}
    (hwf : bm.WF) (hheld : Held bm a) (h : Written buf n bm a p im.bm a') {inum : UInt32}
    (hinum : inum.toNat ≤ 1024) (node : Inode) :
    Written buf n bm a p (im.put_inode inum node).bm a' where
  wf := wf_put_inode h.wf inum node
  held := ⟨h.held.in_use, h.held.injective⟩
  front := h.front
  in_use := h.in_use
  kept := h.kept
  fresh := h.fresh
  frame := by
    intro id hid hold hnew
    rw [data_put_inode _ (hid.ne_IBLOCK hinum), h.frame id hid hold hnew]
  zeroed := by
    intro j hne hzero
    rw [data_put_inode _ ((hwf.data_block _ (hheld.in_use j hne)).ne_IBLOCK hinum)]
    exact h.zeroed j hne hzero
  blocks := by
    intro k hk hne q hq
    rw [data_put_inode _ ((h.wf.data_block _ (h.held.in_use _ hne)).ne_IBLOCK hinum)]
    exact h.blocks k hk hne q hq
  failed := h.failed
  free := h.free

namespace InodeManager

/-- Storing an inode does not touch the pointers. -/
theorem pointers_put_inode {im : InodeManager} {inum : UInt32} (node : Inode) {node' stored : Inode}
    (hwf : im.bm.WF) (hheld : Held im.bm (pointers im.bm node)) (hinum : inum.toNat ≤ 1024)
    (hblocks : ∀ j, j ≤ 100 → node'.block j = node.block j) :
    pointers (im.put_inode inum stored).bm node' = pointers im.bm node := by
  apply pointers_congr hblocks
  intro hne
  rw [← pointers_of_le im.bm node (le_refl 100)] at hne ⊢
  exact data_put_inode _ ((hwf.data_block _ (hheld.in_use 100 hne)).ne_IBLOCK hinum) _

/-- The number of blocks a file of `n` bytes keeps: an empty file may keep one. -/
theorem used_block_num_natCast (n : Nat) : used_block_num n = (max 1 (blocks_for n) : Nat) := by
  cases n with
  | zero => decide
  | succ n =>
    have hsub : ((n + 1 : Nat) : Int) - 1 = (n : Nat) := by omega
    rw [used_block_num, hsub, BLOCK_SIZE_eq, ← Int.ofNat_tdiv]
    unfold blocks_for
    omega

theorem ofInt_natCast (n : Nat) : UInt32.ofInt n = UInt32.ofNat n := by
  apply UInt32.toNat_inj.mp
  rw [UInt32.ofInt, UInt32.toNat_ofNat', UInt32.toNat_ofNat']
  omega

/-- What `write_file` leaves of a live inode. -/
structure WriteDone (buf : Mem) (n : Nat) (im : InodeManager) (inum : UInt32) (node : Inode) (p : Nat)
    (im' : InodeManager) (node' : Inode) : Prop where
  live : im'.get_inode inum = some node'
  type : node'.type = node.type
  size : node'.size = UInt32.ofNat n
  others : ∀ other, other ≠ inum → im'.get_inode other = im.get_inode other
  last_alloced : im'.last_alloced = im.last_alloced
  failed_allocs : im'.failed_allocs = im.failed_allocs
  memory : ∃ k, im'.env.heap = fun i => im.env.heap (i + k)
  written : Written buf n im.bm (pointers im.bm node) p im'.bm (pointers im'.bm node')
  /-- No block is touched but those named before or after and that of the inode;
      block 0 may be, when an allocation failed now or earlier. -/
  frame : ∀ id, id ≠ IBLOCK inum →
    (∀ j, pointers im.bm node j ≠ 0 → pointers im.bm node j ≠ id) →
    (∀ j, pointers im'.bm node' j ≠ 0 → pointers im'.bm node' j ≠ id) →
    (id = 0 → im'.bm.failed_allocs = im.bm.failed_allocs ∧
      (pre_block_num node ≤ 100 ∨ pointers im.bm node 100 ≠ 0)) →
    im'.bm.data id = im.bm.data id

/-- A call of `write_file` on a live inode returns when the blocks behind the new size
    can be freed, and then it has written as much of the buffer as there is room for. -/
theorem write_file_done {im : InodeManager} {inum : UInt32} {node : Inode} {p : Nat} (n : Nat) (buf : Mem)
    (hlive : im.get_inode inum = some node) (hwf : im.bm.WF) (hlayout : Layout im.bm node p)
    (hok : CanShrink (pre_block_num node) (max 1 (blocks_for n)) (filled p (target n) im.bm.free_count)) :
    ∃ im' node', im.write_file inum buf n = .ok im' ∧ WriteDone buf n im inum node p im' node' := by
  obtain ⟨hheld, hfront, hbounded⟩ := hlayout
  have hinum := live_le hlive
  obtain ⟨s, hs⟩ : ∃ s, s = write_indirect buf n (write_direct buf n NDIRECT (start im.bm node)) := ⟨_, rfl⟩
  obtain ⟨hfills, ⟨blocks, hnode⟩, _⟩ := write_blocks_fills hwf hheld hs
  rw [Int.toNat_natCast] at hfills
  have hfront₁ := hfront.fills hfills
  have hpre : pre_block_num s.node = pre_block_num node := by rw [hnode]; rfl
  have ht := target_le n
  obtain ⟨bm', env', blocks', hrun, hmemory, hzero, htrims⟩ := free_unused_trims { im with bm := s.bm }
    (max 1 (blocks_for n)) hfills.wf (hfills.held hheld) hfront₁
    (by rw [hpre]; unfold filled; omega) (by rwa [hpre])
  have hwritten := hfills.trims_written hheld hfront (prefix_le hfront) htrims
  rw [hpre] at hrun
  obtain ⟨env'', stored, hdone, htype, hsize, hblocks, hheap⟩ : ∃ env'' stored,
      im.write_file inum buf n = .ok (put_inode { im with bm := bm', env := env'' } inum stored) ∧
        stored.type = node.type ∧ stored.size = UInt32.ofInt n ∧ stored.blocks = blocks' ∧
        env''.heap = env'.heap := by
    refine ⟨{ env' with clock := fun k => env'.clock (k + 3) },
      { s.node with
        blocks := blocks', size := UInt32.ofInt n, atime := UInt32.ofNat (env'.clock 0),
        ctime := UInt32.ofNat (env'.clock 1), mtime := UInt32.ofNat (env'.clock 2) },
      ?_, by rw [hnode], rfl, rfl, rfl⟩
    unfold write_file
    simp only [hlive]
    rw [used_block_num_natCast, ← start, ← hs, hrun]
    rfl
  have htable : ∀ other, other.toNat ≤ 1024 → bm'.data (IBLOCK other) = im.bm.data (IBLOCK other) :=
    fun other hother => hfills.trims_table hheld htrims hother
  have hpointers : pointers (put_inode { im with bm := bm', env := env'' } inum stored).bm stored =
      pointers bm' { s.node with blocks := blocks' } :=
    pointers_put_inode { s.node with blocks := blocks' } hwritten.wf hwritten.held hinum
      (fun j _ => by simp only [Inode.block, hblocks])
  refine ⟨_, stored, hdone, get_inode_put_inode_same _ hinum ?_, htype, ?_, ?_, rfl, rfl,
    by rwa [← hheap] at hmemory, ?_, ?_⟩
  · rw [htype]
    exact live_type hlive
  · rw [hsize, ofInt_natCast]
  · intro other hother
    rw [get_inode_put_inode_ne _ hinum hother]
    exact get_inode_congr (htable other)
  · rw [hpointers]
    exact hwritten.put_inode hwf hheld hinum _
  · intro id hid hold hnew hzero_block
    rw [hpointers] at hnew
    rw [data_put_inode _ hid]
    refine hfills.trims_frame ht htrims hold hnew ?_ ?_
    · intro hid0 j hj
      have hfailed := hfills.failed
      have hsame : bm'.failed_allocs = im.bm.failed_allocs := (hzero_block hid0).1
      rw [← htrims.failed, hsame] at hfailed
      exact Pointers.missing_eq_zero.mp (by omega) j (Nat.zero_le j) hj
    · intro hid0 hnone
      rcases (hzero_block hid0).2 with hsmall | hindirect
      · exact hzero (by rwa [hpre])
      · exact absurd ((hfills.kept 100 hindirect).symm.trans hnone) hindirect

/-- Otherwise it ends in a fault. -/
theorem write_file_fault {im : InodeManager} {inum : UInt32} {node : Inode} {p : Nat} (n : Nat) (buf : Mem)
    (hlive : im.get_inode inum = some node) (hwf : im.bm.WF) (hlayout : Layout im.bm node p)
    (hnot : ¬ CanShrink (pre_block_num node) (max 1 (blocks_for n))
      (filled p (target n) im.bm.free_count)) :
    ∃ fault, im.write_file inum buf n = .error fault := by
  obtain ⟨hheld, hfront, _⟩ := hlayout
  obtain ⟨s, hs⟩ : ∃ s, s = write_indirect buf n (write_direct buf n NDIRECT (start im.bm node)) := ⟨_, rfl⟩
  obtain ⟨hfills, ⟨blocks, hnode⟩, htable⟩ := write_blocks_fills hwf hheld hs
  rw [Int.toNat_natCast] at hfills htable
  have hpre : pre_block_num s.node = pre_block_num node := by rw [hnode]; rfl
  obtain ⟨fault, hfault⟩ := free_unused_fault { im with bm := s.bm }
    (max 1 (blocks_for n)) hfills.wf (hfills.held hheld) (hfront.fills hfills)
    (fun h => htable (by omega)) (by rwa [hpre])
  rw [hpre] at hfault
  refine ⟨fault, ?_⟩
  unfold write_file
  simp only [hlive]
  rw [used_block_num_natCast, ← start, ← hs, hfault, Except.error_bind]

end InodeManager

end chfs
