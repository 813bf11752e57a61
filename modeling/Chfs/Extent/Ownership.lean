import Chfs.Extent.DiskFull

namespace chfs

open BlockManager InodeManager

/-- The block number in slot `i` of a file: the direct pointers, then the entries of
    the indirect block if it has one. -/
def logical_slot (bm : BlockManager) (node : Inode) (i : Nat) : blockid_t :=
  if i < NDIRECT then node.block i
  else if node.block NDIRECT = 0 then 0
  else (bm.data (node.block NDIRECT)).word (i - NDIRECT)

theorem pointers_slot (bm : BlockManager) (node : Inode) {i : Nat} (hi : i < MAXFILE) :
    pointers bm node (slot_position i) = logical_slot bm node i := by
  simp only [MAXFILE, NDIRECT_eq, NINDIRECT_eq] at hi
  by_cases hdirect : i < 100
  · have hslot : slot_position i = i := if_pos hdirect
    rw [hslot, pointers_of_le _ _ hdirect.le, logical_slot, NDIRECT_eq, if_pos hdirect]
  · have hslot : slot_position i = i + 1 := if_neg hdirect
    have hle : i + 1 ≤ 228 := by omega
    rw [hslot, pointers, pointers_with_of_gt _ _ (by omega), logical_slot, NDIRECT_eq, if_neg hdirect,
      entries_on_disk, table_pointers, if_pos hle, Nat.add_sub_add_right i 1 100]

theorem slot_position_inj {i j : Nat} (h : slot_position i = slot_position j) : i = j := by
  unfold slot_position at h
  split at h <;> split at h <;> omega

/-- Which blocks the live inodes own. -/
structure BlockOwnership (im : InodeManager) : Prop where
  /-- The slots in use come first, and there are no more than the size asks for. -/
  slots : ∀ inum node, im.get_inode inum = some node → ∃ m ≤ max 1 (blocks_for node.size.toNat),
    ∀ i < MAXFILE, logical_slot im.bm node i ≠ 0 ↔ i < m
  indirect : ∀ inum node, im.get_inode inum = some node → node.block NDIRECT ≠ 0 →
    NDIRECT < blocks_for node.size.toNat
  slot_in_use : ∀ inum node, im.get_inode inum = some node → ∀ i < MAXFILE, logical_slot im.bm node i ≠ 0 →
    (IBLOCK (UInt32.ofNat INODE_NUM)).toNat < (logical_slot im.bm node i).toNat ∧
      (logical_slot im.bm node i).toNat < BLOCK_NUM ∧ im.bm.using_blocks (logical_slot im.bm node i) = some 1
  indirect_in_use : ∀ inum node, im.get_inode inum = some node → node.block NDIRECT ≠ 0 →
    (IBLOCK (UInt32.ofNat INODE_NUM)).toNat < (node.block NDIRECT).toNat ∧
      (node.block NDIRECT).toNat < BLOCK_NUM ∧ im.bm.using_blocks (node.block NDIRECT) = some 1
  slots_distinct : ∀ inum inum' node node', im.get_inode inum = some node → im.get_inode inum' = some node' →
    ∀ i < MAXFILE, ∀ j < MAXFILE, logical_slot im.bm node i ≠ 0 →
      logical_slot im.bm node i = logical_slot im.bm node' j → inum = inum' ∧ i = j
  indirect_distinct : ∀ inum inum' node node', im.get_inode inum = some node →
    im.get_inode inum' = some node' → node.block NDIRECT ≠ 0 → node.block NDIRECT = node'.block NDIRECT →
    inum = inum'
  slot_not_indirect : ∀ inum inum' node node', im.get_inode inum = some node →
    im.get_inode inum' = some node' → ∀ i < MAXFILE, logical_slot im.bm node i ≠ 0 →
    logical_slot im.bm node i ≠ node'.block NDIRECT

/-- Within an inode and across two of them, equal pointers come from one position. -/
theorem Owned.pointers_inj {im : InodeManager} (h : Owned im) {inum inum' : UInt32} {node node' : Inode}
    (hlive : im.get_inode inum = some node) (hlive' : im.get_inode inum' = some node') {j k : Nat}
    (hj : pointers im.bm node j ≠ 0) (heq : pointers im.bm node j = pointers im.bm node' k) :
    inum = inum' ∧ j = k := by
  by_cases hinum : inum = inum'
  · subst hinum
    rw [hlive] at hlive'
    cases hlive'
    obtain ⟨p, hlayout⟩ := h.layout inum node hlive
    exact ⟨rfl, hlayout.held.injective j k hj heq⟩
  · exact absurd heq (h.disjoint inum inum' node node' hlive hlive' hinum j k hj)

theorem Owned.data_region {im : InodeManager} (h : Owned im) {inum : UInt32} {node : Inode}
    (hlive : im.get_inode inum = some node) {j : Nat} (hj : pointers im.bm node j ≠ 0) :
    (IBLOCK (UInt32.ofNat INODE_NUM)).toNat < (pointers im.bm node j).toNat ∧
      (pointers im.bm node j).toNat < BLOCK_NUM ∧ im.bm.using_blocks (pointers im.bm node j) = some 1 := by
  have huse := h.in_use hlive hj
  obtain ⟨hlo, hhi⟩ := h.wf.data_block _ huse
  exact ⟨hlo, hhi, huse⟩

/-- The ownership invariant in terms of the slots of a file. -/
theorem Owned.block_ownership {im : InodeManager} (h : Owned im) : BlockOwnership im := by
  have hat : ∀ node : Inode, pointers im.bm node 100 = node.block NDIRECT := fun node =>
    pointers_of_le _ _ (le_refl 100)
  constructor
  · intro inum node hlive
    obtain ⟨p, hlayout⟩ := h.layout inum node hlive
    have hbounded := hlayout.bounded
    rw [pre_block_num_eq] at hbounded
    refine ⟨if p ≤ 100 then p else p - 1, ?_, ?_⟩
    · unfold pointers_for at hbounded
      split at hbounded <;> split <;> omega
    · intro i hi
      rw [← pointers_slot _ _ hi, hlayout.front]
      unfold slot_position
      split <;> split <;> omega
  · intro inum node hlive hne
    obtain ⟨p, hlayout⟩ := h.layout inum node hlive
    have hbounded := hlayout.bounded
    rw [pre_block_num_eq] at hbounded
    rw [← hat, hlayout.front] at hne
    unfold pointers_for at hbounded
    simp only [NDIRECT_eq]
    split at hbounded <;> omega
  · intro inum node hlive i hi hne
    rw [← pointers_slot _ _ hi] at hne ⊢
    exact h.data_region hlive hne
  · intro inum node hlive hne
    rw [← hat] at hne ⊢
    exact h.data_region hlive hne
  · intro inum inum' node node' hlive hlive' i hi j hj hne heq
    rw [← pointers_slot _ _ hi] at hne heq
    rw [← pointers_slot _ _ hj] at heq
    obtain ⟨hinum, hslot⟩ := h.pointers_inj hlive hlive' hne heq
    exact ⟨hinum, slot_position_inj hslot⟩
  · intro inum inum' node node' hlive hlive' hne heq
    rw [← hat] at hne heq
    rw [← hat] at heq
    exact (h.pointers_inj hlive hlive' hne heq).1
  · intro inum inum' node node' hlive hlive' i hi hne heq
    rw [← pointers_slot _ _ hi] at hne heq
    rw [← hat] at heq
    exact slot_position_ne i (h.pointers_inj hlive hlive' hne heq).2

namespace ExtentServer

/-- In every state that a new server reaches with buffers that fit into one file, each
    block of the data region belongs to at most one slot or indirect pointer of one
    live inode, and what belongs to one is marked in use. -/
theorem run_keeps_ownership {garbage : UInt32} {env : Env} {start es : ExtentServer}
    {history : List (ExtentOp × ExtentReply)} (hnew : ExtentServer.new garbage env = .ok start)
    (hrun : FittingRun start history es) : BlockOwnership es.im :=
  (ShortRun.owned (fresh_new hnew).1.owned hrun.short).block_ownership

/-- Also once the disk is full. -/
theorem full_disk_keeps_ownership :
    ∃ start es, ExtentServer.new 0 still = .ok start ∧ start.run (fill_disk 139) = .ok es ∧
      BlockOwnership es.im := by
  obtain ⟨start, hnew⟩ := new_zero still
  obtain ⟨es, hrun, _⟩ := fill_disk_runs (fresh_new hnew).1 (m := 139) (by omega)
  obtain ⟨history, htrace⟩ := FittingRun.of_run (fill_disk_fits 139) hrun
  exact ⟨start, es, hnew, hrun, run_keeps_ownership hnew htrace⟩

end ExtentServer

end chfs
