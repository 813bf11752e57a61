import Chfs.Extent.Ownership
import Chfs.Extent.WholeFiles

namespace chfs

open BlockManager InodeManager

/-- The blocks of a file: those its slots name, and its indirect block if it goes on
    behind the direct ones. -/
def file_blocks (bm : BlockManager) (node : Inode) : Set blockid_t :=
  { blk | (∃ i < blocks_for node.size.toNat, logical_slot bm node i = blk) ∨
    (NDIRECT * BLOCK_SIZE < node.size.toNat ∧ node.block NDIRECT = blk) }

/-- How many they are. -/
def file_block_count (size : Nat) : Nat :=
  blocks_for size + if NDIRECT * BLOCK_SIZE < size then 1 else 0

/-- In terms of positions, they are those of all pointers that the size asks for. -/
theorem mem_file_blocks {bm : BlockManager} {node : Inode} {blk : blockid_t}
    (hk : blocks_for node.size.toNat ≤ 228) :
    blk ∈ file_blocks bm node ↔ ∃ j < pointers_for (blocks_for node.size.toNat), pointers bm node j = blk := by
  have hlarge : NDIRECT * BLOCK_SIZE < node.size.toNat ↔ 100 < blocks_for node.size.toNat := by
    unfold blocks_for
    simp
    omega
  have hat : pointers bm node 100 = node.block NDIRECT := pointers_of_le _ _ (le_refl 100)
  constructor
  · rintro (⟨i, hi, hslot⟩ | ⟨hsize, hindirect⟩)
    · refine ⟨slot_position i, slot_position_lt_pointers_for hi, ?_⟩
      rw [pointers_slot _ _ (by simp [MAXFILE]; omega), hslot]
    · refine ⟨100, ?_, hat.trans hindirect⟩
      have := hlarge.mp hsize
      unfold pointers_for
      split <;> omega
  · rintro ⟨j, hj, hpointer⟩
    by_cases h100 : j = 100
    · subst h100
      refine .inr ⟨hlarge.mpr ?_, hat.symm.trans hpointer⟩
      unfold pointers_for at hj
      split at hj <;> omega
    · obtain ⟨i, hi, hij⟩ := exists_slot_position hj h100
      refine .inl ⟨i, hi, ?_⟩
      rw [← pointers_slot _ _ (by simp [MAXFILE]; omega), hij, hpointer]

theorem file_block_count_eq (n : Nat) : file_block_count n = pointers_for (blocks_for n) := by
  have hlimit : NDIRECT * BLOCK_SIZE = 51200 := rfl
  unfold file_block_count pointers_for blocks_for
  rw [hlimit]
  by_cases hn : n ≤ 51200
  · rw [if_neg (by omega), if_pos (by omega), Nat.add_zero]
  · rw [if_pos (by omega), if_neg (by omega)]

namespace ExtentServer

variable {start es es' : ExtentServer} {history : List (ExtentOp × ExtentReply)} {id : extentid_t} {node : Inode}

/-- The inode is gone, exactly its blocks have become free and they are clear. -/
structure RemovesFile (es : ExtentServer) (id : extentid_t) (node : Inode) (es' : ExtentServer) : Prop where
  dead : es'.im.get_inode (inum_of id) = none
  in_use : ∀ blk, es'.im.bm.using_blocks blk = some 1 ↔
    es.im.bm.using_blocks blk = some 1 ∧ blk ∉ file_blocks es.im.bm node
  zeroed : ∀ blk ∈ file_blocks es.im.bm node, es'.im.bm.data blk = Mem.zero
  free : es'.im.bm.free_count = es.im.bm.free_count + file_block_count node.size.toNat

/-- The entries of the indirect block stay in use when the file is removed. -/
theorem removesFile_iff_of_whole (howned : Owned es.im) (hlive : es.im.get_inode (inum_of id) = some node)
    (hwhole : Whole es.im.bm node) (hsize : 1 ≤ node.size.toNat) :
    (∃ es', es.remove id = .ok (.OK, es') ∧ RemovesFile es id node es') ↔
      node.size.toNat ≤ NDIRECT * BLOCK_SIZE := by
  have hk := hwhole.blocks_le
  obtain ⟨p, hlayout, hp⟩ := hwhole
  obtain ⟨im', hrun, hdone⟩ := remove_done hlive howned.wf hlayout (Whole.can_remove hlayout hp)
  have hlarge : node.size.toNat ≤ NDIRECT * BLOCK_SIZE ↔ blocks_for node.size.toNat ≤ 100 := by
    unfold blocks_for
    simp
    omega
  rw [hlarge]
  constructor
  · rintro ⟨es', hrun', hremoves⟩
    rw [hrun] at hrun'
    cases hrun'
    by_contra hmore
    -- the first entry of the indirect block
    have hreach : 101 < pointers_for (blocks_for node.size.toNat) := by
      unfold pointers_for
      rw [if_neg hmore]
      omega
    have hne : pointers es.im.bm node 101 ≠ 0 := hlayout.front.ne_zero (by omega)
    have huse := hlayout.held.in_use 101 hne
    have hstays : im'.bm.InUse (pointers es.im.bm node 101) := by
      refine (hdone.in_use _).mpr ⟨huse, ?_⟩
      intro j hj heq
      have h101 := hlayout.held.injective j 101 (heq ▸ hne) heq
      rw [removed, Finset.mem_range] at hj
      omega
    exact ((hremoves.in_use _).mp hstays).2 ((mem_file_blocks hk).mpr ⟨101, hreach, rfl⟩)
  · intro hsmall
    have hremoved : removed node.size.toNat = Finset.range (pointers_for (blocks_for node.size.toNat)) := by
      unfold removed pointers_for
      rw [if_pos hsmall, Nat.min_eq_left (by omega)]
    refine ⟨{ es with im := im' }, hrun, ?_, ?_, ?_, ?_⟩
    · have hdead := hdone.inodes (inum_of id)
      rwa [if_pos rfl] at hdead
    · intro blk
      have hin_use := hdone.in_use blk
      rw [hremoved] at hin_use
      rw [mem_file_blocks hk]
      refine hin_use.trans (and_congr_right fun _ => ?_)
      simp only [Finset.mem_range, not_exists, not_and]
    · intro blk hblk
      obtain ⟨j, hj, rfl⟩ := (mem_file_blocks hk).mp hblk
      exact hdone.zeroed j (by rw [hremoved, Finset.mem_range]; exact hj)
    · have hfree := hdone.free
      rw [hremoved, Finset.card_range, ← file_block_count_eq] at hfree
      exact hfree

/-- In every state that a new server reaches without a failed allocation, a `remove`
    gives back all blocks of a nonempty file exactly when they are direct ones. -/
theorem remove_releases_all_iff {garbage : UInt32} {env : Env}
    (hnew : ExtentServer.new garbage env = .ok start) (hrun : FittingRun start history es)
    (hfail : es.im.bm.failed_allocs = 0) (hlive : es.im.get_inode (inum_of id) = some node)
    (hsize : 1 ≤ node.size.toNat) :
    (∃ es', es.remove id = .ok (.OK, es') ∧ RemovesFile es id node es') ↔
      node.size.toNat ≤ NDIRECT * BLOCK_SIZE :=
  removesFile_iff_of_whole (ShortRun.owned (fresh_new hnew).1.owned hrun.short) hlive
    (FittingRun.all_whole (fresh_new hnew).1 hrun hfail _ _ hlive) hsize

theorem remove_releases_all_iff_root :
    ∃ start es node, ExtentServer.new 0 still = .ok start ∧ start.put 1 [104, 105] = .ok (.OK, es) ∧
      es.im.get_inode (inum_of 1) = some node ∧
      ((∃ es', es.remove 1 = .ok (.OK, es') ∧ RemovesFile es 1 node es') ↔
        node.size.toNat ≤ NDIRECT * BLOCK_SIZE) := by
  obtain ⟨start, hnew⟩ := new_zero still
  obtain ⟨es, node, hput, hlive, hsize, hfail, _⟩ :=
    put_root (fresh_new hnew).1 [104, 105] (by simp)
  have hstep : start.step (.put 1 [104, 105]) = .ok (.put .OK, es) := by
    rw [step, hput]
    rfl
  have hrun : FittingRun start [(.put 1 [104, 105], .put .OK)] es :=
    .cons .nil (fits_iff.mpr (by simp)) hstep
  exact ⟨start, es, node, hnew, hput, hlive,
    remove_releases_all_iff hnew hrun hfail hlive (by rw [hsize]; decide)⟩

/-- A file of one byte more than the direct blocks hold leaves a block behind. -/
theorem remove_keeps_indirect_entry :
    ∃ start es node, ExtentServer.new 0 still = .ok start ∧
      start.put 1 (List.replicate 51201 0) = .ok (.OK, es) ∧ es.im.bm.failed_allocs = 0 ∧
      es.im.get_inode (inum_of 1) = some node ∧ node.size.toNat = 51201 ∧
      ¬ ∃ es', es.remove 1 = .ok (.OK, es') ∧ RemovesFile es 1 node es' := by
  obtain ⟨start, hnew⟩ := new_zero still
  have hlength : (List.replicate 51201 (0 : UInt8)).length = 51201 := List.length_replicate
  obtain ⟨es, node, hput, hlive, hsize, hfail, hwhole, howned⟩ :=
    put_root (fresh_new hnew).1 (List.replicate 51201 0) (by rw [hlength]; omega)
  rw [hlength] at hsize
  refine ⟨start, es, node, hnew, hput, hfail, hlive, hsize, ?_⟩
  intro hremoves
  have hsmall := (removesFile_iff_of_whole howned hlive hwhole (by omega)).mp hremoves
  rw [hsize] at hsmall
  exact absurd hsmall (by simp)

end ExtentServer

end chfs
