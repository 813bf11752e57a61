import Chfs.Extent.Refinement

namespace chfs

open BlockManager InodeManager

/-- What is not in use holds no data: the free blocks of the data region and the
    blocks of the inodes that are not live. -/
structure FreeBlocksZero (im : InodeManager) : Prop where
  blocks : ∀ id : blockid_t, (IBLOCK (UInt32.ofNat INODE_NUM)).toNat < id.toNat → id.toNat < BLOCK_NUM →
    im.bm.using_blocks id ≠ some 1 → im.bm.data id = Mem.zero
  inodes : ∀ inum : UInt32, inum.toNat ≤ INODE_NUM → im.get_inode inum = none →
    im.bm.data (IBLOCK inum) = Mem.zero

/-- The type survives being stored in a `short`: a type of 0 marks a free inode. -/
def ExtentOp.Typed : ExtentOp → Prop
  | .create type => type.toUInt16.toInt16 ≠ 0
  | _ => True

theorem FreeBlocksZero.fresh {im : InodeManager} (h : Fresh im) : FreeBlocksZero im where
  blocks := by
    intro id hlo hhi _
    have hdata : DataBlock id := ⟨hlo, hhi⟩
    exact h.blank id (hdata.ne_IBLOCK (by decide))
  inodes := by
    intro inum hinum hdead
    apply h.blank
    intro heq
    obtain ⟨root, hroot, _⟩ := h.root
    have hone := IBLOCK_inj hinum (by decide) heq
    rw [hone, hroot] at hdead
    cases hdead

namespace ExtentServer

variable {es es' : ExtentServer} {op : ExtentOp} {reply : ExtentReply}

/-- A `put` clears the blocks it gives back and writes to blocks in use only. -/
theorem freeBlocksZero_put {im im' : InodeManager} {inum : UInt32} {node node' : Inode} {buf : Mem} {n p : Nat}
    (howned : Owned im) (hzero : FreeBlocksZero im) (hlive : im.get_inode inum = some node)
    (hdone : WriteDone buf n im inum node p im' node') : FreeBlocksZero im' where
  blocks := by
    intro id hlo hhi hfree
    have hdata : DataBlock id := ⟨hlo, hhi⟩
    have hfree : ¬ im'.bm.InUse id := hfree
    have hnew : ∀ j, pointers im'.bm node' j ≠ id := by
      intro j heq
      exact hfree ((hdone.written.in_use id).mpr (.inr ⟨j, heq, hdata.ne_zero⟩))
    by_cases huse : im.bm.InUse id
    · -- it was given back, so it was cleared
      have hheld : ∃ j, pointers im.bm node j = id := by
        by_contra hnone
        exact hfree ((hdone.written.in_use id).mpr (.inl ⟨huse, fun j heq => hnone ⟨j, heq⟩⟩))
      obtain ⟨j, rfl⟩ := hheld
      have hj : pointers im.bm node j ≠ 0 := hdata.ne_zero
      have hgone : pointers im'.bm node' j = 0 := by
        by_contra hne
        have hreach := (hdone.written.front j).mp hne
        exact hnew j (hdone.written.kept j (by omega) hj)
      exact hdone.written.zeroed j hj hgone
    · have hold : ∀ j, pointers im.bm node j ≠ id := by
        rintro j rfl
        exact huse (howned.in_use hlive hdata.ne_zero)
      rw [hdone.written.frame id hdata hold hnew]
      exact hzero.blocks id hlo hhi huse
  inodes := by
    intro other hother hdead
    have hne : other ≠ inum := by
      rintro rfl
      rw [hdone.live] at hdead
      cases hdead
    rw [hdone.others other hne] at hdead
    rw [hdone.frame _ fun heq => hne (IBLOCK_inj hother (live_le hlive) heq)]
    · exact hzero.inodes other hother hdead
    · intro j hj
      exact (howned.wf.data_block _ (howned.in_use hlive hj)).ne_IBLOCK hother
    · intro j hj
      exact (hdone.written.wf.data_block _ (hdone.written.held.in_use j hj)).ne_IBLOCK hother
    · intro heq
      exact absurd heq (IBLOCK_ne_zero hother)

/-- A `remove` clears the blocks it gives back and the block of the inode. -/
theorem freeBlocksZero_remove {im im' : InodeManager} {inum : UInt32} {node : Inode} (howned : Owned im)
    (hzero : FreeBlocksZero im) (hlive : im.get_inode inum = some node) (hdone : RemoveDone im inum node im') :
    FreeBlocksZero im' where
  blocks := by
    intro id hlo hhi hfree
    have hdata : DataBlock id := ⟨hlo, hhi⟩
    have hfree : ¬ im'.bm.InUse id := hfree
    by_cases hremoved : ∃ j ∈ removed node.size.toNat, pointers im.bm node j = id
    · obtain ⟨j, hj, rfl⟩ := hremoved
      exact hdone.zeroed j hj
    · have hnone : ∀ j ∈ removed node.size.toNat, pointers im.bm node j ≠ id :=
        fun j hj heq => hremoved ⟨j, hj, heq⟩
      have huse : ¬ im.bm.InUse id := fun huse => hfree ((hdone.in_use id).mpr ⟨huse, hnone⟩)
      rw [hdone.untouched id (hdata.ne_IBLOCK (live_le hlive)) hnone]
      exact hzero.blocks id hlo hhi huse
  inodes := by
    intro other hother hdead
    by_cases heq : other = inum
    · rw [heq]
      exact hdone.cleared
    · rw [hdone.inodes, if_neg heq] at hdead
      rw [hdone.untouched _ fun h => heq (IBLOCK_inj hother (live_le hlive) h)]
      · exact hzero.inodes other hother hdead
      · intro j hj
        exact (howned.wf.data_block _ (howned.in_use hlive (hdone.named j hj))).ne_IBLOCK hother

theorem freeBlocksZero_get {im im' : InodeManager} {inum : UInt32} (hzero : FreeBlocksZero im)
    (h : Accessed im inum im') : FreeBlocksZero im' where
  blocks := by
    intro id hlo hhi hfree
    have hdata : DataBlock id := ⟨hlo, hhi⟩
    rw [h.frame id (hdata.ne_IBLOCK h.inum_le)]
    exact hzero.blocks id hlo hhi fun huse => hfree ((h.in_use id).mpr huse)
  inodes := by
    intro other hother hdead
    rw [h.dead_iff] at hdead
    rw [h.frame]
    · exact hzero.inodes other hother hdead
    · intro heq
      obtain ⟨node, _, hlive, _⟩ := h.inode
      rw [IBLOCK_inj hother h.inum_le heq, hlive] at hdead
      cases hdead

theorem freeBlocksZero_create {im im' : InodeManager} {type inum : UInt32} (hzero : FreeBlocksZero im)
    (htyped : type.toUInt16.toInt16 ≠ 0) (h : Created im type inum im') : FreeBlocksZero im' where
  blocks := by
    intro id hlo hhi hfree
    have hdata : DataBlock id := ⟨hlo, hhi⟩
    rw [h.data id hdata]
    exact hzero.blocks id hlo hhi fun huse => hfree ((h.in_use id).mpr huse)
  inodes := by
    intro other hother hdead
    have hne : other ≠ inum := by
      rintro rfl
      obtain ⟨node, hstored, htype, _⟩ := h.stored
      rw [hstored, htype, if_neg htyped] at hdead
      cases hdead
    rw [h.others other hne] at hdead
    rw [h.frame _ fun heq => hne (IBLOCK_inj hother h.bounds.2 heq)]
    exact hzero.inodes other hother hdead

/-- Each request keeps what is not in use clear. -/
theorem freeBlocksZero_step (howned : Owned es.im) (hzero : FreeBlocksZero es.im) (hshort : op.Short)
    (htyped : op.Typed) (hstep : es.step op = .ok (reply, es')) : FreeBlocksZero es'.im := by
  cases step_done howned hshort hstep with
  | created hcreated => exact freeBlocksZero_create hzero htyped hcreated
  | put hlive _ _ hdone => exact freeBlocksZero_put howned hzero hlive hdone
  | get hlive _ _ _ =>
    obtain ⟨⟨ret, buf, es₁⟩, hget, hret⟩ := Except.bind_eq_ok_iff.mp hstep
    cases hret
    exact freeBlocksZero_get hzero (get_accessed hlive hget).1
  | remove hlive _ _ hdone => exact freeBlocksZero_remove howned hzero hlive hdone
  | _ => exact ⟨hzero.blocks, hzero.inodes⟩

/-- In every state a new server reaches, the blocks that are not in use hold no data. -/
theorem free_blocks_hold_no_data {garbage : UInt32} {env : Env} {start : ExtentServer}
    {history : List (ExtentOp × ExtentReply)} (hnew : ExtentServer.new garbage env = .ok start)
    (hrun : Trace step (fun _ op => op.Fits ∧ op.Typed) start history es) : FreeBlocksZero es.im := by
  have hfresh := (fresh_new hnew).1
  have hboth := hrun.invariant (P := fun es => Owned es.im ∧ FreeBlocksZero es.im)
    ⟨hfresh.owned, FreeBlocksZero.fresh hfresh⟩ (by
      rintro s input output s' ⟨howned, hzero⟩ ⟨hfits, htyped⟩ hstep
      exact ⟨(step_done howned hfits.short hstep).owned howned hfits.short,
        freeBlocksZero_step howned hzero hfits.short htyped hstep⟩)
  exact hboth.2

/-- The block of a file that has been removed is free again and holds no data. -/
theorem free_blocks_hold_no_data_remove :
    ∃ start es₁ es₂ es₃ reply reply', ExtentServer.new 0 still = .ok start ∧
      start.step (.create FileType.T_FILE.code) = .ok (.create .OK 2, es₁) ∧
      es₁.step (.put 2 [104, 105]) = .ok (reply, es₂) ∧ es₂.step (.remove 2) = .ok (reply', es₃) ∧
      FreeBlocksZero es₃.im := by
  obtain ⟨start, hnew⟩ := new_zero still
  have hfresh := (fresh_new hnew).1
  obtain ⟨es₁, es₂, reply, hstep₁, hstep₂, hwritten, hfail, _⟩ := write_first hfresh (show Fits [104, 105] by decide)
  have hremove : (ExtentOp.remove 2).Ordinary := show (2 : UInt64).toNat < 2 ^ 31 by decide
  obtain ⟨reply', es₃, hstep₃⟩ := step_returns (OrdinaryRun.represents hfresh hwritten hfail) hremove
  have htyped : (ExtentOp.create FileType.T_FILE.code).Typed := FileType.T_FILE.stored_code.2
  have hrun : Trace step (fun _ op => op.Fits ∧ op.Typed) start [(.remove 2, reply'), (.put 2 [104, 105], reply),
      (.create FileType.T_FILE.code, .create .OK 2)] es₃ :=
    .cons (.cons (.cons .nil ⟨trivial, htyped⟩ hstep₁) ⟨show Fits [104, 105] by decide, trivial⟩ hstep₂)
      ⟨trivial, trivial⟩ hstep₃
  exact ⟨start, es₁, es₂, es₃, reply, reply', hnew, hstep₁, hstep₂, hstep₃, free_blocks_hold_no_data hnew hrun⟩

/-- Surroundings in which the clock stands at 1. -/
def one_o_clock : Env := { clock := fun _ => 1, heap := fun _ => Mem.zero }

/-- An inode created with type 0 is not live, but its times are in its block. -/
theorem typeless_inode_holds_data :
    ∃ start es, ExtentServer.new 0 one_o_clock = .ok start ∧
      start.step (.create 0) = .ok (.create .OK 2, es) ∧ ¬ FreeBlocksZero es.im := by
  obtain ⟨start, hnew⟩ := new_zero one_o_clock
  obtain ⟨im, him, hstart⟩ := Except.bind_eq_ok_iff.mp hnew
  have hfresh := InodeManager.fresh_new him
  have henv : im.env = one_o_clock := InodeManager.env_new him
  obtain ⟨root, hroot, _⟩ := hfresh.root
  have hsecond : to_alloc im.last_alloced 2 = 2 := by
    rw [hfresh.last_alloced]
    decide
  have hdead : im.get_inode (to_alloc im.last_alloced 2) = none := by
    rw [hsecond]
    exact hfresh.others 2 (by decide)
  have hbefore : ∀ j, 1 ≤ j → j < 2 → im.get_inode (to_alloc im.last_alloced j) ≠ none := by
    intro j hlo hhi
    have hj : j = 1 := by omega
    have hfirst : to_alloc im.last_alloced 1 = 1 := by
      rw [hfresh.last_alloced]
      decide
    rw [hj, hfirst, hroot]
    simp
  obtain ⟨stored, env, halloc, _, hatime, htype, _⟩ := alloc_inode_eq 0 (by omega) (by omega) hdead hbefore
  rw [hsecond] at halloc
  rw [henv] at hatime
  cases hstart
  refine ⟨_, (ExtentServer.create { im, longest_put := 0 } 0).2.2, hnew, ?_, ?_⟩
  · rw [step, create, halloc]
    rfl
  · intro hzero
    have hbound : (2 : UInt32).toNat ≤ 1024 := by decide
    have hload := load_put_inode { im with env } hbound stored
    have hdead := get_inode_put_inode { im with env } hbound stored
    rw [if_pos (htype.trans (by decide))] at hdead
    have hblock := hzero.inodes 2 hbound (by rw [create, halloc]; exact hdead)
    rw [create, halloc] at hblock
    change ((InodeManager.put_inode { im with env } 2 stored).bm.data (IBLOCK 2)) = Mem.zero at hblock
    rw [hblock] at hload
    rw [← hload] at hatime
    exact absurd hatime (by decide)

end ExtentServer

end chfs
