import Chfs.Extent.Aborts
import Chfs.Extent.Refinement

namespace chfs

open BlockManager InodeManager

/-- Every live inode has every block its size asks for. -/
def AllWhole (im : InodeManager) : Prop :=
  ∀ inum node, im.get_inode inum = some node → Whole im.bm node

theorem AllWhole.fresh {im : InodeManager} (h : Fresh im) : AllWhole im := by
  intro inum node hlive
  obtain ⟨p, hlayout⟩ := h.owned.layout inum node hlive
  obtain ⟨root, hroot, _, hsize, _⟩ := h.root
  have hone : inum = 1 := by
    by_contra hne
    rw [h.others inum hne] at hlive
    cases hlive
  rw [hone, hroot] at hlive
  cases hlive
  refine ⟨p, hlayout, ?_⟩
  simp [hsize, blocks_for, pointers_for]

/-- A step that spares the other inodes leaves them whole. -/
theorem AllWhole.of_spares {im im' : InodeManager} {inum : UInt32} (h : AllWhole im) (hspares : Spares im im' inum)
    (hnode : ∀ node, im'.get_inode inum = some node → Whole im'.bm node) : AllWhole im' := by
  intro other node hlive
  by_cases heq : other = inum
  · subst heq
    exact hnode node hlive
  · rw [hspares.inodes other heq] at hlive
    obtain ⟨p, hlayout, hp⟩ := h other node hlive
    exact ⟨p, hspares.layout heq hlive hlayout, hp⟩

theorem AllWhole.of_unchanged {im im' : InodeManager} (h : AllWhole im) (howned : Owned im)
    (hunchanged : Unchanged im im') : AllWhole im' := by
  intro inum node' hlive'
  obtain ⟨node, hlive, _, hsize, hblocks⟩ := hunchanged.live hlive'
  obtain ⟨p, hlayout, hp⟩ := h inum node hlive
  exact ⟨p, hunchanged.layout howned hlive hblocks.symm hsize.symm hlayout, by rwa [← hsize]⟩

namespace ExtentServer

variable {start es es' : ExtentServer} {op : ExtentOp} {reply : ExtentReply}
  {history : List (ExtentOp × ExtentReply)}

/-- A buffer to be put fits into a file, and there are enough blocks for it. -/
def HasRoom (es : ExtentServer) : ExtentOp → Prop
  | .put id buf => ∀ node, es.im.get_inode (inum_of id) = some node →
    Fits buf ∧ pointers_for (blocks_for buf.length) ≤ held_count es.im.bm node + es.im.bm.free_count
  | _ => True

/-- There is room for a buffer that fits if no allocation fails. -/
theorem StepDone.has_room (h : StepDone es op reply es') (hfits : op.Fits)
    (hfail : es'.im.bm.failed_allocs = es.im.bm.failed_allocs) : es.HasRoom op := by
  cases h with
  | put_dead hdead =>
    intro node hlive
    rw [hdead] at hlive
    cases hlive
  | @put id buf node node' p im' hlive hlayout _ hdone =>
    intro file hfile
    rw [hlive] at hfile
    cases hfile
    have hfits := fits_iff.mp hfits
    have hfailed := hdone.written.failed
    have hfail : im'.bm.failed_allocs = es.im.bm.failed_allocs := hfail
    refine ⟨fits_iff.mpr hfits, ?_⟩
    rw [held_count_eq hlayout.front]
    unfold target pointers_for blocks_for at *
    split at hfailed <;> split <;> omega
  | _ => trivial

/-- With enough room, a request leaves every file whole. -/
theorem StepDone.all_whole (h : StepDone es op reply es') (howned : Owned es.im) (hwhole : AllWhole es.im)
    (hroom : es.HasRoom op) : AllWhole es'.im := by
  cases h with
  | created hcreated =>
    refine hwhole.of_spares (hcreated.spares howned) ?_
    intro node hlive
    obtain ⟨stored, hstored, _, hsize, _⟩ := hcreated.stored
    rw [hlive] at hstored
    split at hstored
    · cases hstored
    cases hstored
    refine ⟨0, (hcreated.layout hlive).1, ?_⟩
    rw [hsize]
    decide
  | not_created _ => exact hwhole
  | put_dead _ => exact hwhole.of_unchanged howned (unchanged_env _ _)
  | @put id buf node node' p im' hlive hlayout _ hdone =>
    refine hwhole.of_spares (hdone.spares howned hlive) ?_
    intro file hfile
    rw [hdone.live] at hfile
    cases hfile
    obtain ⟨hfits, hroom⟩ := hroom node hlive
    rw [held_count_eq hlayout.front] at hroom
    exact (hdone.whole (fits_iff.mp hfits) ((Nat.min_le_right _ _).trans hroom)).1
  | get _ _ _ hunchanged => exact hwhole.of_unchanged howned hunchanged
  | remove hlive _ _ hdone =>
    refine hwhole.of_spares (hdone.spares howned hlive) ?_
    intro node hnode
    rw [hdone.inodes, if_pos rfl] at hnode
    cases hnode
  | _ => exact hwhole

/-- In a run in which no allocation of a block fails, every file is whole. -/
theorem FittingRun.all_whole (hstart : Fresh start.im) (hrun : FittingRun start history es) :
    es.im.bm.failed_allocs = 0 → AllWhole es.im := by
  have hboth := hrun.invariant
    (P := fun es => Owned es.im ∧ (es.im.bm.failed_allocs = 0 → AllWhole es.im))
    ⟨hstart.owned, fun _ => AllWhole.fresh hstart⟩ (by
      rintro s input output s' ⟨howned, hwhole⟩ hfits hstep
      have hdone := step_done howned hfits.short hstep
      refine ⟨hdone.owned howned hfits.short, ?_⟩
      intro hfail
      have hle := hdone.failed_le
      exact hdone.all_whole howned (hwhole (by omega)) (hdone.has_room hfits (by omega)))
  exact hboth.2

/-- On a new server any buffer that fits into a file can be put into the root. -/
theorem put_root (hstart : Fresh start.im) (buf : List UInt8) (hfits : buf.length ≤ 116736) :
    ∃ es node, start.put 1 buf = .ok (.OK, es) ∧ es.im.get_inode (inum_of 1) = some node ∧
      node.size.toNat = buf.length ∧ es.im.bm.failed_allocs = 0 ∧ Whole es.im.bm node ∧ Owned es.im := by
  obtain ⟨root, hroot, _, hsize, _⟩ := hstart.root
  have hroot : start.im.get_inode (inum_of 1) = some root := hroot
  obtain ⟨p, hlayout⟩ := hstart.owned.layout _ root hroot
  have hpre : pre_block_num root = 1 := by rw [pre_block_num, if_pos hsize]
  obtain ⟨im', node', hrun, hdone, _⟩ := put_done buf hroot hstart.wf hlayout (by omega) (.inl (by omega))
  have hfree := hstart.free_count
  have htarget := Nat.min_le_left 229 (pointers_for (blocks_for buf.length))
  have hroom : target buf.length ≤ p + start.im.bm.free_count := by
    unfold target
    omega
  have hfailed := hdone.written.failed
  rw [hstart.failed_blocks] at hfailed
  refine ⟨{ im := im', longest_put := max start.longest_put buf.length }, node', hrun, hdone.live,
    hdone.size_toNat (by omega), ?_, (hdone.whole hfits hroom).1, hdone.owned hstart.owned hroot (by omega)⟩
  change im'.bm.failed_allocs = 0
  omega

end ExtentServer

end chfs
