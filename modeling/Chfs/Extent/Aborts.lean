import Chfs.Extent.Fresh
import Chfs.Inodes.Sequential
import Chfs.WriteFile.Errors

namespace chfs

open BlockManager InodeManager

/-- How many blocks an inode names: direct blocks, indirect block and entries. -/
def held_count (bm : BlockManager) (node : Inode) : Nat :=
  ((Finset.range 229).filter (fun j => pointers bm node j ≠ 0)).card

theorem held_count_eq {bm : BlockManager} {node : Inode} {p : Nat} (hfront : Prefix (pointers bm node) p) :
    held_count bm node = p := by
  have hrange : (Finset.range 229).filter (fun j => pointers bm node j ≠ 0) = Finset.range p := by
    ext j
    have hp := prefix_le hfront
    simp only [Finset.mem_filter, Finset.mem_range, hfront j]
    omega
  rw [held_count, hrange, Finset.card_range]

/-- Blocks that `write_file` adds make no difference to what it can free. -/
theorem canShrink_filled {pre n p : Nat} (free : Nat) :
    CanShrink pre (max 1 (blocks_for n)) (filled p (target n) free) ↔
      CanShrink pre (max 1 (blocks_for n)) p := by
  have ht := target_le n
  unfold CanShrink filled
  unfold pointers_for at *
  split at ht <;> split <;> omega

/-- The request does not run into the assertion of `free_block`. A `put` is safe when
    the file had no entries in its indirect block, or does not shrink, or shrinks to
    direct blocks of which not all are there, or has every block its size asks for; a
    `remove` when every direct block the size asks for is there, and the indirect block
    if it asks for one. -/
def ExtentOp.Safe (es : ExtentServer) : ExtentOp → Prop
  | .put id buf =>
    match es.im.get_inode (inum_of id) with
    | none => True
    | some node => CanShrink (pre_block_num node) (max 1 (blocks_for buf.length)) (held_count es.im.bm node)
  | .remove id =>
    match es.im.get_inode (inum_of id) with
    | none => True
    | some node => CanRemove node.size.toNat (held_count es.im.bm node)
  | _ => True

/-- No file is larger than the slots of an inode have room for. -/
def SmallFiles (im : InodeManager) : Prop :=
  ∀ inum node, im.get_inode inum = some node → node.size.toNat ≤ 116736

theorem SmallFiles.pre_block_num_le {im : InodeManager} (h : SmallFiles im) {inum : UInt32} {node : Inode}
    (hlive : im.get_inode inum = some node) : pre_block_num node ≤ 228 := by
  have hsize := h inum node hlive
  rw [pre_block_num_eq]
  unfold blocks_for
  omega

namespace ExtentServer

variable {start es es' : ExtentServer} {op : ExtentOp} {reply : ExtentReply}
  {history : List (ExtentOp × ExtentReply)}

theorem StepDone.small_files (h : StepDone es op reply es') (hfits : op.Fits) (hsmall : SmallFiles es.im) :
    SmallFiles es'.im := by
  cases h with
  | @created type inum im' hcreated =>
    intro other node hlive
    by_cases heq : other = inum
    · subst heq
      obtain ⟨stored, hstored, _, hsize, _⟩ := hcreated.stored
      rw [hstored] at hlive
      split at hlive
      · cases hlive
      · cases hlive
        rw [hsize]
        exact Nat.zero_le _
    · have hother := hcreated.others other heq
      exact hsmall other node (hother.symm.trans hlive)
  | @put id buf node node' p im' hold _ _ hdone =>
    have hlen := fits_iff.mp hfits
    intro other file hlive
    by_cases heq : other = inum_of id
    · subst heq
      have hsame := hdone.live.symm.trans hlive
      cases hsame
      rw [hdone.size_toNat (by omega)]
      exact hlen
    · exact hsmall other file ((hdone.others other heq).symm.trans hlive)
  | get _ _ _ hunchanged =>
    intro other node hlive
    obtain ⟨old, hold, _, hsize, _⟩ := hunchanged.live hlive
    rw [← hsize]
    exact hsmall other old hold
  | remove _ _ _ hdone =>
    intro other node hlive
    have hother := hdone.inodes other
    rw [hother] at hlive
    split at hlive
    · cases hlive
    · exact hsmall other node hlive
  | _ => exact hsmall

theorem FittingRun.small_files (hstart : Fresh start.im) (hrun : FittingRun start history es) :
    SmallFiles es.im := by
  have hboth := hrun.invariant (P := fun es => Owned es.im ∧ SmallFiles es.im)
    ⟨hstart.owned, by
      intro inum node hlive
      obtain ⟨root, hroot, _, hsize, _⟩ := hstart.root
      by_cases hone : inum = 1
      · rw [hone, hroot] at hlive
        cases hlive
        rw [hsize]
        exact Nat.zero_le _
      · rw [hstart.others inum hone] at hlive
        cases hlive⟩ (by
      rintro s input output s' ⟨howned, hsmall⟩ hfits hstep
      have hshort := ExtentOp.Fits.short hfits
      have hdone := step_done howned hshort hstep
      exact ⟨hdone.owned howned hshort, hdone.small_files hfits hsmall⟩)
  exact hboth.2

/-- A request returns exactly when it is safe. -/
theorem returns_iff (howned : Owned es.im) (hsmall : SmallFiles es.im) (hfits : op.Fits) :
    (∃ reply es', es.step op = .ok (reply, es')) ↔ op.Safe es := by
  cases op with
  | create type => exact ⟨fun _ => trivial, fun _ => ⟨_, _, rfl⟩⟩
  | getattr id => exact ⟨fun _ => trivial, fun _ => ⟨_, _, rfl⟩⟩
  | get id =>
    refine ⟨fun _ => trivial, fun _ => ?_⟩
    cases hnode : es.im.get_inode (inum_of id) with
    | none => exact ⟨_, _, by rw [step, get_dead hnode]; rfl⟩
    | some node =>
      obtain ⟨p, hlayout⟩ := howned.layout _ _ hnode
      obtain ⟨im', hrun, _⟩ := get_done hnode howned.wf hlayout (.inl (hsmall.pre_block_num_le hnode))
      exact ⟨_, _, by rw [step, hrun]; rfl⟩
  | put id buf =>
    have hshort : buf.length < 2 ^ 31 := ExtentOp.Fits.short hfits
    cases hnode : es.im.get_inode (inum_of id) with
    | none =>
      simp only [ExtentOp.Safe, hnode, iff_true]
      exact ⟨_, _, by rw [step, put_dead hnode]; rfl⟩
    | some node =>
      obtain ⟨p, hlayout⟩ := howned.layout _ _ hnode
      simp only [ExtentOp.Safe, hnode, held_count_eq hlayout.front]
      rw [← canShrink_filled es.im.bm.free_count]
      constructor
      · rintro ⟨reply, es', hstep⟩
        by_contra hnot
        obtain ⟨fault, hrun⟩ := put_fault buf hnode howned.wf hlayout hshort hnot
        rw [step, hrun, Except.error_bind] at hstep
        cases hstep
      · intro hok
        obtain ⟨im', node', hrun, _⟩ := put_done buf hnode howned.wf hlayout hshort hok
        exact ⟨_, _, by rw [step, hrun]; rfl⟩
  | remove id =>
    cases hnode : es.im.get_inode (inum_of id) with
    | none =>
      simp only [ExtentOp.Safe, hnode, iff_true]
      exact ⟨_, _, by rw [step, remove_dead hnode]; rfl⟩
    | some node =>
      obtain ⟨p, hlayout⟩ := howned.layout _ _ hnode
      simp only [ExtentOp.Safe, hnode, held_count_eq hlayout.front]
      constructor
      · rintro ⟨reply, es', hstep⟩
        by_contra hnot
        obtain ⟨fault, hrun⟩ := remove_fault hnode howned.wf hlayout hnot
        rw [step, hrun, Except.error_bind] at hstep
        cases hstep
      · intro hok
        obtain ⟨im', hrun, _⟩ := remove_done hnode howned.wf hlayout hok
        exact ⟨_, _, by rw [step, hrun]; rfl⟩

/-- A `put` that does not return fails in the assertion. -/
theorem put_error {id : extentid_t} {buf : List UInt8} {node : Inode} {p : Nat} {fault : Fault}
    (hlive : es.im.get_inode (inum_of id) = some node) (hwf : es.im.bm.WF) (hlayout : Layout es.im.bm node p)
    (hsmall : pre_block_num node ≤ 228) (hlen : buf.length < 2 ^ 31) (h : es.put id buf = .error fault) :
    fault = .assertion_failed := by
  unfold put at h
  rw [int_of_size_of_lt hlen] at h
  rcases Except.bind_eq_error_iff.mp h with hwrite | ⟨im', _, h⟩
  · have hlive' : es.im.malloc.2.get_inode (inum_of id) = some node := hlive
    exact write_file_error (n := buf.length) hlive' hwf hlayout hsmall hwrite
  · cases h

/-- The server after a list of requests, when all of them return. -/
def run (es : ExtentServer) : List ExtentOp → Result ExtentServer
  | [] => .ok es
  | op :: ops => do
    let (_, es) ← es.step op
    es.run ops

/-- Each request of the list is safe in the state in which the server receives it. -/
def SafeRun (es : ExtentServer) : List ExtentOp → Prop
  | [] => True
  | op :: ops => op.Safe es ∧ ∀ reply es', es.step op = .ok (reply, es') → SafeRun es' ops

theorem run_append (ops ops' : List ExtentOp) :
    ∀ es : ExtentServer, es.run (ops ++ ops') = (es.run ops >>= fun es => es.run ops') := by
  induction ops with
  | nil =>
    intro es
    rfl
  | cons op ops ih =>
    intro es
    rw [List.cons_append, run, run]
    cases es.step op with
    | error fault => rfl
    | ok result => exact ih result.2

/-- From any state in order, a run returns exactly when each request on its way is safe. -/
theorem run_returns_iff_of_owned (ops : List ExtentOp) :
    ∀ es : ExtentServer, Owned es.im → SmallFiles es.im → (∀ op ∈ ops, op.Fits) →
      ((∃ es', es.run ops = .ok es') ↔ es.SafeRun ops) := by
  induction ops with
  | nil =>
    intro es _ _ _
    exact ⟨fun _ => trivial, fun _ => ⟨es, rfl⟩⟩
  | cons op ops ih =>
    intro es howned hsmall hfits
    have hop := hfits op List.mem_cons_self
    have hrest : ∀ op ∈ ops, op.Fits := fun op hmem => hfits op (List.mem_cons_of_mem _ hmem)
    -- the invariant holds where the rest of the run starts
    have hnext : ∀ reply es', es.step op = .ok (reply, es') →
        ((∃ last, es'.run ops = .ok last) ↔ es'.SafeRun ops) := by
      intro reply es' hstep
      have hdone := step_done howned hop.short hstep
      exact ih es' (hdone.owned howned hop.short) (hdone.small_files hop hsmall) hrest
    rw [SafeRun]
    constructor
    · rintro ⟨last, hrun⟩
      obtain ⟨⟨reply, es'⟩, hstep, hrun⟩ := Except.bind_eq_ok_iff.mp hrun
      refine ⟨(returns_iff howned hsmall hop).mp ⟨reply, es', hstep⟩, ?_⟩
      intro reply' es'' hstep'
      rw [hstep] at hstep'
      cases hstep'
      exact (hnext reply es' hstep).mp ⟨last, hrun⟩
    · rintro ⟨hsafe, hsafe_rest⟩
      obtain ⟨reply, es', hstep⟩ := (returns_iff howned hsmall hop).mpr hsafe
      obtain ⟨last, hrun⟩ := (hnext reply es' hstep).mpr (hsafe_rest reply es' hstep)
      exact ⟨last, by rw [run, hstep]; exact hrun⟩

/-- The requests of a run with their answers. -/
theorem FittingRun.of_run {ops : List ExtentOp} (hfits : ∀ op ∈ ops, op.Fits) {es es' : ExtentServer}
    (hrun : es.run ops = .ok es') : ∃ history, FittingRun es history es' := by
  induction ops generalizing es with
  | nil =>
    cases hrun
    exact ⟨[], .nil⟩
  | cons op ops ih =>
    obtain ⟨⟨reply, next⟩, hstep, hrun⟩ := Except.bind_eq_ok_iff.mp hrun
    obtain ⟨history, htrace⟩ := ih (fun op hmem => hfits op (List.mem_cons_of_mem _ hmem)) hrun
    have hfirst : FittingRun es [(op, reply)] next := .cons .nil (hfits op List.mem_cons_self) hstep
    exact ⟨history ++ [(op, reply)], hfirst.append htrace⟩

end ExtentServer

end chfs
