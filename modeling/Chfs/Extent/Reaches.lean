import Chfs.Extent.Known

namespace chfs

open BlockManager InodeManager

namespace ExtentServer

variable {es es' es'' : ExtentServer} {id : extentid_t} {buf : List UInt8} {ret : Status} {op : ExtentOp}
  {reply : ExtentReply}

/-- The second server comes from the first by requests with the types of the protocol. -/
def Reaches (es es' : ExtentServer) : Prop :=
  ∃ history, Trace step (fun _ op => op.OfProtocol) es history es'

theorem Reaches.refl (es : ExtentServer) : es.Reaches es := ⟨[], .nil⟩

theorem Reaches.trans (h : es.Reaches es') (h' : es'.Reaches es'') : es.Reaches es'' := by
  obtain ⟨first, hfirst⟩ := h
  obtain ⟨second, hsecond⟩ := h'
  exact ⟨second ++ first, hfirst.append hsecond⟩

theorem Reaches.of_step (htyped : op.OfProtocol) (h : es.step op = .ok (reply, es')) : es.Reaches es' :=
  ⟨_, .cons .nil htyped h⟩

theorem Reaches.of_create (es : ExtentServer) (type : FileType) : es.Reaches (es.create type.code).2.2 :=
  have htyped : (ExtentOp.create type.code).OfProtocol := ⟨type, rfl⟩
  .of_step htyped rfl

theorem Reaches.of_get (h : es.get id = .ok (ret, buf, es')) : es.Reaches es' := by
  have hstep : es.step (.get id) = .ok (.get ret buf, es') := by
    rw [step, h]
    rfl
  exact .of_step (by trivial) hstep

theorem Reaches.of_put (h : es.put id buf = .ok (ret, es')) : es.Reaches es' := by
  have hstep : es.step (.put id buf) = .ok (.put ret, es') := by
    rw [step, h]
    rfl
  exact .of_step (by trivial) hstep

theorem Reaches.of_remove (h : es.remove id = .ok (ret, es')) : es.Reaches es' := by
  have hstep : es.step (.remove id) = .ok (.remove ret, es') := by
    rw [step, h]
    rfl
  exact .of_step (by trivial) hstep

/-- The length of each buffer put is remembered. -/
theorem longest_of_step (h : es.step op = .ok (reply, es')) :
    es.longest_put ≤ es'.longest_put ∧ ∀ id buf, op = .put id buf → buf.length ≤ es'.longest_put := by
  cases op with
  | create type =>
    cases h
    exact ⟨le_refl _, fun _ _ hop => by cases hop⟩
  | put id buf =>
    obtain ⟨⟨ret, es₁⟩, hput, hret⟩ := Except.bind_eq_ok_iff.mp h
    cases hret
    obtain ⟨im', _, hret⟩ := Except.bind_eq_ok_iff.mp hput
    cases hret
    refine ⟨le_max_left _ _, ?_⟩
    intro id' buf' hop
    cases hop
    exact le_max_right _ _
  | get id =>
    obtain ⟨⟨ret, buf, es₁⟩, hget, hret⟩ := Except.bind_eq_ok_iff.mp h
    cases hret
    obtain ⟨⟨out, im'⟩, _, hret⟩ := Except.bind_eq_ok_iff.mp hget
    refine ⟨?_, fun _ _ hop => by cases hop⟩
    cases out with
    | none =>
      cases hret
      exact le_refl _
    | some out =>
      cases hret
      exact le_refl _
  | getattr id =>
    cases h
    exact ⟨le_refl _, fun _ _ hop => by cases hop⟩
  | remove id =>
    obtain ⟨⟨ret, es₁⟩, hremove, hret⟩ := Except.bind_eq_ok_iff.mp h
    cases hret
    obtain ⟨im', _, hret⟩ := Except.bind_eq_ok_iff.mp hremove
    cases hret
    exact ⟨le_refl _, fun _ _ hop => by cases hop⟩

/-- Nothing that has gone wrong is forgotten. -/
theorem StepDone.tally_le (h : StepDone es op reply es') : es.tally ≤ es'.tally := by
  cases h with
  | created hcreated =>
    simp only [tally, hcreated.failed_blocks, hcreated.failed_inodes]
    exact le_refl _
  | not_created _ => simp [tally]
  | put_dead _ => simp [tally]
  | put _ _ _ hdone =>
    simp only [tally, Prod.mk_le_mk, hdone.failed_allocs, hdone.written.failed]
    exact ⟨Nat.le_add_right _ _, le_refl _, le_max_left _ _⟩
  | get _ _ _ hunchanged =>
    simp only [tally, hunchanged.failed_blocks, hunchanged.failed_inodes]
    exact le_refl _
  | remove _ _ _ hdone =>
    simp only [tally, hdone.failed_blocks, hdone.failed_inodes]
    exact le_refl _
  | _ => exact le_refl _

/-- If no buffer has been too long for an `int` in the end, none was on the way. -/
theorem Reaches.run (h : es.Reaches es') (hlong : es'.longest_put < 2 ^ 31) :
    ∃ history, Trace step (fun _ op => op.OfProtocol ∧ op.Short) es history es' := by
  obtain ⟨history, htrace⟩ := h
  refine ⟨history, ?_⟩
  induction htrace with
  | nil => exact .nil
  | @cons history s s' op reply _ htyped hstep ih =>
    obtain ⟨hle, hput⟩ := longest_of_step hstep
    refine .cons (ih (by omega)) ⟨htyped, ?_⟩ hstep
    cases op with
    | put id buf =>
      have := hput id buf rfl
      change buf.length < 2 ^ 31
      omega
    | _ => trivial

theorem Reaches.longest_le (h : es.Reaches es') : es.longest_put ≤ es'.longest_put := by
  obtain ⟨history, htrace⟩ := h
  refine htrace.invariant (P := fun s => es.longest_put ≤ s.longest_put) (le_refl _) ?_
  intro s op reply s' hle _ hstep
  exact hle.trans (longest_of_step hstep).1

theorem Reaches.owned (h : es.Reaches es') (howned : Owned es.im) (hlong : es'.longest_put < 2 ^ 31) :
    Owned es'.im := by
  obtain ⟨history, htrace⟩ := h.run hlong
  exact ShortRun.owned howned (htrace.weaken fun _ _ hop => hop.2)

theorem Reaches.tally_le (h : es.Reaches es') (howned : Owned es.im) (hlong : es'.longest_put < 2 ^ 31) :
    es.tally ≤ es'.tally := by
  obtain ⟨history, htrace⟩ := h.run hlong
  have hboth := htrace.invariant (P := fun s => Owned s.im ∧ es.tally ≤ s.tally) ⟨howned, le_refl _⟩ (by
    rintro s op reply s' ⟨howned, hle⟩ ⟨_, hshort⟩ hstep
    have hdone := step_done howned hshort hstep
    exact ⟨hdone.owned howned hshort, hle.trans hdone.tally_le⟩)
  exact hboth.2

theorem Clean.longest_lt (h : es.Clean) : es.longest_put < 2 ^ 31 := by
  obtain ⟨_, _, hlongest⟩ := clean_iff.mp h
  simp only [MAXFILE, NDIRECT_eq, NINDIRECT_eq, BLOCK_SIZE_eq] at hlongest
  omega

/-- If all has gone well in the end, it had on the way. -/
theorem Reaches.clean (h : es.Reaches es') (howned : Owned es.im) (hclean : es'.Clean) : es.Clean :=
  hclean.mono (h.tally_le howned hclean.longest_lt)

/-- A server that has come so far without failures stands for some files. -/
theorem Reaches.represents (h : es.Reaches es') {files : Files} (hrep : Represents es.im files) (hclean : es'.Clean) :
    ∃ files', Represents es'.im files' := by
  obtain ⟨history, htrace⟩ := h
  induction htrace with
  | nil => exact ⟨files, hrep⟩
  | @cons history s s' op reply hearlier htyped hstep ih =>
    have hlong : es.Reaches s := ⟨history, hearlier⟩
    obtain ⟨hle, hput⟩ := longest_of_step hstep
    have hlast : s.Reaches s' := .of_step htyped hstep
    have hshort := hclean.longest_lt
    have howned := hlong.owned hrep.owned (by omega)
    have hbefore := hlast.clean howned hclean
    obtain ⟨files', hrep'⟩ := ih hbefore
    have hfits : op.Fits := by
      cases op with
      | put id buf => exact (hput id buf rfl).trans (clean_iff.mp hclean).2.2
      | _ => trivial
    have hdone := step_done hrep'.owned hfits.short hstep
    have hfail : s'.im.bm.failed_allocs = s.im.bm.failed_allocs :=
      (clean_iff.mp hclean).1.trans (clean_iff.mp hbefore).1.symm
    exact ⟨_, hdone.represents htyped hfits hrep' hfail⟩

end ExtentServer

end chfs
