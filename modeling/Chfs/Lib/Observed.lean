import Mathlib

/-- What is seen of the runs of a machine whose steps show an event or nothing. The latest
    event comes first. -/
inductive Observed {σ ε : Type*} (step : σ → Option ε → σ → Prop) (start : σ) : List ε → σ → Prop where
  | nil : Observed step start [] start
  | silent {events : List ε} {s s' : σ} (earlier : Observed step start events s) (hstep : step s none s') :
    Observed step start events s'
  | seen {events : List ε} {s s' : σ} {event : ε} (earlier : Observed step start events s)
      (hstep : step s (some event) s') :
    Observed step start (event :: events) s'

namespace Observed

variable {σ τ ε : Type*} {step : σ → Option ε → σ → Prop} {step' : τ → Option ε → τ → Prop} {start s : σ} {start' : τ}
  {events : List ε}

/-- What holds at the start and survives every step holds in every state reached. -/
theorem invariant {P : σ → Prop} (hstart : P start) (hpreserved : ∀ s event s', P s → step s event s' → P s')
    (hrun : Observed step start events s) : P s := by
  induction hrun with
  | nil => exact hstart
  | silent _ hstep ih => exact hpreserved _ _ _ ih hstep
  | seen _ hstep ih => exact hpreserved _ _ _ ih hstep

/-- If another machine can follow each step, showing the same or standing still where
    nothing is shown, then it can show whatever this one shows. -/
theorem simulates {R : σ → τ → Prop} (hstart : R start start')
    (hfollow : ∀ s t event s', R s t → step s event s' → (event = none ∧ R s' t) ∨ ∃ t', step' t event t' ∧ R s' t')
    (hrun : Observed step start events s) : ∃ t, Observed step' start' events t ∧ R s t := by
  induction hrun with
  | nil => exact ⟨start', .nil, hstart⟩
  | silent _ hstep ih =>
    obtain ⟨t, hrun', hrel⟩ := ih
    rcases hfollow _ _ _ _ hrel hstep with ⟨_, hrel'⟩ | ⟨t', hstep', hrel'⟩
    · exact ⟨t, hrun', hrel'⟩
    · exact ⟨t', .silent hrun' hstep', hrel'⟩
  | seen _ hstep ih =>
    obtain ⟨t, hrun', hrel⟩ := ih
    rcases hfollow _ _ _ _ hrel hstep with ⟨hnone, _⟩ | ⟨t', hstep', hrel'⟩
    · cases hnone
    · exact ⟨t', .seen hrun' hstep', hrel'⟩

end Observed
