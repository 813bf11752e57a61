import Chfs.Lib.Monitor

/-! Objects whose calls take effect at one moment between the call and its return, and the
    monitors that behave like one. -/

/-- How far a thread is with its call. -/
inductive Phase (ι ρ : Type*) where
  | idle
  | pending (input : ι)
  | done (result : ρ)

namespace Linearizable

structure State (τ ι ρ σ : Type*) where
  shared : σ
  phase : τ → Phase ι ρ

variable {τ ι ν σ κ ρ σ' : Type*} [DecidableEq τ]

/-- Nobody has called yet. -/
def State.initial (shared : σ) : State τ ι ρ σ := { shared, phase := fun _ => .idle }

/-- A thread calls, its call takes effect as the specification says, and it returns. -/
inductive Step (spec : ι → σ → ρ → σ → Prop) (s : State τ ι ρ σ) :
    Option (Monitor.Event τ ι ρ) → State τ ι ρ σ → Prop where
  | call {t : τ} {input : ι} (hphase : s.phase t = .idle) :
    Step spec s (some (.call t input)) { s with phase := Function.update s.phase t (.pending input) }
  | act {t : τ} {input : ι} {result : ρ} {shared : σ} (hphase : s.phase t = .pending input)
      (hspec : spec input s.shared result shared) :
    Step spec s none { shared, phase := Function.update s.phase t (.done result) }
  | return {t : τ} {result : ρ} (hphase : s.phase t = .done result) :
    Step spec s (some (.return t result)) { s with phase := Function.update s.phase t .idle }

section Runs

variable {spec : ι → σ → ρ → σ → Prop} {s s' : State τ ι ρ σ} {shared : σ} {event : Option (Monitor.Event τ ι ρ)}
  {events : List (Monitor.Event τ ι ρ)} {good : σ → Prop}

/-- What every effect keeps holds throughout. -/
theorem run_keeps
    (hkeeps : ∀ input shared result shared', good shared → spec input shared result shared' → good shared')
    (hgood : good shared) (hrun : Observed (Step spec) (.initial shared) events s) : good s.shared := by
  refine hrun.invariant (P := fun s => good s.shared) hgood ?_
  intro s event s' h hstep
  cases hstep with
  | act _ hspec => exact hkeeps _ _ _ _ h hspec
  | _ => exact h

end Runs

end Linearizable

namespace Monitor

open Linearizable

variable {τ ι ν σ κ ρ σ' : Type*} [DecidableEq τ]

/-- How far a thread is, told by the point of the code that it is at. -/
def Place.phase (view : κ → Phase ι ρ) : Place ν κ → Phase ι ρ
  | .outside => .idle
  | .entering point => view point
  | .inside point => view point
  | .waiting _ point => view point
  | .woken _ point => view point

/-- Where the code changes what the shared state stands for, it does what the specification
    of the call says; the result is settled there, and nothing else settles it. -/
structure Implements (program : Program ι ν σ κ ρ) (stands : σ → σ' → Prop) (spec : ι → σ' → ρ → σ' → Prop)
    (view : κ → Phase ι ρ) : Prop where
  start : ∀ input, view (program.start input) = .pending input
  go : ∀ shared point shared' next a, stands shared a → program.act shared point = .go shared' next →
    (stands shared' a ∧ view next = view point) ∨
      ∃ input result a', view point = .pending input ∧ view next = .done result ∧ spec input a result a' ∧
        stands shared' a'
  signal : ∀ shared point v next, program.act shared point = .signal v next → view next = view point
  wait : ∀ shared point v next, program.act shared point = .wait v next → view next = view point
  leave : ∀ shared point result, program.act shared point = .leave result → view point = .done result

variable {program : Program ι ν σ κ ρ} {stands : σ → σ' → Prop} {spec : ι → σ' → ρ → σ' → Prop} {view : κ → Phase ι ρ}
  {s s' : State τ ν σ κ} {event : Option (Event τ ι ρ)} {events : List (Event τ ι ρ)} {shared : σ} {a : σ'}

theorem phase_update (view : κ → Phase ι ρ) (place : τ → Place ν κ) (t : τ) (new : Place ν κ) :
    (fun other => (Function.update place t new other).phase view) =
      Function.update (fun other => (place other).phase view) t (new.phase view) := by
  funext other
  by_cases heq : other = t
  · simp [heq]
  · simp [heq]

/-- A thread that gets on without a change of its phase changes nobody's. -/
theorem phase_update_same {place : τ → Place ν κ} {t : τ} {new : Place ν κ}
    (h : new.phase view = (place t).phase view) :
    (fun other => (Function.update place t new other).phase view) = fun other => (place other).phase view := by
  rw [phase_update, h]
  exact Function.update_eq_self t _

theorem phase_wake (view : κ → Phase ι ρ) (place : τ → Place ν κ) (threads : Finset τ) :
    (fun other => (wake place threads other).phase view) = fun other => (place other).phase view := by
  funext other
  unfold wake
  cases place other with
  | waiting v point => by_cases hmem : other ∈ threads <;> simp [hmem, Place.phase]
  | _ => rfl

/-- What the specification's object is like where the monitor is in `s`. -/
def Stands (stands : σ → σ' → Prop) (view : κ → Phase ι ρ) (s : State τ ν σ κ)
    (o : Linearizable.State τ ι ρ σ') : Prop :=
  stands s.shared o.shared ∧ o.phase = fun t => (s.place t).phase view

theorem Stands.step {o : Linearizable.State τ ι ρ σ'} (h : Stands stands view s o)
    (himplements : Implements program stands spec view) (hstep : Step program s event s') :
    (event = none ∧ Stands stands view s' o) ∨ ∃ o', Linearizable.Step spec o event o' ∧ Stands stands view s' o' := by
  obtain ⟨hshared, hphase⟩ := h
  have hat (t : τ) : o.phase t = (s.place t).phase view := congrFun hphase t
  cases hstep with
  | @call t input hplace =>
    right
    have hidle : o.phase t = .idle := by
      rw [hat, hplace]
      rfl
    refine ⟨_, .call hidle, hshared, ?_⟩
    dsimp only
    rw [phase_update, ← hphase, Place.phase, himplements.start]
  | lock hplace _ =>
    left
    refine ⟨rfl, hshared, hphase.trans (phase_update_same ?_).symm⟩
    rw [hplace]
    rfl
  | relock hplace _ =>
    left
    refine ⟨rfl, hshared, hphase.trans (phase_update_same ?_).symm⟩
    rw [hplace]
    rfl
  | @go t point next shared' hplace hact =>
    rcases himplements.go _ _ _ _ _ hshared hact with ⟨hshared', hsame⟩ |
      ⟨input, result, a', hpending, hdone, hspec, hshared'⟩
    · left
      refine ⟨rfl, hshared', hphase.trans (phase_update_same ?_).symm⟩
      rw [hplace]
      exact hsame
    · right
      have hcalled : o.phase t = .pending input := by
        rw [hat, hplace]
        exact hpending
      refine ⟨_, .act hcalled hspec, hshared', ?_⟩
      dsimp only
      rw [phase_update, ← hphase, Place.phase, hdone]
  | signal hplace hact _ _ =>
    left
    refine ⟨rfl, hshared, hphase.trans ?_⟩
    dsimp only
    rw [phase_update_same, phase_wake]
    rw [wake_inside.mpr hplace]
    exact himplements.signal _ _ _ _ hact
  | wait hplace hact =>
    left
    refine ⟨rfl, hshared, hphase.trans (phase_update_same ?_).symm⟩
    rw [hplace]
    exact himplements.wait _ _ _ _ hact
  | spurious hplace =>
    left
    refine ⟨rfl, hshared, hphase.trans (phase_update_same ?_).symm⟩
    rw [hplace]
    rfl
  | @leave t point result hplace hact =>
    right
    refine ⟨_, .return (t := t) ?_, hshared, ?_⟩
    · rw [hat, hplace]
      exact himplements.leave _ _ _ hact
    · dsimp only
      rw [phase_update, ← hphase, Place.phase]

/-- The calls of a monitor that implements a specification take effect at once. -/
theorem run_linearizes (himplements : Implements program stands spec view) (hstands : stands shared a)
    (hrun : Observed (Step program) (.initial shared) events s) :
    ∃ o, Observed (Linearizable.Step spec) (.initial a) events o ∧ stands s.shared o.shared ∧
      o.phase = fun t => (s.place t).phase view :=
  hrun.simulates (R := Stands stands view) ⟨hstands, rfl⟩ fun _ _ _ _ h hstep => h.step himplements hstep

end Monitor
