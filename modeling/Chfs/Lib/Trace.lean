import Mathlib

/-- A fallible computation in two parts succeeds when both parts do. -/
theorem Except.bind_eq_ok_iff {ε α β : Type} {x : Except ε α} {f : α → Except ε β} {b : β} :
    (x >>= f) = .ok b ↔ ∃ a, x = .ok a ∧ f a = .ok b := by
  cases x <;> simp [Bind.bind, Except.bind]

/-- It fails when the first part does, or the second part after it. -/
theorem Except.bind_eq_error_iff {ε α β : Type} {x : Except ε α} {f : α → Except ε β} {e : ε} :
    (x >>= f) = .error e ↔ x = .error e ∨ ∃ a, x = .ok a ∧ f a = .error e := by
  cases x <;> simp [Bind.bind, Except.bind]

/-- It succeeds if the first part does, and then the second. -/
theorem Except.bind_returns {ε α β : Type} {x : Except ε α} {f : α → Except ε β} (hx : ∃ a, x = .ok a)
    (hf : ∀ a, ∃ b, f a = .ok b) : ∃ b, x >>= f = .ok b := by
  obtain ⟨a, rfl⟩ := hx
  exact hf a

@[simp] theorem Except.ok_bind {ε α β : Type} (a : α) (f : α → Except ε β) :
    ((Except.ok a : Except ε α) >>= f) = f a := rfl

@[simp] theorem Except.error_bind {ε α β : Type} (e : ε) (f : α → Except ε β) :
    ((Except.error e : Except ε α) >>= f) = .error e := rfl

variable {σ ι ο ε : Type}

/-- The runs of a machine that answers one input at a time and may fail. The
    history lists each input with its answer, the latest first; `allowed`
    says which inputs the environment may offer in a state. -/
inductive Trace (step : σ → ι → Except ε (ο × σ)) (allowed : σ → ι → Prop) (start : σ) :
    List (ι × ο) → σ → Prop where
  | nil : Trace step allowed start [] start
  | cons {history : List (ι × ο)} {s s' : σ} {input : ι} {output : ο}
      (earlier : Trace step allowed start history s) (hallowed : allowed s input)
      (hstep : step s input = .ok (output, s')) :
      Trace step allowed start ((input, output) :: history) s'

namespace Trace

variable {step : σ → ι → Except ε (ο × σ)} {allowed : σ → ι → Prop} {start : σ}

/-- A property of histories and states that holds initially and survives each
    allowed step holds along every run. -/
theorem history_invariant {P : List (ι × ο) → σ → Prop} (hstart : P [] start)
    (hpreserved : ∀ history s input output s', P history s → allowed s input →
      step s input = .ok (output, s') → P ((input, output) :: history) s')
    {history : List (ι × ο)} {s : σ} (htrace : Trace step allowed start history s) :
    P history s := by
  induction htrace with
  | nil => exact hstart
  | cons _ hallowed hstep ih => exact hpreserved _ _ _ _ _ ih hallowed hstep

/-- The same rule for properties of the state alone. -/
theorem invariant {P : σ → Prop} (hstart : P start)
    (hpreserved : ∀ s input output s', P s → allowed s input →
      step s input = .ok (output, s') → P s')
    {history : List (ι × ο)} {s : σ} (htrace : Trace step allowed start history s) : P s :=
  htrace.history_invariant (P := fun _ s => P s) hstart
    (fun _ s input output s' => hpreserved s input output s')

/-- Runs compose. -/
theorem append {middle last : σ} {first second : List (ι × ο)}
    (hfirst : Trace step allowed start first middle)
    (hsecond : Trace step allowed middle second last) :
    Trace step allowed start (second ++ first) last := by
  induction hsecond with
  | nil => exact hfirst
  | cons _ hallowed hstep ih => exact .cons ih hallowed hstep

/-- A run under one environment is a run under any more permissive one. -/
theorem weaken {allowed' : σ → ι → Prop} (himp : ∀ s input, allowed s input → allowed' s input)
    {history : List (ι × ο)} {s : σ} (htrace : Trace step allowed start history s) :
    Trace step allowed' start history s := by
  induction htrace with
  | nil => exact .nil
  | cons _ hallowed hstep ih => exact .cons ih (himp _ _ hallowed) hstep

/-- `P` holds in `s` and in every state the machine passes on its way through the
    inputs, as far as it gets. -/
def Along (step : σ → ι → Except ε (ο × σ)) (P : σ → Prop) (s : σ) : List ι → Prop
  | [] => P s
  | input :: inputs => P s ∧ ∀ output s', step s input = .ok (output, s') → Along step P s' inputs

/-- Each of the inputs is good in the state in which the machine takes it. -/
def Each (step : σ → ι → Except ε (ο × σ)) (good : σ → ι → Prop) (s : σ) : List ι → Prop
  | [] => True
  | input :: inputs => good s input ∧ ∀ output s', step s input = .ok (output, s') → Each step good s' inputs

/-- If good inputs keep an invariant that implies `P`, and any other input leads to a
    state without `P`, then `P` holds along a run exactly when all its inputs are good. -/
theorem along_iff_each {Inv P : σ → Prop} {good : σ → ι → Prop} {typed : ι → Prop}
    (hinv : ∀ s, Inv s → P s)
    (hgood : ∀ s input output s', Inv s → typed input → good s input → step s input = .ok (output, s') → Inv s')
    (hbad : ∀ s input, Inv s → typed input → ¬ good s input → ∃ output s', step s input = .ok (output, s') ∧ ¬ P s')
    (inputs : List ι) :
    ∀ s, Inv s → (∀ input ∈ inputs, typed input) → (Along step P s inputs ↔ Each step good s inputs) := by
  induction inputs with
  | nil =>
    intro s hs _
    exact ⟨fun _ => trivial, fun _ => hinv s hs⟩
  | cons input inputs ih =>
    intro s hs htyped
    have hinput := htyped input List.mem_cons_self
    have hrest : ∀ other ∈ inputs, typed other := fun other hmem => htyped other (List.mem_cons_of_mem _ hmem)
    constructor
    · rintro ⟨_, halong⟩
      have hok : good s input := by
        by_contra hnot
        obtain ⟨output, s', hstep, hfails⟩ := hbad s input hs hinput hnot
        have hnext := halong output s' hstep
        cases inputs with
        | nil => exact hfails hnext
        | cons _ _ => exact hfails hnext.1
      refine ⟨hok, fun output s' hstep => ?_⟩
      exact (ih s' (hgood s input output s' hs hinput hok hstep) hrest).mp (halong output s' hstep)
    · rintro ⟨hok, heach⟩
      refine ⟨hinv s hs, fun output s' hstep => ?_⟩
      exact (ih s' (hgood s input output s' hs hinput hok hstep) hrest).mpr (heach output s' hstep)

/-- A run to `last` takes the input in the state `s` and goes on from there. -/
def Takes (step : σ → ι → Except ε (ο × σ)) (allowed : σ → ι → Prop) (start : σ) (history : List (ι × ο)) (last : σ)
    (s : σ) (input : ι) : Prop :=
  ∃ earlier output s' later, Trace step allowed start earlier s ∧ allowed s input ∧ step s input = .ok (output, s') ∧
    Trace step allowed s' later last ∧ history = later ++ (input, output) :: earlier

/-- If each step adds to a set what is found in it, a run adds what is found in its steps. -/
theorem collects {α : Type} {Inv : σ → Prop} {X : σ → Set α} {Y : σ → ι → Set α}
    (hinv : ∀ s input output s', Inv s → allowed s input → step s input = .ok (output, s') → Inv s')
    (hstep : ∀ s input output s', Inv s → allowed s input → step s input = .ok (output, s') → X s' = X s ∪ Y s input)
    (hstart : Inv start) {history : List (ι × ο)} {last : σ} (htrace : Trace step allowed start history last) (x : α) :
    x ∈ X last ↔ x ∈ X start ∨ ∃ s input, Takes step allowed start history last s input ∧ x ∈ Y s input := by
  -- what has been added once stays
  have hgrows : ∀ {s s' : σ} {later : List (ι × ο)}, Trace step allowed s later s' → Inv s → x ∈ X s → x ∈ X s' := by
    intro s s' later hlater hs hx
    have hboth := hlater.invariant (P := fun s => Inv s ∧ x ∈ X s) ⟨hs, hx⟩ (by
      rintro s input output s' ⟨hs, hx⟩ hallowed hrun
      refine ⟨hinv s input output s' hs hallowed hrun, ?_⟩
      rw [hstep s input output s' hs hallowed hrun]
      exact .inl hx)
    exact hboth.2
  constructor
  · induction htrace with
    | nil => exact .inl
    | @cons history s s' input output hearlier hallowed hrun ih =>
      intro hx
      rw [hstep s input output s' (hearlier.invariant hstart hinv) hallowed hrun] at hx
      rcases hx with hx | hx
      · rcases ih hx with hold | ⟨t, other, ⟨earlier, answer, t', later, hbefore, hok, htaken, hafter, rfl⟩, hfound⟩
        · exact .inl hold
        · refine .inr ⟨t, other, ⟨earlier, answer, t', (input, output) :: later, hbefore, hok, htaken, ?_, rfl⟩, hfound⟩
          exact .cons hafter hallowed hrun
      · exact .inr ⟨s, input, ⟨history, output, s', [], hearlier, hallowed, hrun, .nil, rfl⟩, hx⟩
  · rintro (hold | ⟨s, input, ⟨earlier, output, s', later, hbefore, hallowed, hrun, hafter, _⟩, hfound⟩)
    · exact hgrows htrace hstart hold
    · have hs := hbefore.invariant hstart hinv
      apply hgrows hafter (hinv s input output s' hs hallowed hrun)
      rw [hstep s input output s' hs hallowed hrun]
      exact .inr hfound

end Trace

/-- The runs of a machine given by a relation: an input may have several answers and
    lead to several states. -/
inductive Runs {τ : Type} (step : τ → ι → ο → τ → Prop) (start : τ) : List (ι × ο) → τ → Prop where
  | nil : Runs step start [] start
  | cons {history : List (ι × ο)} {t t' : τ} {input : ι} {output : ο} (earlier : Runs step start history t)
      (hstep : step t input output t') : Runs step start ((input, output) :: history) t'

namespace Runs

variable {τ : Type} {step : τ → ι → ο → τ → Prop} {start : τ}

theorem history_invariant {P : List (ι × ο) → τ → Prop} (hstart : P [] start)
    (hpreserved : ∀ history t input output t', P history t → step t input output t' → P ((input, output) :: history) t')
    {history : List (ι × ο)} {t : τ} (hrun : Runs step start history t) : P history t := by
  induction hrun with
  | nil => exact hstart
  | cons _ hstep ih => exact hpreserved _ _ _ _ _ ih hstep

theorem invariant {P : τ → Prop} (hstart : P start)
    (hpreserved : ∀ t input output t', P t → step t input output t' → P t')
    {history : List (ι × ο)} {t : τ} (hrun : Runs step start history t) : P t :=
  hrun.history_invariant (P := fun _ t => P t) hstart (fun _ t input output t' => hpreserved t input output t')

end Runs

/-- If each good step of a machine is matched by one of another machine, then so is each
    run to a good state, provided that only good states lead there. -/
theorem Trace.simulates {τ : Type} {step : σ → ι → Except ε (ο × σ)} {allowed : σ → ι → Prop} {start : σ}
    {step' : τ → ι → ο → τ → Prop} {start' : τ} (R : σ → τ → Prop) (good : σ → Prop) (hstart : R start start')
    (hstep : ∀ s t input output s', R s t → allowed s input → step s input = .ok (output, s') → good s' →
      ∃ t', step' t input output t' ∧ R s' t')
    (hgood : ∀ history s input output s', Trace step allowed start history s → step s input = .ok (output, s') →
      good s' → good s)
    {history : List (ι × ο)} {s : σ} (htrace : Trace step allowed start history s) (hlast : good s) :
    ∃ t, Runs step' start' history t ∧ R s t := by
  induction htrace with
  | nil => exact ⟨start', .nil, hstart⟩
  | @cons history s s' input output hearlier hallowed hrun ih =>
    obtain ⟨t, hruns, hrel⟩ := ih (hgood history s input output s' hearlier hrun hlast)
    obtain ⟨t', hstep', hrel'⟩ := hstep s t input output s' hrel hallowed hrun hlast
    exact ⟨t', .cons hruns hstep', hrel'⟩
