import Chfs.Lib.Observed

/-! Objects whose calls run under one mutex and may wait on condition variables. Waiting
    gives the mutex up, a signal wakes one of those who wait or more, and threads may also be
    woken for no reason. -/

namespace Monitor

/-- What a thread does next at some point of the code while it holds the mutex. -/
inductive Act (ν σ κ ρ : Type*) where
  | go (shared : σ) (next : κ)
  | signal (v : ν) (next : κ)
  | wait (v : ν) (next : κ)
  | leave (result : ρ)

/-- The code of an object: where each call starts, and what is done at each point. -/
structure Program (ι ν σ κ ρ : Type*) where
  start : ι → κ
  act : σ → κ → Act ν σ κ ρ

/-- Where a thread is. -/
inductive Place (ν κ : Type*) where
  | outside
  | entering (point : κ)
  | inside (point : κ)
  | waiting (v : ν) (point : κ)
  | woken (v : ν) (point : κ)

/-- The call of a thread, or its return. -/
inductive Event (τ ι ρ : Type*) where
  | call (t : τ) (input : ι)
  | return (t : τ) (result : ρ)

structure State (τ ν σ κ : Type*) where
  shared : σ
  owner : Option τ
  place : τ → Place ν κ

variable {τ ι ν σ κ ρ : Type*} [DecidableEq τ]

/-- Those of the threads that wait are woken. -/
def wake (place : τ → Place ν κ) (threads : Finset τ) (t : τ) : Place ν κ :=
  match place t with
  | .waiting v point => if t ∈ threads then .woken v point else .waiting v point
  | other => other

/-- Nobody uses the object yet. -/
def State.initial (shared : σ) : State τ ν σ κ := { shared, owner := none, place := fun _ => .outside }

/-- A step of some thread. -/
inductive Step (program : Program ι ν σ κ ρ) (s : State τ ν σ κ) : Option (Event τ ι ρ) → State τ ν σ κ → Prop where
  | call {t : τ} {input : ι} (hplace : s.place t = .outside) :
    Step program s (some (.call t input))
      { s with place := Function.update s.place t (.entering (program.start input)) }
  | lock {t : τ} {point : κ} (hplace : s.place t = .entering point) (hfree : s.owner = none) :
    Step program s none { s with owner := some t, place := Function.update s.place t (.inside point) }
  | relock {t : τ} {v : ν} {point : κ} (hplace : s.place t = .woken v point) (hfree : s.owner = none) :
    Step program s none { s with owner := some t, place := Function.update s.place t (.inside point) }
  | go {t : τ} {point next : κ} {shared : σ} (hplace : s.place t = .inside point)
      (hact : program.act s.shared point = .go shared next) :
    Step program s none { s with shared, place := Function.update s.place t (.inside next) }
  | signal {t : τ} {point next : κ} {v : ν} {threads : Finset τ} (hplace : s.place t = .inside point)
      (hact : program.act s.shared point = .signal v next)
      (hwaiting : ∀ other ∈ threads, ∃ point, s.place other = .waiting v point)
      (hsome : (∃ other point, s.place other = .waiting v point) → threads.Nonempty) :
    Step program s none { s with place := Function.update (wake s.place threads) t (.inside next) }
  | wait {t : τ} {point next : κ} {v : ν} (hplace : s.place t = .inside point)
      (hact : program.act s.shared point = .wait v next) :
    Step program s none { s with owner := none, place := Function.update s.place t (.waiting v next) }
  | spurious {t : τ} {v : ν} {point : κ} (hplace : s.place t = .waiting v point) :
    Step program s none { s with place := Function.update s.place t (.woken v point) }
  | leave {t : τ} {point : κ} {result : ρ} (hplace : s.place t = .inside point)
      (hact : program.act s.shared point = .leave result) :
    Step program s (some (.return t result)) { s with owner := none, place := Function.update s.place t .outside }

/-- The mutex is held by the one thread that is inside. -/
def Exclusive (s : State τ ν σ κ) : Prop := ∀ t, s.owner = some t ↔ ∃ point, s.place t = .inside point

variable {program : Program ι ν σ κ ρ} {s s' : State τ ν σ κ} {event : Option (Event τ ι ρ)} {shared : σ}
  {events : List (Event τ ι ρ)}

theorem wake_inside {place : τ → Place ν κ} {threads : Finset τ} {t : τ} {point : κ} :
    wake place threads t = .inside point ↔ place t = .inside point := by
  unfold wake
  cases place t with
  | waiting v p => by_cases hmem : t ∈ threads <;> simp [hmem]
  | _ => simp

theorem wake_place {place : τ → Place ν κ} {threads : Finset τ} {t : τ} {v : ν} {point : κ}
    (h : wake place threads t = .waiting v point ∨ wake place threads t = .woken v point) :
    place t = .waiting v point ∨ place t = .woken v point := by
  unfold wake at h
  cases hplace : place t with
  | waiting w p =>
    rw [hplace] at h
    by_cases hmem : t ∈ threads <;> simp_all
  | _ => simp_all

/-- Nobody waits who did not before. -/
theorem wake_waiting {place : τ → Place ν κ} {threads : Finset τ} {t : τ} {v : ν} {point : κ}
    (h : wake place threads t = .waiting v point) : place t = .waiting v point := by
  unfold wake at h
  cases hplace : place t with
  | waiting w p =>
    rw [hplace] at h
    by_cases hmem : t ∈ threads <;> simp_all
  | _ => simp_all

theorem update_inside {place : τ → Place ν κ} {t : τ} {new : Place ν κ}
    (hnew : (∃ point, new = .inside point) ↔ ∃ point, place t = .inside point) (other : τ) :
    (∃ point, Function.update place t new other = .inside point) ↔ ∃ point, place other = .inside point := by
  by_cases heq : other = t
  · rw [heq, Function.update_self, hnew]
  · rw [Function.update_of_ne heq]

omit [DecidableEq τ] in
theorem exclusive_initial (shared : σ) : Exclusive (State.initial shared : State τ ν σ κ) := by
  intro t
  simp [State.initial]

omit [DecidableEq τ] in
theorem Exclusive.owner (h : Exclusive s) {t : τ} {point : κ} (hplace : s.place t = .inside point) : s.owner = some t :=
  (h t).mpr ⟨point, hplace⟩

/-- A step of a thread that is inside neither before nor after it, -/
theorem Exclusive.outside (h : Exclusive s) {t : τ} {new : Place ν κ} (hold : ∀ point, s.place t ≠ .inside point)
    (hnew : ∀ point, new ≠ .inside point) : Exclusive { s with place := Function.update s.place t new } := by
  intro other
  have hboth : (∃ point, new = .inside point) ↔ ∃ point, s.place t = .inside point := by simp [hold, hnew]
  rw [update_inside hboth]
  exact h other

/-- of one that gets the mutex, -/
theorem Exclusive.acquire (h : Exclusive s) {t : τ} {point : κ} (hfree : s.owner = none) :
    Exclusive { s with owner := some t, place := Function.update s.place t (.inside point) } := by
  intro other
  have hother := h other
  rw [hfree] at hother
  by_cases heq : other = t
  · simp [heq]
  · simp only [Function.update_of_ne heq, ← hother, Option.some_inj, reduceCtorEq, iff_false]
    exact Ne.symm heq

/-- and of one that gives it up. -/
theorem Exclusive.release (h : Exclusive s) {t : τ} {point : κ} {new : Place ν κ} (hplace : s.place t = .inside point)
    (hnew : ∀ point, new ≠ .inside point) :
    Exclusive { s with owner := none, place := Function.update s.place t new } := by
  intro other
  have hother := h other
  rw [h.owner hplace] at hother
  by_cases heq : other = t
  · simp [heq, hnew]
  · simp only [Function.update_of_ne heq, ← hother, Option.some_inj, reduceCtorEq, false_iff]
    exact Ne.symm heq

theorem Exclusive.step (h : Exclusive s) (hstep : Step program s event s') : Exclusive s' := by
  cases hstep with
  | call hplace => exact h.outside (by simp [hplace]) (by simp)
  | lock _ hfree => exact h.acquire hfree
  | relock _ hfree => exact h.acquire hfree
  | go hplace _ =>
    intro other
    rw [update_inside (by simp [hplace])]
    exact h other
  | signal hplace _ _ _ =>
    intro other
    rw [update_inside (by simp [wake_inside.mpr hplace])]
    simp only [wake_inside]
    exact h other
  | wait hplace _ => exact h.release hplace (by simp)
  | spurious hplace => exact h.outside (by simp [hplace]) (by simp)
  | leave hplace _ => exact h.release hplace (by simp)

theorem run_exclusive (hrun : Observed (Step program) (.initial shared) events s) : Exclusive s :=
  hrun.invariant (exclusive_initial shared) fun _ _ _ h hstep => h.step hstep

/-- The code keeps a property of the shared state. -/
def Keeps (program : Program ι ν σ κ ρ) (good : σ → Prop) : Prop :=
  ∀ shared point shared' next, good shared → program.act shared point = .go shared' next → good shared'

theorem good_step {good : σ → Prop} (hkeeps : Keeps program good) (hgood : good s.shared)
    (hstep : Step program s event s') :
    good s'.shared := by
  cases hstep with
  | go _ hact => exact hkeeps _ _ _ _ hgood hact
  | _ => exact hgood

theorem run_keeps {good : σ → Prop} (hkeeps : Keeps program good) (hgood : good shared)
    (hrun : Observed (Step program) (.initial shared) events s) : good s.shared :=
  hrun.invariant (P := fun s => good s.shared) hgood fun _ _ _ h hstep => good_step hkeeps h hstep

/-- Whoever waits has come there by the code. -/
theorem run_waited {good : σ → Prop} (hkeeps : Keeps program good) (hgood : good shared)
    (hrun : Observed (Step program) (.initial shared) events s) {t : τ} {v : ν} {point : κ}
    (hplace : s.place t = .waiting v point) :
    ∃ shared' before, good shared' ∧ program.act shared' before = .wait v point := by
  have hall := hrun.invariant (P := fun s => good s.shared ∧
    ∀ t v point, s.place t = .waiting v point → ∃ shared' before, good shared' ∧
      program.act shared' before = .wait v point)
    ⟨hgood, fun _ _ _ h => by cases h⟩ ?_
  · exact hall.2 t v point hplace
  · rintro s event s' ⟨hgood, hwaited⟩ hstep
    refine ⟨good_step hkeeps hgood hstep, ?_⟩
    intro t v point h
    cases hstep with
    | @signal t' _ _ _ threads _ _ _ _ =>
      by_cases heq : t = t'
      · simp [heq] at h
      · simp only [Function.update_of_ne heq] at h
        exact hwaited t v point (wake_waiting h)
    | @wait t' before _ _ _ hact =>
      by_cases heq : t = t'
      · simp only [heq, Function.update_self] at h
        cases h
        exact ⟨s.shared, before, hgood, hact⟩
      · simp only [Function.update_of_ne heq] at h
        exact hwaited t v point h
    | @call t' | @lock t' | @relock t' | @go t' | @spurious t' | @leave t' =>
      by_cases heq : t = t'
      · simp [heq] at h
      · simp only [Function.update_of_ne heq] at h
        exact hwaited t v point h

section Wakeups

variable [Fintype τ] [DecidableEq ν] {good : σ → Prop} {v w : ν} {avail : σ → Nat} {owes : κ → Nat}
  {place : τ → Place ν κ} {threads : Finset τ}

/-- What a thread counts for with those who wait on `v`: one that has been woken will look
    again, and one that is inside does what it owes. -/
def Place.weight (v : ν) (owes : κ → Nat) : Place ν κ → Nat
  | .inside point => owes point
  | .woken w _ => if w = v then 1 else 0
  | _ => 0

/-- Somebody waits on `v`. -/
def State.Awaits (s : State τ ν σ κ) (v : ν) : Prop := ∃ t point, s.place t = .waiting v point

/-- The code tells those who wait on `v` of what becomes available: a thread that makes
    something available owes a signal, and one that is about to look owes a look. -/
structure Notifies (program : Program ι ν σ κ ρ) (good : σ → Prop) (v : ν) (avail : σ → Nat)
    (owes : κ → Nat) : Prop where
  go : ∀ shared point shared' next, good shared → program.act shared point = .go shared' next →
    avail shared' = 0 ∨ avail shared' + owes point ≤ avail shared + owes next
  signal : ∀ shared point next, program.act shared point = .signal v next → owes point ≤ owes next + 1
  signal_other : ∀ shared point w next, w ≠ v → program.act shared point = .signal w next → owes point ≤ owes next
  wait : ∀ shared point next, program.act shared point = .wait v next → avail shared = 0 ∧ 1 ≤ owes next
  wait_other : ∀ shared point w next, w ≠ v → program.act shared point = .wait w next → owes point = 0
  leave : ∀ shared point result, program.act shared point = .leave result → owes point = 0

/-- While somebody waits on `v`, there is somebody to see to each thing that is available. -/
structure Served (s : State τ ν σ κ) (v : ν) (avail : σ → Nat) (owes : κ → Nat) : Prop where
  looks : ∀ t point, s.place t = .waiting v point ∨ s.place t = .woken v point → 1 ≤ owes point
  served : s.Awaits v → avail s.shared ≤ ∑ t, (s.place t).weight v owes

theorem sum_update (v : ν) (owes : κ → Nat) (place : τ → Place ν κ) (t : τ) (new : Place ν κ) :
    ∑ other, (Function.update place t new other).weight v owes + (place t).weight v owes =
      ∑ other, (place other).weight v owes + new.weight v owes := by
  have hrest : ∑ other ∈ Finset.univ.erase t, (Function.update place t new other).weight v owes =
      ∑ other ∈ Finset.univ.erase t, (place other).weight v owes := by
    refine Finset.sum_congr rfl ?_
    intro other hother
    rw [Function.update_of_ne (Finset.ne_of_mem_erase hother)]
  rw [← Finset.add_sum_erase _ _ (Finset.mem_univ t),
    ← Finset.add_sum_erase _ (fun other => (place other).weight v owes)
    (Finset.mem_univ t), hrest, Function.update_self]
  omega

omit [DecidableEq τ] in
theorem served_initial (shared : σ) : Served (State.initial shared : State τ ν σ κ) v avail owes where
  looks := by
    rintro t point (h | h) <;> cases h
  served := by
    rintro ⟨t, point, h⟩
    cases h

/-- What the step of one thread must keep. -/
theorem Served.update (h : Served s v avail owes) {t : τ} {new : Place ν κ} {shared' : σ} {owner : Option τ}
    (hlooks : ∀ point, new = .waiting v point ∨ new = .woken v point → 1 ≤ owes point)
    (hcount : avail shared' = 0 ∨
      ((∀ point, new ≠ .waiting v point) ∧
        avail shared' + (s.place t).weight v owes ≤ avail s.shared + new.weight v owes)) :
    Served { shared := shared', owner, place := Function.update s.place t new } v avail owes where
  looks := by
    intro other point hother
    by_cases heq : other = t
    · simp only [heq, Function.update_self] at hother
      exact hlooks point hother
    · simp only [Function.update_of_ne heq] at hother
      exact h.looks other point hother
  served := by
    rintro ⟨other, point, hother⟩
    rcases hcount with hzero | ⟨hnew, hle⟩
    · exact hzero.le.trans (Nat.zero_le _)
    · have hne : other ≠ t := by
        rintro rfl
        simp only [Function.update_self] at hother
        exact hnew point hother
      simp only [Function.update_of_ne hne] at hother
      have hserved := h.served ⟨other, point, hother⟩
      have hsum := sum_update v owes s.place t new
      dsimp only
      omega

omit [Fintype τ] in
theorem weight_wake (h : ∀ other ∈ threads, ∃ point, place other = .waiting w point) (t : τ) :
    (wake place threads t).weight v owes = (place t).weight v owes + if w = v ∧ t ∈ threads then 1 else 0 := by
  by_cases hmem : t ∈ threads
  · obtain ⟨point, hplace⟩ := h t hmem
    simp [wake, hplace, hmem, Place.weight]
  · have hsame : wake place threads t = place t := by
      unfold wake
      cases place t <;> simp [hmem]
    simp [hsame, hmem]

/-- A signal adds those it wakes. -/
theorem sum_wake (h : ∀ other ∈ threads, ∃ point, place other = .waiting w point) :
    ∑ t, (wake place threads t).weight v owes = ∑ t, (place t).weight v owes + if w = v then threads.card else 0 := by
  simp only [weight_wake h, Finset.sum_add_distrib]
  by_cases hw : w = v
  · simp [hw]
  · simp [hw]

theorem Served.wake (h : Served s v avail owes)
    (hthreads : ∀ other ∈ threads, ∃ point, s.place other = .waiting w point) :
    Served { s with place := Monitor.wake s.place threads } v avail owes where
  looks := fun t point hplace => h.looks t point (wake_place hplace)
  served := by
    rintro ⟨t, point, hplace⟩
    have hserved := h.served ⟨t, point, wake_waiting hplace⟩
    rw [sum_wake hthreads]
    exact hserved.trans (Nat.le_add_right _ _)

/-- A signal on `v` pays what is owed. -/
theorem Served.signal (h : Served s v avail owes) {t : τ} {point next : κ} (hplace : s.place t = .inside point)
    (howes : owes point ≤ owes next + 1) (hthreads : ∀ other ∈ threads, ∃ point, s.place other = .waiting v point)
    (hsome : s.Awaits v → threads.Nonempty) :
    Served { s with place := Function.update (Monitor.wake s.place threads) t (.inside next) } v avail owes where
  looks := by
    intro other point' hother
    by_cases heq : other = t
    · simp [heq] at hother
    · simp only [Function.update_of_ne heq] at hother
      exact h.looks other point' (wake_place hother)
  served := by
    rintro ⟨other, point', hother⟩
    have hne : other ≠ t := by
      rintro rfl
      simp at hother
    simp only [Function.update_of_ne hne] at hother
    have hawaits : s.Awaits v := ⟨other, point', wake_waiting hother⟩
    have hserved := h.served hawaits
    have hcard := (hsome hawaits).card_pos
    have hsum := sum_update v owes (Monitor.wake s.place threads) t (.inside next)
    have hbefore : (Place.inside point : Place ν κ).weight v owes = owes point := rfl
    have hafter : (Place.inside next : Place ν κ).weight v owes = owes next := rfl
    rw [sum_wake hthreads, if_pos rfl, wake_inside.mpr hplace, hbefore, hafter] at hsum
    dsimp only
    omega

theorem Served.step (h : Served s v avail owes) (hnotifies : Notifies program good v avail owes) (hgood : good s.shared)
    (hstep : Step program s event s') : Served s' v avail owes := by
  cases hstep with
  | call hplace => exact h.update (by simp) (.inr ⟨by simp, by simp [hplace, Place.weight]⟩)
  | lock hplace _ => exact h.update (by simp) (.inr ⟨by simp, by simp [hplace, Place.weight]⟩)
  | @relock t w point hplace _ =>
    refine h.update (by simp) (.inr ⟨by simp, ?_⟩)
    simp only [hplace, Place.weight]
    split
    · next hw =>
      have hlooks := h.looks t point (.inr (hw ▸ hplace))
      omega
    · omega
  | @go t point next shared' hplace hact =>
    refine h.update (by simp) ?_
    rw [hplace]
    exact (hnotifies.go _ _ _ _ hgood hact).imp_right fun hle => ⟨by simp, hle⟩
  | @signal t point next w threads hplace hact hthreads hsome =>
    by_cases hw : w = v
    · subst hw
      exact h.signal hplace (hnotifies.signal _ _ _ hact) hthreads hsome
    · refine (h.wake hthreads).update (by simp) (.inr ⟨by simp, ?_⟩)
      have howes := hnotifies.signal_other _ _ _ _ hw hact
      simp only [wake_inside.mpr hplace, Place.weight]
      omega
  | @wait t point next w hplace hact =>
    by_cases hw : w = v
    · subst hw
      obtain ⟨hzero, howes⟩ := hnotifies.wait _ _ _ hact
      refine h.update ?_ (.inl hzero)
      rintro point' (heq | heq)
      · cases heq
        exact howes
      · cases heq
    · have howes := hnotifies.wait_other _ _ _ _ hw hact
      refine h.update ?_ (.inr ⟨?_, ?_⟩)
      · rintro point' (heq | heq)
        · cases heq
          exact absurd rfl hw
        · cases heq
      · rintro point' heq
        cases heq
        exact hw rfl
      · simp [hplace, Place.weight, howes]
  | @spurious t w point hplace =>
    refine h.update ?_ (.inr ⟨by simp, ?_⟩)
    · rintro point' (heq | heq)
      · cases heq
      · cases heq
        exact h.looks t point (.inl hplace)
    · simp [hplace, Place.weight]
  | leave hplace hact =>
    have howes := hnotifies.leave _ _ _ hact
    exact h.update (by simp) (.inr ⟨by simp, by simp [hplace, Place.weight, howes]⟩)

theorem run_served (hnotifies : Notifies program good v avail owes) (hkeeps : Keeps program good) (hgood : good shared)
    (hrun : Observed (Step program) (.initial shared) events s) : Served s v avail owes := by
  have hboth := hrun.invariant (P := fun s => good s.shared ∧ Served s v avail owes) ⟨hgood, served_initial shared⟩ ?_
  · exact hboth.2
  · rintro s event s' ⟨hgood, hserved⟩ hstep
    exact ⟨good_step hkeeps hgood hstep, hserved.step hnotifies hgood hstep⟩

end Wakeups

end Monitor
