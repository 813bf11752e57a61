import Chfs.Rpc.Fifo

namespace chfs

namespace Fifo

open Monitor

variable {τ α : Type*} [DecidableEq τ] {f : Fifo α} {max : UInt32} {limit : Int32} {v : Cond}
  {events : List (Event τ (Call α) (Return α))} {s : Monitor.State τ Cond (Fifo α) (Point α)}

/-- What those who wait on a condition variable want: elements, or room for more. -/
def available : Cond → Fifo α → Nat
  | .non_empty_c_, f => f.q_.length
  | .has_space_c_, f => if f.max_ = 0 then 0 else f.max_.toNat - f.q_.length

/-- The thread is about to look for it, or to tell of it. -/
def Point.sees : Cond → Point α → Bool
  | .non_empty_c_, .deq_loop => true
  | .non_empty_c_, .enq_pushed => true
  | .has_space_c_, .enq_loop _ blocking => blocking
  | .has_space_c_, .deq_popped _ => true
  | _, _ => false

/-- The thread will see to those who wait on `v`, or to what they want. -/
def OnItsWay (v : Cond) : Place Cond (Point α) → Prop
  | .inside point => point.sees v
  | .woken w _ => w = v
  | _ => False

instance (v : Cond) : DecidablePred (OnItsWay (α := α) v) := fun place =>
  match place with
  | .inside point => inferInstanceAs (Decidable (point.sees v = true))
  | .woken w _ => inferInstanceAs (Decidable (w = v))
  | .outside => .isFalse id
  | .entering _ => .isFalse id
  | .waiting _ _ => .isFalse id

theorem weight_eq (v : Cond) (place : Place Cond (Point α)) :
    place.weight v (fun point => (point.sees v).toNat) = if OnItsWay v place then 1 else 0 := by
  cases place with
  | inside point => cases hsees : point.sees v <;> simp [Place.weight, OnItsWay, hsees]
  | _ => rfl

theorem available_of_full (h : f.max_ = 0 ∨ f.max_.toNat ≤ f.q_.length) : available .has_space_c_ f = 0 := by
  rcases h with hzero | hfull
  · simp [available, hzero]
  · simp [available, Nat.sub_eq_zero_of_le hfull]

theorem Goes.notifies {f' : Fifo α} {point next : Point α} (h : Goes f point f' next) (v : Cond) :
    available v f' = 0 ∨ available v f' + (point.sees v).toNat ≤ available v f + (next.sees v).toNat := by
  cases v with
  | non_empty_c_ =>
    right
    cases h with
    | push _ => simp [available, Point.sees]
    | pop hq => simp [available, Point.sees, hq]
    | _ => exact Nat.le_refl _
  | has_space_c_ =>
    cases h with
    | @push e blocking hroom =>
      by_cases hzero : f.max_ = 0
      · exact .inl (available_of_full (.inl hzero))
      · right
        have hlt := hroom.resolve_left hzero
        have hblocking := Bool.toNat_le blocking
        simp only [available, Point.sees, hzero, if_false, List.length_append, List.length_singleton, Bool.toNat_false]
        omega
    | refuse _ hfull => exact .inl (available_of_full (.inr hfull))
    | pop hq =>
      right
      simp only [available, Point.sees, hq, List.length_cons, Bool.toNat_false, Bool.toNat_true]
      split
      · omega
      · omega
    | quiet hspace => exact .inl (available_of_full hspace)
    | size => exact .inr (Nat.le_refl _)

/-- Both condition variables are told of all that they stand for. -/
theorem notifies (good : Fifo α → Prop) (v : Cond) :
    Notifies (program : Program _ _ (Fifo α) _ _) good v (available v) fun point => (point.sees v).toNat where
  go := fun _ _ _ _ _ hact => (act_go hact).notifies v
  signal := by
    intro f point next hact
    exact (Bool.toNat_le _).trans (Nat.le_add_left _ _)
  signal_other := by
    intro f point w next hne hact
    cases act_signal hact with
    | pushed => cases v with
      | non_empty_c_ => exact absurd rfl hne
      | has_space_c_ => exact Nat.zero_le _
    | popped => cases v with
      | non_empty_c_ => exact Nat.zero_le _
      | has_space_c_ => exact absurd rfl hne
  wait := by
    intro f point next hact
    obtain ⟨rfl, hwaits⟩ := act_wait hact
    cases hwaits with
    | full _ hfull => exact ⟨available_of_full (.inr hfull), Nat.le_refl _⟩
    | empty hq => exact ⟨by simp [available, hq], Nat.le_refl _⟩
  wait_other := by
    intro f point w next hne hact
    cases (act_wait hact).2 with
    | full _ _ => cases v with
      | non_empty_c_ => rfl
      | has_space_c_ => exact absurd rfl hne
    | empty _ => cases v with
      | non_empty_c_ => exact absurd rfl hne
      | has_space_c_ => rfl
  leave := by
    intro f point result hact
    cases act_leave hact <;> cases v <;> rfl

/-- Only a `fifo` with a limit makes `enq` wait. -/
theorem limited (hrun : Observed (Step program) (.initial (new limit)) events s) (hawaits : s.Awaits .has_space_c_) :
    limit.toUInt32 ≠ 0 := by
  obtain ⟨t, point, hplace⟩ := hawaits
  obtain ⟨f, before, hbounded, hact⟩ :=
    run_waited (keeps_bounded limit.toUInt32) (holds_new limit).bounded hrun hplace
  cases (act_wait hact).2 with
  | full hmax _ =>
    rw [hbounded.1] at hmax
    exact hmax

theorem run_bounded (hrun : Observed (Step program) (.initial (new limit)) events s) :
    Bounded limit.toUInt32 s.shared :=
  run_keeps (keeps_bounded _) (holds_new limit).bounded hrun

section Threads

variable [Fintype τ]

/-- While a thread waits, others see to each element, or each place, that there is. -/
theorem run_attended (hrun : Observed (Step program) (.initial (new limit)) events s) (v : Cond)
    (hawaits : s.Awaits v) :
    available v s.shared ≤ (Finset.univ.filter fun t => OnItsWay v (s.place t)).card := by
  have hserved := run_served (notifies _ v) (keeps_bounded limit.toUInt32) (holds_new limit).bounded hrun
  rw [Finset.card_filter]
  simp only [← weight_eq]
  exact hserved.served hawaits

/-- No wakeup is lost: while a thread waits in `deq`, as many others as there are elements are
    on their way to them, and while one waits in `enq`, as many as there are places left.
    When none is on its way, those in `deq` wait beside an empty queue and those in `enq`
    beside a full one. -/
theorem waiting_threads_are_attended (hrun : Observed (Step program) (.initial (new limit)) events s) :
    (s.Awaits .non_empty_c_ →
      s.shared.q_.length ≤ (Finset.univ.filter fun t => OnItsWay .non_empty_c_ (s.place t)).card) ∧
    (s.Awaits .has_space_c_ → s.shared.q_.length ≤ limit.toUInt32.toNat ∧
      limit.toUInt32.toNat ≤ s.shared.q_.length +
        (Finset.univ.filter fun t => OnItsWay .has_space_c_ (s.place t)).card) ∧
    ((∀ t v, ¬OnItsWay v (s.place t)) → (s.Awaits .non_empty_c_ → s.shared.q_ = []) ∧
      (s.Awaits .has_space_c_ → s.shared.q_.length = limit.toUInt32.toNat)) := by
  have hbounded := run_bounded hrun
  have helements := run_attended hrun .non_empty_c_
  have hspace (hawaits : s.Awaits .has_space_c_) : s.shared.q_.length ≤ limit.toUInt32.toNat ∧
      limit.toUInt32.toNat ≤ s.shared.q_.length +
        (Finset.univ.filter fun t => OnItsWay .has_space_c_ (s.place t)).card := by
    have hlimited := limited hrun hawaits
    have hle := run_attended hrun .has_space_c_ hawaits
    rw [available, hbounded.1, if_neg hlimited] at hle
    exact ⟨hbounded.2 hlimited, by omega⟩
  refine ⟨helements, hspace, ?_⟩
  intro hquiet
  have hnone (v : Cond) : (Finset.univ.filter fun t => OnItsWay v (s.place t)).card = 0 := by
    rw [Finset.card_eq_zero, Finset.filter_eq_empty_iff]
    exact fun t _ => hquiet t v
  constructor
  · intro hawaits
    have hle := helements hawaits
    rw [hnone, available] at hle
    exact List.eq_nil_of_length_eq_zero (Nat.le_zero.mp hle)
  · intro hawaits
    obtain ⟨hle, hge⟩ := hspace hawaits
    rw [hnone] at hge
    omega

theorem waiting_threads_are_attended_first : ∃ s : Monitor.State Bool Cond (Fifo UInt8) (Point UInt8),
    s.place false = .waiting .non_empty_c_ .deq_loop ∧
    1 ≤ (Finset.univ.filter fun t => OnItsWay .non_empty_c_ (s.place t)).card := by
  obtain ⟨s, hrun, hwaiting, _, hq⟩ := run_first
  have hattended := (waiting_threads_are_attended hrun).1 ⟨false, _, hwaiting⟩
  rw [hq] at hattended
  exact ⟨s, hwaiting, hattended⟩

end Threads

end Fifo

end chfs
