import Chfs.Lib.Linearizable
import Chfs.Model.Fifo

namespace chfs

/-- A queue of at most `max` elements, or of any number where `max` is 0: all that has been
    put in, and how much of it has been taken out again. -/
structure Queue (α : Type*) where
  entered : List α
  left : Nat

namespace Queue

variable {α : Type*}

def empty : Queue α := { entered := [], left := 0 }

def held (queue : Queue α) : List α := queue.entered.drop queue.left

/-- The calls of a queue. Elements leave it in the order in which they have entered. -/
inductive Does (max : Nat) : Fifo.Call α → Queue α → Fifo.Return α → Queue α → Prop where
  | entered {queue : Queue α} {e : α} {blocking : Bool} (hroom : max = 0 ∨ queue.held.length < max) :
    Does max (.enq e blocking) queue (.enq true) { queue with entered := queue.entered ++ [e] }
  | refused {queue : Queue α} {e : α} (hmax : max ≠ 0) (hfull : queue.held.length = max) :
    Does max (.enq e false) queue (.enq false) queue
  | left {queue : Queue α} {e : α} (hnext : queue.entered[queue.left]? = some e) :
    Does max .deq queue (.deq e) { queue with left := queue.left + 1 }
  | size {queue : Queue α} : Does max .size queue (.size !queue.held.isEmpty) queue

variable {max : Nat} {queue : Queue α} {e : α}

theorem held_enter (h : queue.left ≤ queue.entered.length) (e : α) :
    ({ queue with entered := queue.entered ++ [e] } : Queue α).held = queue.held ++ [e] := by
  rw [held, held, List.drop_append_of_le_length h]

theorem held_leave {rest : List α} (h : queue.held = e :: rest) :
    queue.entered[queue.left]? = some e ∧ ({ queue with left := queue.left + 1 } : Queue α).held = rest ∧
      queue.left < queue.entered.length := by
  have hlt : queue.left < queue.entered.length := by
    apply Nat.lt_of_not_le
    intro hle
    rw [held, List.drop_eq_nil_of_le hle] at h
    cases h
  have hdrop := List.drop_eq_getElem_cons hlt
  rw [held, hdrop] at h
  obtain ⟨rfl, rfl⟩ := List.cons.inj h
  exact ⟨List.getElem?_eq_getElem hlt, rfl, hlt⟩

end Queue

namespace Fifo

open Monitor

variable {τ α : Type*} [DecidableEq τ] {f : Fifo α} {queue : Queue α} {max : UInt32} {limit : Int32}
  {events : List (Event τ (Call α) (Return α))} {s : Monitor.State τ Cond (Fifo α) (Point α)}

/-- How far a call is at a point of the code. -/
def Point.view : Point α → Phase (Call α) (Return α)
  | .enq_loop e blocking => .pending (.enq e blocking)
  | .enq_pushed => .done (.enq true)
  | .enq_return ret => .done (.enq ret)
  | .deq_loop => .pending .deq
  | .deq_popped e => .done (.deq e)
  | .deq_return e => .done (.deq e)
  | .size_start => .pending .size
  | .size_return ret => .done (.size ret)

/-- The `fifo` keeps its limit, and never holds more. -/
def Bounded (max : UInt32) (f : Fifo α) : Prop := f.max_ = max ∧ (max ≠ 0 → f.q_.length ≤ max.toNat)

/-- The `fifo` holds what the queue does. -/
structure Holds (max : UInt32) (f : Fifo α) (queue : Queue α) : Prop where
  held : f.q_ = queue.held
  left_le : queue.left ≤ queue.entered.length
  bounded : Bounded max f

/-- What the code does between two points without touching a condition variable. -/
inductive Goes (f : Fifo α) : Point α → Fifo α → Point α → Prop where
  | push {e : α} {blocking : Bool} (hroom : f.max_ = 0 ∨ f.q_.length < f.max_.toNat) :
    Goes f (.enq_loop e blocking) { f with q_ := f.q_ ++ [e] } .enq_pushed
  | refuse {e : α} (hmax : f.max_ ≠ 0) (hfull : f.max_.toNat ≤ f.q_.length) :
    Goes f (.enq_loop e false) f (.enq_return false)
  | pop {e : α} {rest : List α} (hq : f.q_ = e :: rest) : Goes f .deq_loop { f with q_ := rest } (.deq_popped e)
  | quiet {e : α} (hspace : f.max_ = 0 ∨ f.max_.toNat ≤ f.q_.length) : Goes f (.deq_popped e) f (.deq_return e)
  | size : Goes f .size_start f (.size_return (f.q_.length ≠ 0))

/-- What it waits for, -/
inductive Waits (f : Fifo α) : Cond → Point α → Prop where
  | full {e : α} (hmax : f.max_ ≠ 0) (hfull : f.max_.toNat ≤ f.q_.length) : Waits f .has_space_c_ (.enq_loop e true)
  | empty (hq : f.q_ = []) : Waits f .non_empty_c_ .deq_loop

/-- what it signals, -/
inductive Signals : Point α → Cond → Point α → Prop where
  | pushed : Signals .enq_pushed .non_empty_c_ (.enq_return true)
  | popped {e : α} : Signals (.deq_popped e) .has_space_c_ (.deq_return e)

/-- and where it returns. -/
inductive Leaves : Point α → Return α → Prop where
  | enq {ret : Bool} : Leaves (.enq_return ret) (.enq ret)
  | deq {e : α} : Leaves (.deq_return e) (.deq e)
  | size {ret : Bool} : Leaves (.size_return ret) (.size ret)

theorem not_room (h : ¬(f.max_ = 0 ∨ f.q_.length < f.max_.toNat)) : f.max_ ≠ 0 ∧ f.max_.toNat ≤ f.q_.length := by
  rw [not_or, Nat.not_lt] at h
  exact h

theorem act_go {f' : Fifo α} {point next : Point α} (h : f.act point = .go f' next) : Goes f point f' next := by
  cases point with
  | enq_loop e blocking =>
    simp only [act] at h
    split at h
    · next hroom =>
      cases h
      exact .push hroom
    · next hfull =>
      cases blocking with
      | true => cases h
      | false =>
        cases h
        exact .refuse (not_room hfull).1 (not_room hfull).2
  | deq_loop =>
    simp only [act] at h
    split at h
    · cases h
    · next hq =>
      cases h
      exact .pop hq
  | deq_popped e =>
    simp only [act] at h
    split at h
    · cases h
    · next hspace =>
      cases h
      rw [not_and_or, Decidable.not_not, Nat.not_lt] at hspace
      exact .quiet hspace
  | size_start =>
    cases h
    exact .size
  | _ => cases h

theorem act_wait {v : Cond} {point next : Point α} (h : f.act point = .wait v next) :
    next = point ∧ Waits f v point := by
  cases point with
  | enq_loop e blocking =>
    simp only [act] at h
    split at h
    · cases h
    · next hfull =>
      cases blocking with
      | true =>
        cases h
        exact ⟨rfl, .full (not_room hfull).1 (not_room hfull).2⟩
      | false => cases h
  | deq_loop =>
    simp only [act] at h
    split at h
    · next hq =>
      cases h
      exact ⟨rfl, .empty hq⟩
    · cases h
  | deq_popped e =>
    simp only [act] at h
    split at h <;> cases h
  | _ => cases h

theorem act_signal {v : Cond} {point next : Point α} (h : f.act point = .signal v next) : Signals point v next := by
  cases point with
  | enq_loop e blocking =>
    simp only [act] at h
    split at h
    · cases h
    · cases blocking <;> cases h
  | enq_pushed =>
    cases h
    exact .pushed
  | deq_loop =>
    simp only [act] at h
    split at h <;> cases h
  | deq_popped e =>
    simp only [act] at h
    split at h
    · cases h
      exact .popped
    · cases h
  | _ => cases h

theorem act_leave {point : Point α} {result : Return α} (h : f.act point = .leave result) : Leaves point result := by
  cases point with
  | enq_loop e blocking =>
    simp only [act] at h
    split at h
    · cases h
    · cases blocking <;> cases h
  | deq_loop =>
    simp only [act] at h
    split at h <;> cases h
  | deq_popped e =>
    simp only [act] at h
    split at h <;> cases h
  | enq_return ret =>
    cases h
    exact .enq
  | deq_return e =>
    cases h
    exact .deq
  | size_return ret =>
    cases h
    exact .size
  | _ => cases h

theorem Goes.max_eq {f' : Fifo α} {point next : Point α} (h : Goes f point f' next) : f'.max_ = f.max_ := by
  cases h <;> rfl

theorem Goes.bounded {f' : Fifo α} {point next : Point α} (h : Goes f point f' next) (hbounded : Bounded max f) :
    Bounded max f' := by
  refine ⟨h.max_eq.trans hbounded.1, ?_⟩
  intro hmax
  have hle := hbounded.2 hmax
  cases h with
  | push hroom =>
    rw [hbounded.1] at hroom
    have hlt := hroom.resolve_left hmax
    rw [List.length_append, List.length_singleton]
    omega
  | pop hq =>
    rw [hq, List.length_cons] at hle
    dsimp only
    omega
  | _ => exact hle

theorem keeps_bounded (max : UInt32) : Keeps (program : Program _ _ (Fifo α) _ _) (Bounded max) :=
  fun _ _ _ _ hbounded hact => (act_go hact).bounded hbounded

theorem holds_new (limit : Int32) : Holds limit.toUInt32 (new limit : Fifo α) .empty where
  held := rfl
  left_le := Nat.le_refl _
  bounded := ⟨rfl, fun _ => Nat.zero_le _⟩

/-- Where a thread changes the queue or settles what its call returns, it does what a queue does. -/
theorem Goes.holds {f' : Fifo α} {point next : Point α} (h : Goes f point f' next) (hholds : Holds max f queue) :
    (Holds max f' queue ∧ next.view = point.view) ∨ ∃ input result queue', point.view = .pending input ∧
      next.view = .done result ∧ Queue.Does max.toNat input queue result queue' ∧ Holds max f' queue' := by
  obtain ⟨hheld, hle, hmax, hbound⟩ := hholds
  have hbounded' := h.bounded ⟨hmax, hbound⟩
  cases h with
  | push hroom =>
    right
    refine ⟨_, _, _, rfl, rfl, .entered ?_, ?_, ?_, hbounded'⟩
    · rw [← hheld, ← hmax]
      refine hroom.imp_left ?_
      intro hzero
      rw [hzero]
      rfl
    · dsimp only
      rw [hheld, queue.held_enter hle]
    · dsimp only
      rw [List.length_append]
      omega
  | refuse hne hfull =>
    right
    rw [hmax] at hne hfull
    have hzero : max.toNat ≠ 0 := fun h0 => hne (UInt32.toNat_inj.mp h0)
    refine ⟨_, _, _, rfl, rfl, .refused hzero ?_, hheld, hle, hbounded'⟩
    rw [← hheld]
    exact Nat.le_antisymm (hbound hne) hfull
  | pop hq =>
    right
    obtain ⟨hnext, hheld', hlt⟩ := Queue.held_leave (hheld.symm.trans hq)
    exact ⟨_, _, _, rfl, rfl, .left hnext, hheld'.symm, hlt, hbounded'⟩
  | quiet _ => exact .inl ⟨⟨hheld, hle, hbounded'⟩, rfl⟩
  | size =>
    right
    refine ⟨_, _, _, rfl, ?_, .size, hheld, hle, hbounded'⟩
    rw [Point.view, hheld]
    cases queue.held <;> rfl

theorem implements (max : UInt32) :
    Implements (program : Program _ _ (Fifo α) _ _) (Holds max) (Queue.Does max.toNat) Point.view where
  start := by
    intro input
    cases input <;> rfl
  go := fun _ _ _ _ _ hholds hact => (act_go hact).holds hholds
  signal := by
    intro f point v next hact
    cases act_signal hact <;> rfl
  wait := by
    intro f point v next hact
    rw [(act_wait hact).1]
  leave := by
    intro f point result hact
    cases act_leave hact <;> rfl

/-- The mutex lets one thread in at a time. -/
theorem one_inside (hrun : Observed (Step program) (.initial (new limit)) events s) {t u : τ} {point point' : Point α}
    (ht : s.place t = .inside point) (hu : s.place u = .inside point') : t = u := by
  have hexclusive := run_exclusive hrun
  have howner := (hexclusive.owner ht).symm.trans (hexclusive.owner hu)
  exact Option.some.inj howner

/-- Whatever any number of threads do with a `fifo` at once, their calls take effect one
    after another, each between its call and its return, as those of a queue that keeps
    within the limit; and the `fifo` holds what that queue holds. -/
theorem calls_are_those_of_a_queue (hrun : Observed (Step program) (.initial (new limit)) events s) :
    ∃ o : Linearizable.State τ (Call α) (Return α) (Queue α),
      Observed (Linearizable.Step (Queue.Does limit.toUInt32.toNat)) (.initial .empty) events o ∧
      (o.phase = fun t => (s.place t).phase Point.view) ∧ s.shared.q_ = o.shared.held ∧
      (limit ≠ 0 → s.shared.q_.length ≤ limit.toUInt32.toNat) := by
  obtain ⟨o, hobserved, hholds, hphase⟩ := run_linearizes (implements limit.toUInt32) (holds_new limit) hrun
  refine ⟨o, hobserved, hphase, hholds.held, ?_⟩
  intro hlimit
  apply hholds.bounded.2
  intro hzero
  exact hlimit (congrArg Int32.ofUInt32 hzero)

/-- While one thread waits for an element, another puts one in. -/
theorem run_first : ∃ s : Monitor.State Bool Cond (Fifo UInt8) (Point UInt8),
    Observed (Step program) (.initial (new 1)) [.call true (.enq 7 true), .call false .deq] s ∧
    s.place false = .waiting .non_empty_c_ .deq_loop ∧ s.place true = .inside .enq_pushed ∧ s.shared.q_ = [7] := by
  have hcalled : Observed (Step program) (.initial (new 1 : Fifo UInt8)) [.call false .deq] _ :=
    .seen .nil (.call rfl)
  have hlocked := hcalled.silent (.lock (t := false) rfl rfl)
  have hwaiting := hlocked.silent (.wait (t := false) rfl rfl)
  have hcalled' : Observed (Step program) (.initial (new 1 : Fifo UInt8))
      [.call true (.enq 7 true), .call false .deq] _ :=
    hwaiting.seen (.call rfl)
  have hlocked' := hcalled'.silent (.lock (t := true) rfl rfl)
  exact ⟨_, hlocked'.silent (.go (t := true) rfl rfl), rfl, rfl, rfl⟩

theorem calls_are_those_of_a_queue_first : ∃ s : Monitor.State Bool Cond (Fifo UInt8) (Point UInt8),
    ∃ o : Linearizable.State Bool (Call UInt8) (Return UInt8) (Queue UInt8),
      Observed (Linearizable.Step (Queue.Does 1)) (.initial .empty) [.call true (.enq 7 true), .call false .deq] o ∧
      (o.phase = fun t => (s.place t).phase Point.view) ∧ s.shared.q_ = [7] ∧ o.shared.held = [7] := by
  obtain ⟨s, hrun, _, _, hq⟩ := run_first
  obtain ⟨o, hobserved, hphase, hheld, _⟩ := calls_are_those_of_a_queue hrun
  exact ⟨s, o, hobserved, hphase, hq, hheld.symm.trans hq⟩

end Fifo

end chfs
