import Chfs.Lib.Monitor

namespace chfs

/-- A `fifo`, without its mutex and its condition variables. -/
structure Fifo (α : Type*) where
  q_ : List α
  max_ : UInt32

namespace Fifo

/-- The condition variables of a `fifo`. -/
inductive Cond where
  | non_empty_c_ | has_space_c_
  deriving DecidableEq, Repr

inductive Call (α : Type*) where
  | enq (e : α) (blocking : Bool)
  | deq
  | size

inductive Return (α : Type*) where
  | enq (ret : Bool)
  | deq (e : α)
  | size (ret : Bool)

/-- The points of the code at which a thread that holds `m_` can be. -/
inductive Point (α : Type*) where
  | enq_loop (e : α) (blocking : Bool)
  | enq_pushed
  | enq_return (ret : Bool)
  | deq_loop
  | deq_popped (e : α)
  | deq_return (e : α)
  | size_start
  | size_return (ret : Bool)

variable {α : Type*}

def new (limit : Int32) : Fifo α := { q_ := [], max_ := limit.toUInt32 }

def start : Call α → Point α
  | .enq e blocking => .enq_loop e blocking
  | .deq => .deq_loop
  | .size => .size_start

def act (f : Fifo α) : Point α → Monitor.Act Cond (Fifo α) (Point α) (Return α)
  | .enq_loop e blocking =>
    if f.max_ = 0 ∨ f.q_.length < f.max_.toNat then .go { f with q_ := f.q_ ++ [e] } .enq_pushed
    else if blocking then .wait .has_space_c_ (.enq_loop e blocking)
    else .go f (.enq_return false)
  | .enq_pushed => .signal .non_empty_c_ (.enq_return true)
  | .enq_return ret => .leave (.enq ret)
  | .deq_loop =>
    match f.q_ with
    | [] => .wait .non_empty_c_ .deq_loop
    | e :: rest => .go { f with q_ := rest } (.deq_popped e)
  | .deq_popped e =>
    if f.max_ ≠ 0 ∧ f.q_.length < f.max_.toNat then .signal .has_space_c_ (.deq_return e)
    else .go f (.deq_return e)
  | .deq_return e => .leave (.deq e)
  | .size_start => .go f (.size_return (f.q_.length ≠ 0))
  | .size_return ret => .leave (.size ret)

def program : Monitor.Program (Call α) Cond (Fifo α) (Point α) (Return α) := { start, act }

end Fifo

end chfs
