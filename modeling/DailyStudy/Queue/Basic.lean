/-
The methods `enqueue`, `dequeue` and `size` of the `QueueSingleton` of
InstanceqQueue.cpp, an object behind one lock: every method holds `mtx`
from its first step to its last (`lock_guard`).

`front` and `pop` of an empty `std::queue` are undefined. `size` returns
an `int`, so the number of elements is reduced to 32 bits.

`fifoQueue` says what the object is for: a FIFO queue, one operation at a
time, with the result of each.
-/
import DailyStudy.Lib.Locked

namespace DailyStudy.Queue

open Interleave

-- ================================================================= the methods

/-- The methods, with their arguments. -/
inductive Method
  | enqueue (value : Int)
  | dequeue
  | size
  deriving DecidableEq, Repr

/-- Where a thread stands in the body of a method: before the named
call. -/
inductive Place
  | push (value : Int)
  | front
  | pop (frontElement : Int)
  | size
  deriving DecidableEq, Repr

/-- A number of elements, as an `int`. -/
def toInt32 (n : Nat) : Int := (BitVec.ofNat 32 n).toInt

/-- The bodies. A result is what a method returns, `none` for `void`. -/
def queueSingleton : Object (List Int) Method Place (Option Int) Unit where
  start
    | .enqueue value => .push value
    | .dequeue => .front
    | .size => .size
  move queue place _ :=
    match place, queue with
    | .push value, queue => some (queue ++ [value], .inr none)
    | .front, [] => none
    | .front, value :: queue => some (value :: queue, .inl (.pop value))
    | .pop _, [] => none
    | .pop frontElement, _ :: queue =>
        some (queue, .inr (some frontElement))
    | .size, queue => some (queue, .inr (some (toInt32 queue.length)))

/-- The queue of the threads `T`, which is empty at first. -/
def threads (T : Type) [DecidableEq T] :
    System (Locked.State T (List Int) Method Place (Option Int))
      (Locked.Act T Method Unit) :=
  locked T queueSingleton []

-- =========================================================== the specification

/-- The FIFO queue: a method with its result, where that is the result it
has. -/
def fifoQueue : System (List Int) (Method × Option Int) where
  init := []
  step
    | q, (.enqueue value, none) => some (q ++ [value])
    | value :: q, (.dequeue, some v) => if v = value then some q else none
    | q, (.size, some n) => if n = toInt32 q.length then some q else none
    | _, _ => none

/-- The values enqueued, in order. -/
def enqueued (h : List (Method × Option Int)) : List Int :=
  h.filterMap fun
    | (.enqueue value, _) => some value
    | _ => none

/-- The values dequeued, in order. -/
def dequeued (h : List (Method × Option Int)) : List Int :=
  h.filterMap fun
    | (.dequeue, v) => v
    | _ => none

/-- The method is `enqueue`. -/
def Method.isEnqueue : Method → Bool
  | .enqueue _ => true
  | _ => false

/-- The method is `dequeue`. -/
def Method.isDequeue : Method → Bool
  | .dequeue => true
  | _ => false

end DailyStudy.Queue
