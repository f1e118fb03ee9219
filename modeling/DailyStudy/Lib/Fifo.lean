/-
The bounded FIFO queue, as an abstract system: the specification a ring
buffer is measured against.

The state is the queue's content. A `put` is enabled while the queue is
below its capacity and appends; a `get v` is enabled when `v` is at the
head and removes it. The one law (`fifo_law`): along every run, what was
put is what was got followed by what is still queued, so the `k`-th
value got is the `k`-th value put.
-/
import DailyStudy.Lib.System

namespace Interleave

variable {V : Type*}

/-- The operations of a queue, as an observer sees them complete. -/
inductive QueueOp (V : Type*)
  | put (v : V)
  | get (v : V)
  deriving DecidableEq, Repr

/-- The value an operation puts, if it is a put. -/
def QueueOp.put? : QueueOp V → Option V
  | .put v => some v
  | .get _ => none

/-- The value an operation gets, if it is a get. -/
def QueueOp.get? : QueueOp V → Option V
  | .put _ => none
  | .get v => some v

/-- The values put, in order. -/
def puts (ops : List (QueueOp V)) : List V := ops.filterMap QueueOp.put?

/-- The values got, in order. -/
def gets (ops : List (QueueOp V)) : List V := ops.filterMap QueueOp.get?

@[simp] theorem puts_put (v : V) (ops : List (QueueOp V)) :
    puts (.put v :: ops) = v :: puts ops := rfl

@[simp] theorem puts_get (v : V) (ops : List (QueueOp V)) :
    puts (.get v :: ops) = puts ops := rfl

@[simp] theorem gets_put (v : V) (ops : List (QueueOp V)) :
    gets (.put v :: ops) = gets ops := rfl

@[simp] theorem gets_get (v : V) (ops : List (QueueOp V)) :
    gets (.get v :: ops) = v :: gets ops := rfl

/-- What a queue holds, and how many values were got from it so far. -/
structure Fifo (V : Type*) where
  taken : Nat
  queue : List V

/-- The bounded FIFO queue of capacity `cap`. -/
def boundedFifo (V : Type*) [DecidableEq V] (cap : Nat) :
    System (Fifo V) (QueueOp V) where
  init := ⟨0, []⟩
  step
    | ⟨n, q⟩, .put v => if q.length < cap then some ⟨n, q ++ [v]⟩ else none
    | ⟨n, v' :: q⟩, .get v => if v' = v then some ⟨n + 1, q⟩ else none
    | ⟨_, []⟩, .get _ => none

variable [DecidableEq V] {cap : Nat}

theorem boundedFifo_put {n : Nat} {q : List V} {v : V}
    (h : q.length < cap) :
    (boundedFifo V cap).run ⟨n, q⟩ [.put v] = some ⟨n, q ++ [v]⟩ := by
  simp [System.run, boundedFifo, h]

theorem boundedFifo_get {n : Nat} {q : List V} {v : V} :
    (boundedFifo V cap).run ⟨n, v :: q⟩ [.get v] = some ⟨n + 1, q⟩ := by
  simp [System.run, boundedFifo]

/-- The FIFO law: what was queued and put is what was got and is queued. -/
theorem fifo_law {ops : List (QueueOp V)} {q q' : Fifo V}
    (hrun : (boundedFifo V cap).run q ops = some q') :
    q.queue ++ puts ops = gets ops ++ q'.queue
      ∧ q'.taken = q.taken + (gets ops).length := by
  induction ops generalizing q with
  | nil =>
      simp only [System.run, Option.some.injEq] at hrun
      subst hrun
      simp [puts, gets]
  | cons op rest ih =>
      obtain ⟨q₁, hop, hrest⟩ := System.run_cons_eq_some.mp hrun
      obtain ⟨hlaw, htaken⟩ := ih hrest
      cases op with
      | put v =>
          by_cases hlt : q.queue.length < cap
          · simp only [boundedFifo, if_pos hlt, Option.some.injEq] at hop
            subst hop
            exact ⟨by simpa using hlaw, htaken⟩
          · simp [boundedFifo, hlt] at hop
      | get v =>
          obtain ⟨n, _ | ⟨v', q⟩⟩ := q
          · simp [boundedFifo] at hop
          · by_cases hv : v' = v
            · simp only [boundedFifo, if_pos hv, Option.some.injEq] at hop
              subst hop hv
              refine ⟨by simpa using hlaw, ?_⟩
              rw [htaken, gets_get, List.length_cons]
              show n + 1 + (gets rest).length = n + ((gets rest).length + 1)
              omega
            · simp [boundedFifo, hv] at hop

/-- From the empty queue: the values put are the values got followed by
the values queued, so the `k`-th got is the `k`-th put. -/
theorem fifo_law_init {ops : List (QueueOp V)} {q : Fifo V}
    (hrun : (boundedFifo V cap).run (boundedFifo V cap).init ops = some q) :
    puts ops = gets ops ++ q.queue ∧ q.taken = (gets ops).length := by
  obtain ⟨hlaw, htaken⟩ := fifo_law hrun
  exact ⟨hlaw, by rw [htaken]; exact Nat.zero_add _⟩

end Interleave
