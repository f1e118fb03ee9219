/-
The names of the queues of Mq1.cpp: `MyQueue::CreateMQ` and `~MyQueue`,
in any number of processes.

The kernel maps names to queue objects. A name can be unbound while
processes hold the object, so the objects are numbered in the order they
are created and none is ever removed here; a queue nobody holds is not
seen again. Each kernel call is one step, and what `CreateMQ` does on
the queue's name takes up to three of them.
-/
import DailyStudy.Lib.System
import Mathlib.Logic.Function.Basic

namespace DailyStudy.CreateMq

open Interleave

-- ================================================================== the kernel

/-- A message, and the process that sent it (none: before the run). -/
structure Message (P : Type) where
  sender : Option P
  bytes : List UInt8

/-- A queue object: the process whose `mq_open` created it (none: before
the run), and its messages, oldest first. -/
structure Object (P : Type) where
  creator : Option P
  msgs : List (Message P)

/-- The names that are bound, and the objects: those numbered below
`next` exist. -/
structure Kernel (N P : Type) where
  names : N → Option Nat
  objects : Nat → Object P
  next : Nat

/-- What the calls of `mq_open` fail with. -/
inductive Errno
  | eexist
  | other
  deriving DecidableEq, Repr

variable {N P : Type} [DecidableEq N]

/-- A new queue, bound to the name. -/
def Kernel.create (k : Kernel N P) (p : P) (name : N) : Kernel N P where
  names := Function.update k.names name (some k.next)
  objects := Function.update k.objects k.next
    { creator := some p, msgs := [] }
  next := k.next + 1

/-- `mq_open(name, O_RDWR | O_CREAT | O_EXCL, ...)`; `fails`: for another
reason than the name. -/
def Kernel.openExcl (k : Kernel N P) (p : P) (name : N) (fails : Bool) :
    Except Errno Nat × Kernel N P :=
  if fails then (.error .other, k)
  else
    match k.names name with
    | some _ => (.error .eexist, k)
    | none => (.ok k.next, k.create p name)

/-- `mq_open(name, O_RDWR | O_CREAT, ...)`. -/
def Kernel.openCreate (k : Kernel N P) (p : P) (name : N) (fails : Bool) :
    Except Errno Nat × Kernel N P :=
  if fails then (.error .other, k)
  else
    match k.names name with
    | some id => (.ok id, k)
    | none => (.ok k.next, k.create p name)

/-- `mq_unlink(name)`; a name that is not bound stays so. -/
def Kernel.unlink (k : Kernel N P) (name : N) : Kernel N P :=
  { k with names := Function.update k.names name none }

/-- The messages of one object change. -/
def Kernel.setMsgs (k : Kernel N P) (id : Nat) (msgs : List (Message P)) :
    Kernel N P :=
  { k with
    objects := Function.update k.objects id
      { k.objects id with msgs := msgs } }

-- A queue just created is empty and its creator's; the others stay.

theorem Kernel.create_objects_next (k : Kernel N P) (p : P) (name : N) :
    (k.create p name).objects k.next = { creator := some p, msgs := [] } :=
  Function.update_self _ _ _

theorem Kernel.create_objects_of_lt {k : Kernel N P} {id : Nat}
    (h : id < k.next) (p : P) (name : N) :
    (k.create p name).objects id = k.objects id :=
  Function.update_of_ne (Nat.ne_of_lt h) _ _

/-- What is bound after it is the new queue, or was bound before. -/
theorem Kernel.names_of_create {k : Kernel N P} {p : P} {name n : N}
    {id : Nat} (h : (k.create p name).names n = some id) :
    id = k.next ∨ k.names n = some id := by
  change Function.update k.names name (some k.next) n = some id at h
  by_cases hn : n = name
  · rw [hn, Function.update_self] at h
    exact .inl (Option.some.inj h).symm
  · rw [Function.update_of_ne hn] at h
    exact .inr h

/-- `mq_unlink` binds no name. -/
theorem Kernel.names_of_unlink {k : Kernel N P} {name n : N} {id : Nat}
    (h : (k.unlink name).names n = some id) : k.names n = some id := by
  change Function.update k.names name none n = some id at h
  by_cases hn : n = name
  · rw [hn, Function.update_self] at h
    cases h
  · rw [Function.update_of_ne hn] at h
    exact h

omit [DecidableEq N] in
theorem Kernel.setMsgs_objects_self (k : Kernel N P) (id : Nat)
    (msgs : List (Message P)) :
    (k.setMsgs id msgs).objects id = { k.objects id with msgs := msgs } :=
  Function.update_self _ _ _

omit [DecidableEq N] in
theorem Kernel.setMsgs_objects_of_ne {k : Kernel N P} {id x : Nat}
    (h : x ≠ id) (msgs : List (Message P)) :
    (k.setMsgs id msgs).objects x = k.objects x :=
  Function.update_of_ne h _ _

omit [DecidableEq N] in
/-- Other messages are no other creator. -/
theorem Kernel.setMsgs_creator (k : Kernel N P) (id : Nat)
    (msgs : List (Message P)) (x : Nat) :
    ((k.setMsgs id msgs).objects x).creator = (k.objects x).creator := by
  by_cases hx : x = id
  · rw [hx, setMsgs_objects_self]
  · rw [setMsgs_objects_of_ne hx]

-- =============================================================== the processes

/-- Where a process stands: before the named kernel call of `CreateMQ` or
of `~MyQueue` (`unlinkName`, `close`). -/
inductive Pc (N : Type)
  | idle
  | openExcl (name : N)
  | unlink (name : N)
  | openCreate (name : N)
  | unlinkName
  | close
  | ended
  deriving DecidableEq, Repr

/-- A process and the members of its `MyQueue` (`myQueueId` none: -1, or
nothing stored yet). -/
structure Proc (N : Type) where
  mqName : Option N
  myQueueId : Option Nat
  pc : Pc N

/-- The next kernel call of process `p`. -/
def Kernel.move (k : Kernel N P) (p : P) (fails : Bool) (q : Proc N) :
    Option (Proc N × Kernel N P) :=
  match q.pc with
  | .idle | .ended => none
  | .openExcl name =>
      match k.openExcl p name fails with
      | (.ok id, k') => some ({ q with myQueueId := some id, pc := .idle }, k')
      | (.error .eexist, k') =>
          some ({ q with myQueueId := none, pc := .unlink name }, k')
      | (.error .other, k') =>
          some ({ q with myQueueId := none, pc := .idle }, k')
  | .unlink name => some ({ q with pc := .openCreate name }, k.unlink name)
  | .openCreate name =>
      match k.openCreate p name fails with
      | (.ok id, k') => some ({ q with myQueueId := some id, pc := .idle }, k')
      | (.error _, k') => some ({ q with myQueueId := none, pc := .idle }, k')
  | .unlinkName =>
      match q.mqName with
      | some name => some ({ q with pc := .close }, k.unlink name)
      | none => none
  | .close => some ({ q with myQueueId := none, pc := .ended }, k)

-- ================================================================ the system

/-- The kernel and the processes. -/
structure State (N P : Type) where
  kernel : Kernel N P
  procs : P → Proc N

/-- What the scheduler picks: a process calls `CreateMQ`, sends or gets a
message, or exits into `~MyQueue`; or it makes its next kernel call. -/
inductive Act (N P : Type)
  | createMQ (p : P) (name : N)
  | sendMsg (p : P) (bytes : List UInt8)
  | getMsg (p : P)
  | destroy (p : P)
  | move (p : P) (fails : Bool)

variable [DecidableEq P]

/-- One step of one process. A `SendMsg` or a `GetMsg` is a step when its
kernel call succeeds. -/
def step (s : State N P) : Act N P → Option (State N P)
  | .createMQ p name =>
      match (s.procs p).pc with
      | .idle =>
          some { s with
            procs := Function.update s.procs p
              { s.procs p with mqName := some name, pc := .openExcl name } }
      | _ => none
  | .sendMsg p bytes =>
      match (s.procs p).pc, (s.procs p).myQueueId with
      | .idle, some id =>
          some { s with
            kernel := s.kernel.setMsgs id
              ((s.kernel.objects id).msgs ++ [⟨some p, bytes⟩]) }
      | _, _ => none
  | .getMsg p =>
      match (s.procs p).pc, (s.procs p).myQueueId with
      | .idle, some id =>
          match (s.kernel.objects id).msgs with
          | [] => none
          | _ :: msgs =>
              some { s with kernel := s.kernel.setMsgs id msgs }
      | _, _ => none
  | .destroy p =>
      match (s.procs p).pc with
      | .idle =>
          some { s with
            procs := Function.update s.procs p
              { s.procs p with pc := .unlinkName } }
      | _ => none
  | .move p fails =>
      (s.kernel.move p fails (s.procs p)).map fun (q, k) =>
        { kernel := k, procs := Function.update s.procs p q }

/-- The kernel before the run: bound names, and queues of processes that
are gone. -/
structure Stale (N : Type) where
  names : N → Option Nat
  msgs : Nat → List (List UInt8)
  count : Nat
  bound : ∀ name id, names name = some id → id < count

/-- The processes `P`, on the kernel they find. -/
def processes (N P : Type) [DecidableEq N] [DecidableEq P]
    (stale : Stale N) : System (State N P) (Act N P) where
  init :=
    { kernel :=
        { names := stale.names
          objects := fun id =>
            { creator := none
              msgs := (stale.msgs id).map fun bytes => ⟨none, bytes⟩ }
          next := stale.count }
      procs := fun _ => { mqName := none, myQueueId := none, pc := .idle } }
  step := step

/-- The queue a step returns from `CreateMQ` with, and the process. -/
def returns (s : State N P) : Act N P → List (P × Nat)
  | .move p fails =>
      match (s.procs p).pc with
      | .openExcl name =>
          match (s.kernel.openExcl p name fails).1 with
          | .ok id => [(p, id)]
          | .error _ => []
      | .openCreate name =>
          match (s.kernel.openCreate p name fails).1 with
          | .ok id => [(p, id)]
          | .error _ => []
      | _ => []
  | _ => []

/-- The processes, with the log of what `CreateMQ` returned. -/
def logged (N P : Type) [DecidableEq N] [DecidableEq P] (stale : Stale N) :
    System (State N P × List (P × Nat)) (Act N P) :=
  (processes N P stale).withLog returns

-- ======================================================== what a step can do

/-- The process of a state, with new members and a new program point. -/
def State.set (s : State N P) (k : Kernel N P) (p : P) (id : Option Nat)
    (pc : Pc N) : State N P where
  kernel := k
  procs := Function.update s.procs p
    { s.procs p with myQueueId := id, pc := pc }

/-- The steps, one constructor for each: the program point the process
leaves, the guard, the effect, and what `CreateMQ` returns. -/
inductive Moves (s : State N P) :
    Act N P → State N P → List (P × Nat) → Prop
  | createMQ {p : P} {name : N} (hpc : (s.procs p).pc = .idle) :
      Moves s (.createMQ p name)
        { s with
          procs := Function.update s.procs p
            { s.procs p with mqName := some name, pc := .openExcl name } } []
  | sendMsg {p : P} {bytes : List UInt8} {id : Nat}
      (hid : (s.procs p).myQueueId = some id) :
      Moves s (.sendMsg p bytes)
        { s with
          kernel := s.kernel.setMsgs id
            ((s.kernel.objects id).msgs ++ [⟨some p, bytes⟩]) } []
  | getMsg {p : P} {id : Nat} {m : Message P} {msgs : List (Message P)}
      (hid : (s.procs p).myQueueId = some id)
      (hmsgs : (s.kernel.objects id).msgs = m :: msgs) :
      Moves s (.getMsg p) { s with kernel := s.kernel.setMsgs id msgs } []
  | destroy {p : P} (hpc : (s.procs p).pc = .idle) :
      Moves s (.destroy p)
        (s.set s.kernel p (s.procs p).myQueueId .unlinkName) []
  | openExcl {p : P} {name : N} (hpc : (s.procs p).pc = .openExcl name)
      (hfree : s.kernel.names name = none) :
      Moves s (.move p false)
        (s.set (s.kernel.create p name) p (some s.kernel.next) .idle)
        [(p, s.kernel.next)]
  | exists {p : P} {name : N} {id : Nat}
      (hpc : (s.procs p).pc = .openExcl name)
      (hbound : s.kernel.names name = some id) :
      Moves s (.move p false) (s.set s.kernel p none (.unlink name)) []
  | failExcl {p : P} {name : N} (hpc : (s.procs p).pc = .openExcl name) :
      Moves s (.move p true) (s.set s.kernel p none .idle) []
  | unlink {p : P} {name : N} {fails : Bool}
      (hpc : (s.procs p).pc = .unlink name) :
      Moves s (.move p fails)
        (s.set (s.kernel.unlink name) p (s.procs p).myQueueId
          (.openCreate name)) []
  | openNew {p : P} {name : N} (hpc : (s.procs p).pc = .openCreate name)
      (hfree : s.kernel.names name = none) :
      Moves s (.move p false)
        (s.set (s.kernel.create p name) p (some s.kernel.next) .idle)
        [(p, s.kernel.next)]
  | openOld {p : P} {name : N} {id : Nat}
      (hpc : (s.procs p).pc = .openCreate name)
      (hbound : s.kernel.names name = some id) :
      Moves s (.move p false) (s.set s.kernel p (some id) .idle) [(p, id)]
  | failOpen {p : P} {name : N} (hpc : (s.procs p).pc = .openCreate name) :
      Moves s (.move p true) (s.set s.kernel p none .idle) []
  | unlinkName {p : P} {name : N} {fails : Bool}
      (hpc : (s.procs p).pc = .unlinkName)
      (hname : (s.procs p).mqName = some name) :
      Moves s (.move p fails)
        (s.set (s.kernel.unlink name) p (s.procs p).myQueueId .close) []
  | close {p : P} {fails : Bool} (hpc : (s.procs p).pc = .close) :
      Moves s (.move p fails) (s.set s.kernel p none .ended) []

private theorem move_moves {s s' : State N P} {p : P} {fails : Bool}
    (h : step s (.move p fails) = some s') :
    Moves s (.move p fails) s' (returns s (.move p fails)) := by
  cases hpc : (s.procs p).pc with
  | idle => simp [step, Kernel.move, hpc] at h
  | ended => simp [step, Kernel.move, hpc] at h
  | openExcl name =>
      cases fails with
      | true =>
          simp only [step, Kernel.move, Kernel.openExcl, hpc, if_true,
            Option.map_some, Option.some.injEq] at h
          simp only [returns, Kernel.openExcl, hpc, if_true]
          exact h ▸ .failExcl hpc
      | false =>
          cases hname : s.kernel.names name with
          | none =>
              simp only [step, Kernel.move, Kernel.openExcl, hpc, hname,
                Bool.false_eq_true, if_false, Option.map_some,
                Option.some.injEq] at h
              simp only [returns, Kernel.openExcl, hpc, hname,
                Bool.false_eq_true, if_false]
              exact h ▸ .openExcl hpc hname
          | some id =>
              simp only [step, Kernel.move, Kernel.openExcl, hpc, hname,
                Bool.false_eq_true, if_false, Option.map_some,
                Option.some.injEq] at h
              simp only [returns, Kernel.openExcl, hpc, hname,
                Bool.false_eq_true, if_false]
              exact h ▸ .exists hpc hname
  | unlink name =>
      simp only [step, Kernel.move, hpc, Option.map_some,
        Option.some.injEq] at h
      simp only [returns, hpc]
      exact h ▸ .unlink hpc
  | openCreate name =>
      cases fails with
      | true =>
          simp only [step, Kernel.move, Kernel.openCreate, hpc, if_true,
            Option.map_some, Option.some.injEq] at h
          simp only [returns, Kernel.openCreate, hpc, if_true]
          exact h ▸ .failOpen hpc
      | false =>
          cases hname : s.kernel.names name with
          | none =>
              simp only [step, Kernel.move, Kernel.openCreate, hpc, hname,
                Bool.false_eq_true, if_false, Option.map_some,
                Option.some.injEq] at h
              simp only [returns, Kernel.openCreate, hpc, hname,
                Bool.false_eq_true, if_false]
              exact h ▸ .openNew hpc hname
          | some id =>
              simp only [step, Kernel.move, Kernel.openCreate, hpc, hname,
                Bool.false_eq_true, if_false, Option.map_some,
                Option.some.injEq] at h
              simp only [returns, Kernel.openCreate, hpc, hname,
                Bool.false_eq_true, if_false]
              exact h ▸ .openOld hpc hname
  | unlinkName =>
      simp only [step, Kernel.move, hpc] at h
      simp only [returns, hpc]
      split at h
      next name hname => exact Option.some.inj h ▸ .unlinkName hpc hname
      next => cases h
  | close =>
      simp only [step, Kernel.move, hpc, Option.map_some,
        Option.some.injEq] at h
      simp only [returns, hpc]
      exact h ▸ .close hpc

/-- Every step is one of them. -/
theorem step_moves {s s' : State N P} {a : Act N P}
    (h : step s a = some s') : Moves s a s' (returns s a) := by
  cases a with
  | move p fails => exact move_moves h
  | createMQ p name =>
      cases hpc : (s.procs p).pc with
      | idle =>
          simp only [step, hpc, Option.some.injEq] at h
          exact h ▸ .createMQ hpc
      | _ => simp [step, hpc] at h
  | destroy p =>
      cases hpc : (s.procs p).pc with
      | idle =>
          simp only [step, hpc, Option.some.injEq] at h
          exact h ▸ .destroy hpc
      | _ => simp [step, hpc] at h
  | sendMsg p bytes =>
      simp only [step] at h
      split at h
      next id hpc hid => exact Option.some.inj h ▸ .sendMsg hid
      next => cases h
  | getMsg p =>
      simp only [step] at h
      split at h
      next id hpc hid =>
        split at h
        next => cases h
        next m msgs hmsgs => exact Option.some.inj h ▸ .getMsg hid hmsgs
      next => cases h

end DailyStudy.CreateMq
