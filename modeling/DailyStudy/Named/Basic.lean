/-
The named-semaphore ring of mmap5: the writer program of
mmap5_ipc_named_sem_w.cc and the reader program of
mmap5_ipc_named_sem_r.cc, started and ended any number of times.

# Three lifetimes

The shared memory object and the two named semaphores persist until they
are unlinked, which nobody does. A writer's constructor creates what is
missing, leaves the value of an existing semaphore alone, and clears the
memory. The counters are members of a process and die with it; every
constructor stores both to 0. The destructor unmaps and closes, which
changes none of this.

The bodies of `Write` and `Read` are those of a process with counters of
its own (`Sem.Private.write`, `Sem.Private.read`), on the persistent
objects. After `2 ^ 31` calls a process computes a slot that is not in the
ring; what such an access does is undefined, and nothing is known of the
system from then on.
-/
import DailyStudy.Sem.Calls

namespace DailyStudy.Named

open Interleave
open Sem (Private Shared Call)

/-- The objects the kernel keeps, by their names (none: not created),
and the processes that are alive. -/
structure State where
  memory : Option (Fin Sem.numSlots → Int)
  semWrite : Option Nat
  semRead : Option Nat
  writer : Option Private
  reader : Option Private

/-- A clean system. -/
def State.clean : State where
  memory := none
  semWrite := none
  semRead := none
  writer := none
  reader := none

/-- `sem_open(name, O_CREAT, ..., value)`. -/
def semOpen (sem : Option Nat) (value : Nat) : Option Nat :=
  some (sem.getD value)

/-- The members that a process shares, when all of them exist. -/
def State.shared (s : State) : Option Shared :=
  match s.memory, s.semWrite, s.semRead with
  | some memory, some semWrite, some semRead =>
      some { memory := memory, semWrite := semWrite, semRead := semRead }
  | _, _, _ => none

/-- The persistent objects, as a process left them. -/
def State.update (s : State) (m : Shared) : State :=
  { s with
    memory := some m.memory
    semWrite := some m.semWrite
    semRead := some m.semRead }

-- ================================================================ the programs

/-- A writer starts: its constructor creates or opens all three objects,
clears the memory and stores the counters to 0. -/
def State.startWriter (s : State) : Option State :=
  match s.writer with
  | some _ => none
  | none =>
      some { s with
        memory := some fun _ => 0
        semWrite := semOpen s.semWrite Sem.numSlots
        semRead := semOpen s.semRead 0
        writer := some .new }

/-- A reader starts: its constructor opens all three objects and stores
the counters to 0, or the process exits when one does not exist. -/
def State.startReader (s : State) : Option State :=
  match s.reader with
  | some _ => none
  | none =>
      match s.shared with
      | some _ => some { s with reader := some .new }
      | none => some s

/-- The writer ends between two calls. -/
def State.endWriter (s : State) : Option State :=
  match s.writer with
  | some _ => some { s with writer := none }
  | none => none

/-- The reader ends between two calls. -/
def State.endReader (s : State) : Option State :=
  match s.reader with
  | some _ => some { s with reader := none }
  | none => none

/-- The live writer calls `Write(value)` and returns. -/
def State.write (s : State) (value : Int) : Call State :=
  match s.writer, s.shared with
  | some p, some m =>
      (p.write m value).map fun (p', m') =>
        { s.update m' with writer := some p' }
  | _, _ => .blocked

/-- The live reader calls `Read` and returns, with the value. -/
def State.read (s : State) : Call (Int × State) :=
  match s.reader, s.shared with
  | some p, some m =>
      (p.read m).map fun (value, p', m') =>
        (value, { s.update m' with reader := some p' })
  | _, _ => .blocked

-- ======================================================= what an event can do

theorem shared_memory {s : State} {m : Shared} (h : s.shared = some m) :
    s.memory = some m.memory := by
  unfold State.shared at h
  split at h
  next memory semWrite semRead hmem hsw hsr =>
    obtain rfl := Option.some.inj h
    exact hmem
  next => cases h

/-- A `Write` that is done stored into the slot of the live writer's
counter. -/
theorem write_eq_done {s s' : State} {value : Int}
    (h : s.write value = .done s') :
    ∃ p memory c, s.writer = some p ∧ s.memory = some memory
      ∧ Sem.slotOf p.nextWriteSlot = some c
      ∧ s'.memory = some (Function.update memory c value)
      ∧ s'.writer = some { p with nextWriteSlot := p.nextWriteSlot + 1 }
      ∧ s'.reader = s.reader := by
  unfold State.write at h
  split at h
  next p m hp hm =>
    obtain ⟨res, hcall, rfl⟩ := Call.map_eq_done h
    obtain ⟨-, c, hc, rfl⟩ := Sem.write_eq_done hcall
    exact ⟨p, m.memory, c, hp, shared_memory hm, hc, rfl, rfl, rfl⟩
  next => cases h

/-- One that is undefined computed a slot that is not in the ring. -/
theorem write_eq_undefined {s : State} {value : Int}
    (h : s.write value = .undefined) :
    ∃ p, s.writer = some p ∧ Sem.slotOf p.nextWriteSlot = none := by
  unfold State.write at h
  split at h
  next p m hp hm =>
    exact ⟨p, hp, Sem.write_eq_undefined (Call.map_eq_undefined h)⟩
  next => cases h

/-- A `Read` that is done loaded the slot of the live reader's counter. -/
theorem read_eq_done {s s' : State} {value : Int}
    (h : s.read = .done (value, s')) :
    ∃ p memory c, s.reader = some p ∧ s.memory = some memory
      ∧ Sem.slotOf p.nextReadSlot = some c
      ∧ value = memory c
      ∧ s'.memory = some memory
      ∧ s'.reader = some { p with nextReadSlot := p.nextReadSlot + 1 }
      ∧ s'.writer = s.writer := by
  unfold State.read at h
  split at h
  next p m hp hm =>
    obtain ⟨res, hcall, hres⟩ := Call.map_eq_done h
    obtain ⟨-, c, hc, rfl⟩ := Sem.read_eq_done hcall
    cases hres
    exact ⟨p, m.memory, c, hp, shared_memory hm, hc, rfl, rfl, rfl, rfl⟩
  next => cases h

/-- One that is undefined computed a slot that is not in the ring. -/
theorem read_eq_undefined {s : State} (h : s.read = .undefined) :
    ∃ p, s.reader = some p ∧ Sem.slotOf p.nextReadSlot = none := by
  unfold State.read at h
  split at h
  next p m hp hm =>
    exact ⟨p, hp, Sem.read_eq_undefined (Call.map_eq_undefined h)⟩
  next => cases h

-- ================================================================== sequences

/-- One event of the system. -/
inductive Event
  | startWriter
  | startReader
  | endWriter
  | endReader
  | write
  | read
  deriving DecidableEq, Repr

/-- The system, from a clean one on, with the number of `Write`s so far:
the `i`-th `Write` of all passes `vals i`. At most one process of each
kind is alive, and a call occurs only when its `sem_wait` can pass. After
a call that is undefined (none) anything may happen. -/
def lives (vals : Nat → Int) : System (Option (State × Nat)) Event where
  init := some (.clean, 0)
  step
    | none, _ => some none
    | some (s, n), .startWriter => s.startWriter.map fun s' => some (s', n)
    | some (s, n), .startReader => s.startReader.map fun s' => some (s', n)
    | some (s, n), .endWriter => s.endWriter.map fun s' => some (s', n)
    | some (s, n), .endReader => s.endReader.map fun s' => some (s', n)
    | some (s, n), .write => ((s.write (vals n)).map (·, n + 1)).step
    | some (s, n), .read => (s.read.map fun vs => (vs.2, n)).step

/-- The values an event returns, if it is a `Read`. -/
def returns : Option (State × Nat) → Event → List Int
  | some (s, _), .read =>
      match s.read with
      | .done (value, _) => [value]
      | _ => []
  | _, _ => []

/-- The values the `Read`s of a sequence returned. -/
def returned (vals : Nat → Int) (events : List Event) : List Int :=
  (lives vals).trace returns (lives vals).init events

/-- No call of a sequence was undefined. -/
def Defined (vals : Nat → Int) (events : List Event) : Prop :=
  (lives vals).run (lives vals).init events ≠ some none

end DailyStudy.Named
