/-
The semaphore ring of mmap4_sem.cc: `SharedMemory::Write` and
`SharedMemory::Read`, one atomic step at a time, by any number of
threads. mmap5 and mmap6 run the same two bodies across processes.

# Granularity

Every `sem_wait`, `sem_post`, `fetch_add` and every access to one
`memory_[slot]` is one step. The counters are unbounded; a slot is
`ticket % NUM_SLOTS`, taken where the slot is accessed. The lines that
print are left out: nothing reads what they print.

A thread between two calls is `idle` and may call again at any time,
with any value: `WriterThread` and `ReaderThread` are two of the
schedules this allows.
-/
import DailyStudy.Lib.System
import DailyStudy.Lib.Slots

namespace DailyStudy.Sem

open Interleave

/-- `NUM_SLOTS`. -/
def numSlots : Nat := 100

instance : NeZero numSlots := ⟨by decide⟩

-- ============================================================ shared memory

/-- The members of `SharedMemory`, which all threads share. -/
structure SharedMemory where
  memory : Fin numSlots → Int
  nextWriteSlot : Nat
  nextReadSlot : Nat
  semWrite : Nat
  semRead : Nat

/-- The constructor: both semaphores initialized, the memory cleared,
both counters stored to 0. -/
def SharedMemory.new : SharedMemory where
  memory := fun _ => 0
  nextWriteSlot := 0
  nextReadSlot := 0
  semWrite := numSlots
  semRead := 0

/-- Where a thread stands in `Write(value)`: before the named step. -/
inductive WritePc
  | idle
  | wait (value : Int)
  | claim (value : Int)
  | store (value : Int) (ticket : Nat)
  | post
  deriving DecidableEq, Repr

/-- Where a thread stands in `Read(value)`: before the named step. -/
inductive ReadPc
  | idle
  | wait
  | claim
  | load (ticket : Nat)
  | post (value : Int)
  deriving DecidableEq, Repr

/-- The next step of `Write`: wait for room, claim a ticket, store into
its slot, post that there is something to read. -/
def SharedMemory.write (m : SharedMemory) :
    WritePc → Option (WritePc × SharedMemory)
  | .idle => none
  | .wait value =>
      if 0 < m.semWrite then
        some (.claim value, { m with semWrite := m.semWrite - 1 })
      else none
  | .claim value =>
      some (.store value m.nextWriteSlot,
        { m with nextWriteSlot := m.nextWriteSlot + 1 })
  | .store value ticket =>
      some (.post, { m with
        memory := Function.update m.memory (slot numSlots ticket) value })
  | .post => some (.idle, { m with semRead := m.semRead + 1 })

/-- The next step of `Read`: wait for something to read, claim a ticket,
load its slot, post that there is room. -/
def SharedMemory.read (m : SharedMemory) :
    ReadPc → Option (ReadPc × SharedMemory)
  | .idle => none
  | .wait =>
      if 0 < m.semRead then
        some (.claim, { m with semRead := m.semRead - 1 })
      else none
  | .claim =>
      some (.load m.nextReadSlot,
        { m with nextReadSlot := m.nextReadSlot + 1 })
  | .load ticket => some (.post (m.memory (slot numSlots ticket)), m)
  | .post _ => some (.idle, { m with semWrite := m.semWrite + 1 })

-- ================================================================ the system

/-- The shared memory and where every thread stands. -/
structure State (W R : Type) where
  mem : SharedMemory
  writer : W → WritePc
  reader : R → ReadPc

/-- What the scheduler picks: a thread to call, or a thread to move. -/
inductive Act (W R : Type)
  | callWrite (w : W) (value : Int)
  | write (w : W)
  | callRead (r : R)
  | read (r : R)

variable {W R : Type} [DecidableEq W] [DecidableEq R]

/-- One step of one thread. -/
def step (s : State W R) : Act W R → Option (State W R)
  | .callWrite w value =>
      match s.writer w with
      | .idle =>
          some { s with writer := Function.update s.writer w (.wait value) }
      | _ => none
  | .write w =>
      (s.mem.write (s.writer w)).map fun (pc, m) =>
        { s with mem := m, writer := Function.update s.writer w pc }
  | .callRead r =>
      match s.reader r with
      | .idle => some { s with reader := Function.update s.reader r .wait }
      | _ => none
  | .read r =>
      (s.mem.read (s.reader r)).map fun (pc, m) =>
        { s with mem := m, reader := Function.update s.reader r pc }

/-- The ring with writer threads `W` and reader threads `R`, both sides
started once. -/
def ring (W R : Type) [DecidableEq W] [DecidableEq R] :
    System (State W R) (Act W R) where
  init := { mem := .new, writer := fun _ => .idle, reader := fun _ => .idle }
  step := step

-- ============================================================== observations

/-- What a run is observed to do: a `Write(value)` obtains its ticket, a
slot is stored, a slot is loaded, a `Read` returns its value. -/
inductive Event
  | claimed (ticket : Nat) (value : Int)
  | stored
  | loaded
  | returned (value : Int)
  deriving DecidableEq, Repr

/-- What the next step of a thread is observed to do. -/
def obs (s : State W R) : Act W R → List Event
  | .write w =>
      match s.writer w with
      | .claim value => [.claimed s.mem.nextWriteSlot value]
      | .store _ _ => [.stored]
      | _ => []
  | .read r =>
      match s.reader r with
      | .load _ => [.loaded]
      | .post value => [.returned value]
      | _ => []
  | _ => []

/-- The values returned by `Read`, in order. -/
def returns (l : List Event) : List Int :=
  l.filterMap fun
    | .returned value => some value
    | _ => none

/-- The ring with the log of what it did. -/
abbrev logged (W R : Type) [DecidableEq W] [DecidableEq R] :
    System (State W R × List Event) (Act W R) :=
  (ring W R).withLog obs

-- ======================================================== what a step can do

/-- The steps of the ring, one constructor for each: the program point
the thread leaves, the effect, and what is observed. -/
inductive Moves (s : State W R) :
    Act W R → State W R → List Event → Prop
  | callWrite {w : W} {v : Int} (hpc : s.writer w = .idle) :
      Moves s (.callWrite w v)
        { s with writer := Function.update s.writer w (.wait v) } []
  | waitWrite {w : W} {v : Int} (hpc : s.writer w = .wait v)
      (hsem : 0 < s.mem.semWrite) :
      Moves s (.write w)
        { s with
          mem := { s.mem with semWrite := s.mem.semWrite - 1 }
          writer := Function.update s.writer w (.claim v) } []
  | claimWrite {w : W} {v : Int} (hpc : s.writer w = .claim v) :
      Moves s (.write w)
        { s with
          mem := { s.mem with nextWriteSlot := s.mem.nextWriteSlot + 1 }
          writer := Function.update s.writer w
            (.store v s.mem.nextWriteSlot) }
        [.claimed s.mem.nextWriteSlot v]
  | store {w : W} {v : Int} {t : Nat} (hpc : s.writer w = .store v t) :
      Moves s (.write w)
        { s with
          mem := { s.mem with
            memory := Function.update s.mem.memory (slot numSlots t) v }
          writer := Function.update s.writer w .post } [.stored]
  | postWrite {w : W} (hpc : s.writer w = .post) :
      Moves s (.write w)
        { s with
          mem := { s.mem with semRead := s.mem.semRead + 1 }
          writer := Function.update s.writer w .idle } []
  | callRead {r : R} (hpc : s.reader r = .idle) :
      Moves s (.callRead r)
        { s with reader := Function.update s.reader r .wait } []
  | waitRead {r : R} (hpc : s.reader r = .wait)
      (hsem : 0 < s.mem.semRead) :
      Moves s (.read r)
        { s with
          mem := { s.mem with semRead := s.mem.semRead - 1 }
          reader := Function.update s.reader r .claim } []
  | claimRead {r : R} (hpc : s.reader r = .claim) :
      Moves s (.read r)
        { s with
          mem := { s.mem with nextReadSlot := s.mem.nextReadSlot + 1 }
          reader := Function.update s.reader r (.load s.mem.nextReadSlot) }
        []
  | load {r : R} {t : Nat} (hpc : s.reader r = .load t) :
      Moves s (.read r)
        { s with
          reader := Function.update s.reader r
            (.post (s.mem.memory (slot numSlots t))) } [.loaded]
  | postRead {r : R} {v : Int} (hpc : s.reader r = .post v) :
      Moves s (.read r)
        { s with
          mem := { s.mem with semWrite := s.mem.semWrite + 1 }
          reader := Function.update s.reader r .idle } [.returned v]

/-- Every step is one of them. -/
theorem step_moves {s s' : State W R} {a : Act W R}
    (h : step s a = some s') : Moves s a s' (obs s a) := by
  cases a with
  | callWrite w v =>
      cases hpc : s.writer w with
      | idle =>
          simp only [step, hpc, Option.some.injEq] at h
          exact h ▸ .callWrite hpc
      | _ => simp [step, hpc] at h
  | write w =>
      cases hpc : s.writer w with
      | idle => simp [step, SharedMemory.write, hpc] at h
      | wait v =>
          by_cases hsem : 0 < s.mem.semWrite
          · simp only [step, SharedMemory.write, hpc, if_pos hsem,
              Option.map_some, Option.some.injEq] at h
            simp only [obs, hpc]
            exact h ▸ .waitWrite hpc hsem
          · simp [step, SharedMemory.write, hpc, hsem] at h
      | claim v =>
          simp only [step, SharedMemory.write, hpc, Option.map_some,
            Option.some.injEq] at h
          simp only [obs, hpc]
          exact h ▸ .claimWrite hpc
      | store v t =>
          simp only [step, SharedMemory.write, hpc, Option.map_some,
            Option.some.injEq] at h
          simp only [obs, hpc]
          exact h ▸ .store hpc
      | post =>
          simp only [step, SharedMemory.write, hpc, Option.map_some,
            Option.some.injEq] at h
          simp only [obs, hpc]
          exact h ▸ .postWrite hpc
  | callRead r =>
      cases hpc : s.reader r with
      | idle =>
          simp only [step, hpc, Option.some.injEq] at h
          exact h ▸ .callRead hpc
      | _ => simp [step, hpc] at h
  | read r =>
      cases hpc : s.reader r with
      | idle => simp [step, SharedMemory.read, hpc] at h
      | wait =>
          by_cases hsem : 0 < s.mem.semRead
          · simp only [step, SharedMemory.read, hpc, if_pos hsem,
              Option.map_some, Option.some.injEq] at h
            simp only [obs, hpc]
            exact h ▸ .waitRead hpc hsem
          · simp [step, SharedMemory.read, hpc, hsem] at h
      | claim =>
          simp only [step, SharedMemory.read, hpc, Option.map_some,
            Option.some.injEq] at h
          simp only [obs, hpc]
          exact h ▸ .claimRead hpc
      | load t =>
          simp only [step, SharedMemory.read, hpc, Option.map_some,
            Option.some.injEq] at h
          simp only [obs, hpc]
          exact h ▸ .load hpc
      | post v =>
          simp only [step, SharedMemory.read, hpc, Option.map_some,
            Option.some.injEq] at h
          simp only [obs, hpc]
          exact h ▸ .postRead hpc

/-- The same with the log. -/
theorem logged_moves {s s' : State W R} {l l' : List Event} {a : Act W R}
    (h : (logged W R).step (s, l) a = some (s', l')) :
    ∃ es, Moves s a s' es ∧ l' = l ++ es :=
  have ⟨hstep, hl⟩ := System.withLog_step.mp h
  ⟨_, step_moves hstep, hl⟩

end DailyStudy.Sem
