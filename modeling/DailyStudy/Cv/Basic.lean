/-
The mutex/condition-variable ring of mmap4_cv.cc: `SharedMemory::Write`
and `SharedMemory::Read`, by any number of threads, with every lock
acquisition, wait, notification and spurious wake-up a step of its own.

# The condition variables

`wait(lock, pred)` is the loop of the standard: while `pred` is false,
release the mutex and fall asleep in one step; a thread that is woken,
by a notification or for no reason, has to take the mutex again before
it evaluates `pred` again. Nobody hands the mutex over, so a thread that
arrives later may take it first.

`notify_one` wakes one sleeper of the scheduler's choice and may find
none only when there is none; `notify_all` wakes them all. Both are
called with the mutex still held; the `unique_lock` releases it when the
method returns.
-/
import DailyStudy.Lib.Fifo
import DailyStudy.Lib.Slots
import Mathlib.Data.Fintype.Basic

namespace DailyStudy.Cv

open Interleave

/-- `NUM_SLOTS`. -/
def numSlots : Nat := 100

instance : NeZero numSlots := ⟨by decide⟩

-- ============================================================ shared memory

/-- The members of `SharedMemory`. The mutex names its owner; the wait
sets of the two condition variables are the threads that stand at
`asleep`. -/
structure SharedMemory (W R : Type) where
  memory : Fin numSlots → Int
  nextWriteSlot : Nat
  nextReadSlot : Nat
  mutex : Option (W ⊕ R)

/-- The constructor: the memory cleared, both counters stored to 0. -/
def SharedMemory.new (W R : Type) : SharedMemory W R where
  memory := fun _ => 0
  nextWriteSlot := 0
  nextReadSlot := 0
  mutex := none

/-- Where a thread stands in `Write(value)`: before the named step, or
asleep in `data_available_`, or woken from it. -/
inductive WritePc
  | idle
  | acquire (value : Int)
  | check (value : Int)
  | asleep (value : Int)
  | woken (value : Int)
  | claim (value : Int)
  | store (value : Int) (ticket : Nat)
  | notify (value : Int)
  | unlock (value : Int)
  deriving DecidableEq, Repr

/-- Where a thread stands in `Read(value)`: before the named step, or
asleep in `data_ready_`, or woken from it. -/
inductive ReadPc
  | idle
  | acquire
  | check
  | asleep
  | woken
  | claim
  | load (ticket : Nat)
  | notify (value : Int)
  | unlock (value : Int)
  deriving DecidableEq, Repr

/-- The writer's predicate: there is room. -/
def SharedMemory.canWrite {W R : Type} (m : SharedMemory W R) : Prop :=
  (m.nextWriteSlot : Int) - m.nextReadSlot < numSlots

/-- The reader's predicate: there is something to read. -/
def SharedMemory.canRead {W R : Type} (m : SharedMemory W R) : Prop :=
  m.nextReadSlot < m.nextWriteSlot

instance {W R : Type} (m : SharedMemory W R) : Decidable m.canWrite :=
  inferInstanceAs (Decidable (_ < _))

instance {W R : Type} (m : SharedMemory W R) : Decidable m.canRead :=
  inferInstanceAs (Decidable (_ < _))

/-- A sleeping writer is woken; any other is where it was. -/
def WritePc.wake : WritePc → WritePc
  | .asleep value => .woken value
  | pc => pc

-- ================================================================ the system

/-- The shared memory and where every thread stands. -/
structure State (W R : Type) where
  mem : SharedMemory W R
  writer : W → WritePc
  reader : R → ReadPc

/-- What the scheduler picks: a thread to call or to move, a sleeper for
`notify_one`, or a spurious wake-up. -/
inductive Act (W R : Type)
  | callWrite (w : W) (value : Int)
  | write (w : W)
  | notifyOne (w : W) (sleeper : Option R)
  | spuriousWrite (w : W)
  | callRead (r : R)
  | read (r : R)
  | spuriousRead (r : R)

variable {W R : Type} [DecidableEq W] [DecidableEq R]

/-- Take the mutex and go on to evaluate the predicate. -/
def lockWrite (s : State W R) (w : W) (value : Int) : Option (State W R) :=
  match s.mem.mutex with
  | none =>
      some { s with
        mem := { s.mem with mutex := some (.inl w) }
        writer := Function.update s.writer w (.check value) }
  | some _ => none

/-- The next step of `Write`, where the scheduler has no choice. -/
def stepWrite (s : State W R) (w : W) : Option (State W R) :=
  match s.writer w with
  | .acquire value => lockWrite s w value
  | .woken value => lockWrite s w value
  | .check value =>
      if s.mem.canWrite then
        some { s with writer := Function.update s.writer w (.claim value) }
      else
        some { s with
          mem := { s.mem with mutex := none }
          writer := Function.update s.writer w (.asleep value) }
  | .claim value =>
      some { s with
        mem := { s.mem with nextWriteSlot := s.mem.nextWriteSlot + 1 }
        writer := Function.update s.writer w
          (.store value s.mem.nextWriteSlot) }
  | .store value ticket =>
      some { s with
        mem := { s.mem with
          memory :=
            Function.update s.mem.memory (slot numSlots ticket) value }
        writer := Function.update s.writer w (.notify value) }
  | .unlock _ =>
      some { s with
        mem := { s.mem with mutex := none }
        writer := Function.update s.writer w .idle }
  | .idle | .asleep _ | .notify _ => none

/-- Take the mutex and go on to evaluate the predicate. -/
def lockRead (s : State W R) (r : R) : Option (State W R) :=
  match s.mem.mutex with
  | none =>
      some { s with
        mem := { s.mem with mutex := some (.inr r) }
        reader := Function.update s.reader r .check }
  | some _ => none

/-- The next step of `Read`. -/
def stepRead (s : State W R) (r : R) : Option (State W R) :=
  match s.reader r with
  | .acquire => lockRead s r
  | .woken => lockRead s r
  | .check =>
      if s.mem.canRead then
        some { s with reader := Function.update s.reader r .claim }
      else
        some { s with
          mem := { s.mem with mutex := none }
          reader := Function.update s.reader r .asleep }
  | .claim =>
      some { s with
        mem := { s.mem with nextReadSlot := s.mem.nextReadSlot + 1 }
        reader := Function.update s.reader r (.load s.mem.nextReadSlot) }
  | .load ticket =>
      some { s with
        reader := Function.update s.reader r
          (.notify (s.mem.memory (slot numSlots ticket))) }
  | .notify value =>
      -- `data_available_.notify_all()`
      some { s with
        writer := fun w => (s.writer w).wake
        reader := Function.update s.reader r (.unlock value) }
  | .unlock _ =>
      some { s with
        mem := { s.mem with mutex := none }
        reader := Function.update s.reader r .idle }
  | .idle | .asleep => none

/-- One step of one thread. -/
def step [Fintype R] (s : State W R) : Act W R → Option (State W R)
  | .callWrite w value =>
      match s.writer w with
      | .idle =>
          some { s with
            writer := Function.update s.writer w (.acquire value) }
      | _ => none
  | .write w => stepWrite s w
  | .notifyOne w sleeper =>
      -- `data_ready_.notify_one()`
      match s.writer w, sleeper with
      | .notify value, some r =>
          if s.reader r = .asleep then
            some { s with
              writer := Function.update s.writer w (.unlock value)
              reader := Function.update s.reader r .woken }
          else none
      | .notify value, none =>
          if ∀ r, s.reader r ≠ .asleep then
            some { s with
              writer := Function.update s.writer w (.unlock value) }
          else none
      | _, _ => none
  | .spuriousWrite w =>
      match s.writer w with
      | .asleep value =>
          some { s with writer := Function.update s.writer w (.woken value) }
      | _ => none
  | .callRead r =>
      match s.reader r with
      | .idle => some { s with reader := Function.update s.reader r .acquire }
      | _ => none
  | .read r => stepRead s r
  | .spuriousRead r =>
      match s.reader r with
      | .asleep => some { s with reader := Function.update s.reader r .woken }
      | _ => none

/-- The ring with writer threads `W` and reader threads `R`. -/
def ring (W R : Type) [DecidableEq W] [DecidableEq R] [Fintype R] :
    System (State W R) (Act W R) where
  init :=
    { mem := .new W R, writer := fun _ => .idle, reader := fun _ => .idle }
  step := step

/-- What is observed: a `Write` completes, a `Read` completes, when it
releases the mutex. -/
def obs (s : State W R) : Act W R → List (QueueOp Int)
  | .write w =>
      match s.writer w with
      | .unlock value => [.put value]
      | _ => []
  | .read r =>
      match s.reader r with
      | .unlock value => [.get value]
      | _ => []
  | _ => []

-- ======================================================== what a step can do

/-- The steps of the ring, one constructor for each: the program point
the thread leaves, the guard, the effect, and what is observed. -/
inductive Moves (s : State W R) :
    Act W R → State W R → List (QueueOp Int) → Prop
  | callWrite {w : W} {v : Int} (hpc : s.writer w = .idle) :
      Moves s (.callWrite w v)
        { s with writer := Function.update s.writer w (.acquire v) } []
  | lockWrite {w : W} {v : Int}
      (hpc : s.writer w = .acquire v ∨ s.writer w = .woken v)
      (hfree : s.mem.mutex = none) :
      Moves s (.write w)
        { s with
          mem := { s.mem with mutex := some (.inl w) }
          writer := Function.update s.writer w (.check v) } []
  | passWrite {w : W} {v : Int} (hpc : s.writer w = .check v)
      (hpred : s.mem.canWrite) :
      Moves s (.write w)
        { s with writer := Function.update s.writer w (.claim v) } []
  | sleepWrite {w : W} {v : Int} (hpc : s.writer w = .check v)
      (hpred : ¬ s.mem.canWrite) :
      Moves s (.write w)
        { s with
          mem := { s.mem with mutex := none }
          writer := Function.update s.writer w (.asleep v) } []
  | claimWrite {w : W} {v : Int} (hpc : s.writer w = .claim v) :
      Moves s (.write w)
        { s with
          mem := { s.mem with nextWriteSlot := s.mem.nextWriteSlot + 1 }
          writer := Function.update s.writer w
            (.store v s.mem.nextWriteSlot) } []
  | store {w : W} {v : Int} {t : Nat} (hpc : s.writer w = .store v t) :
      Moves s (.write w)
        { s with
          mem := { s.mem with
            memory := Function.update s.mem.memory (slot numSlots t) v }
          writer := Function.update s.writer w (.notify v) } []
  | notifyOne {w : W} {v : Int} {r : R} (hpc : s.writer w = .notify v)
      (hr : s.reader r = .asleep) :
      Moves s (.notifyOne w (some r))
        { s with
          writer := Function.update s.writer w (.unlock v)
          reader := Function.update s.reader r .woken } []
  | notifyNone {w : W} {v : Int} (hpc : s.writer w = .notify v)
      (hnone : ∀ r, s.reader r ≠ .asleep) :
      Moves s (.notifyOne w none)
        { s with writer := Function.update s.writer w (.unlock v) } []
  | unlockWrite {w : W} {v : Int} (hpc : s.writer w = .unlock v) :
      Moves s (.write w)
        { s with
          mem := { s.mem with mutex := none }
          writer := Function.update s.writer w .idle } [.put v]
  | spuriousWrite {w : W} {v : Int} (hpc : s.writer w = .asleep v) :
      Moves s (.spuriousWrite w)
        { s with writer := Function.update s.writer w (.woken v) } []
  | callRead {r : R} (hpc : s.reader r = .idle) :
      Moves s (.callRead r)
        { s with reader := Function.update s.reader r .acquire } []
  | lockRead {r : R}
      (hpc : s.reader r = .acquire ∨ s.reader r = .woken)
      (hfree : s.mem.mutex = none) :
      Moves s (.read r)
        { s with
          mem := { s.mem with mutex := some (.inr r) }
          reader := Function.update s.reader r .check } []
  | passRead {r : R} (hpc : s.reader r = .check) (hpred : s.mem.canRead) :
      Moves s (.read r)
        { s with reader := Function.update s.reader r .claim } []
  | sleepRead {r : R} (hpc : s.reader r = .check)
      (hpred : ¬ s.mem.canRead) :
      Moves s (.read r)
        { s with
          mem := { s.mem with mutex := none }
          reader := Function.update s.reader r .asleep } []
  | claimRead {r : R} (hpc : s.reader r = .claim) :
      Moves s (.read r)
        { s with
          mem := { s.mem with nextReadSlot := s.mem.nextReadSlot + 1 }
          reader := Function.update s.reader r (.load s.mem.nextReadSlot) }
        []
  | load {r : R} {t : Nat} (hpc : s.reader r = .load t) :
      Moves s (.read r)
        { s with
          reader := Function.update s.reader r
            (.notify (s.mem.memory (slot numSlots t))) } []
  | notifyAll {r : R} {v : Int} (hpc : s.reader r = .notify v) :
      Moves s (.read r)
        { s with
          writer := fun w => (s.writer w).wake
          reader := Function.update s.reader r (.unlock v) } []
  | unlockRead {r : R} {v : Int} (hpc : s.reader r = .unlock v) :
      Moves s (.read r)
        { s with
          mem := { s.mem with mutex := none }
          reader := Function.update s.reader r .idle } [.get v]
  | spuriousRead {r : R} (hpc : s.reader r = .asleep) :
      Moves s (.spuriousRead r)
        { s with reader := Function.update s.reader r .woken } []

private theorem stepWrite_moves {s s' : State W R} {w : W}
    (h : stepWrite s w = some s') : Moves s (.write w) s' (obs s (.write w)) := by
  cases hpc : s.writer w with
  | idle => simp [stepWrite, hpc] at h
  | asleep v => simp [stepWrite, hpc] at h
  | notify v => simp [stepWrite, hpc] at h
  | acquire v =>
      cases hm : s.mem.mutex with
      | some o => simp [stepWrite, lockWrite, hpc, hm] at h
      | none =>
          simp only [stepWrite, lockWrite, hpc, hm, Option.some.injEq] at h
          simp only [obs, hpc]
          exact h ▸ .lockWrite (.inl hpc) hm
  | woken v =>
      cases hm : s.mem.mutex with
      | some o => simp [stepWrite, lockWrite, hpc, hm] at h
      | none =>
          simp only [stepWrite, lockWrite, hpc, hm, Option.some.injEq] at h
          simp only [obs, hpc]
          exact h ▸ .lockWrite (.inr hpc) hm
  | check v =>
      by_cases hp : s.mem.canWrite
      · simp only [stepWrite, hpc, if_pos hp, Option.some.injEq] at h
        simp only [obs, hpc]
        exact h ▸ .passWrite hpc hp
      · simp only [stepWrite, hpc, if_neg hp, Option.some.injEq] at h
        simp only [obs, hpc]
        exact h ▸ .sleepWrite hpc hp
  | claim v =>
      simp only [stepWrite, hpc, Option.some.injEq] at h
      simp only [obs, hpc]
      exact h ▸ .claimWrite hpc
  | store v t =>
      simp only [stepWrite, hpc, Option.some.injEq] at h
      simp only [obs, hpc]
      exact h ▸ .store hpc
  | unlock v =>
      simp only [stepWrite, hpc, Option.some.injEq] at h
      simp only [obs, hpc]
      exact h ▸ .unlockWrite hpc

private theorem stepRead_moves {s s' : State W R} {r : R}
    (h : stepRead s r = some s') : Moves s (.read r) s' (obs s (.read r)) := by
  cases hpc : s.reader r with
  | idle => simp [stepRead, hpc] at h
  | asleep => simp [stepRead, hpc] at h
  | acquire =>
      cases hm : s.mem.mutex with
      | some o => simp [stepRead, lockRead, hpc, hm] at h
      | none =>
          simp only [stepRead, lockRead, hpc, hm, Option.some.injEq] at h
          simp only [obs, hpc]
          exact h ▸ .lockRead (.inl hpc) hm
  | woken =>
      cases hm : s.mem.mutex with
      | some o => simp [stepRead, lockRead, hpc, hm] at h
      | none =>
          simp only [stepRead, lockRead, hpc, hm, Option.some.injEq] at h
          simp only [obs, hpc]
          exact h ▸ .lockRead (.inr hpc) hm
  | check =>
      by_cases hp : s.mem.canRead
      · simp only [stepRead, hpc, if_pos hp, Option.some.injEq] at h
        simp only [obs, hpc]
        exact h ▸ .passRead hpc hp
      · simp only [stepRead, hpc, if_neg hp, Option.some.injEq] at h
        simp only [obs, hpc]
        exact h ▸ .sleepRead hpc hp
  | claim =>
      simp only [stepRead, hpc, Option.some.injEq] at h
      simp only [obs, hpc]
      exact h ▸ .claimRead hpc
  | load t =>
      simp only [stepRead, hpc, Option.some.injEq] at h
      simp only [obs, hpc]
      exact h ▸ .load hpc
  | notify v =>
      simp only [stepRead, hpc, Option.some.injEq] at h
      simp only [obs, hpc]
      exact h ▸ .notifyAll hpc
  | unlock v =>
      simp only [stepRead, hpc, Option.some.injEq] at h
      simp only [obs, hpc]
      exact h ▸ .unlockRead hpc

/-- Every step is one of them. -/
theorem step_moves [Fintype R] {s s' : State W R} {a : Act W R}
    (h : step s a = some s') : Moves s a s' (obs s a) := by
  cases a with
  | write w => exact stepWrite_moves h
  | read r => exact stepRead_moves h
  | callWrite w v =>
      cases hpc : s.writer w with
      | idle =>
          simp only [step, hpc, Option.some.injEq] at h
          exact h ▸ .callWrite hpc
      | _ => simp [step, hpc] at h
  | notifyOne w sleeper =>
      cases hpc : s.writer w with
      | notify v =>
          cases sleeper with
          | none =>
              simp only [step, hpc] at h
              split at h
              case isTrue hnone =>
                injection h with h
                exact h ▸ .notifyNone hpc hnone
              case isFalse => cases h
          | some r =>
              simp only [step, hpc] at h
              split at h
              case isTrue hr =>
                injection h with h
                exact h ▸ .notifyOne hpc hr
              case isFalse => cases h
      | _ => simp [step, hpc] at h
  | spuriousWrite w =>
      cases hpc : s.writer w with
      | asleep v =>
          simp only [step, hpc, Option.some.injEq] at h
          exact h ▸ .spuriousWrite hpc
      | _ => simp [step, hpc] at h
  | callRead r =>
      cases hpc : s.reader r with
      | idle =>
          simp only [step, hpc, Option.some.injEq] at h
          exact h ▸ .callRead hpc
      | _ => simp [step, hpc] at h
  | spuriousRead r =>
      cases hpc : s.reader r with
      | asleep =>
          simp only [step, hpc, Option.some.injEq] at h
          exact h ▸ .spuriousRead hpc
      | _ => simp [step, hpc] at h

end DailyStudy.Cv
