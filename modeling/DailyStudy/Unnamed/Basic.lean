/-
The unnamed-semaphore ring of mmap6: any number of writer processes
(mmap6_ipc_unamed_sem_w.cc) and one reader process
(mmap6_ipc_unamed_sem_r.cc) on one segment.

The semaphores and the data live in the segment, which persists; the
counters are members of a process. The writer's constructor means to
initialize the semaphores only once, in the process that creates the
segment, but its guard loads a counter it has just stored 0 to, so that
every writer start initializes them.

The bodies of `Write` and `Read` are those of a process with counters of
its own (`Sem.Private.write`, `Sem.Private.read`), on the segment. After
`2 ^ 31` calls a process computes a slot that is not in the ring; what such
an access does is undefined, and nothing is known of the system from then
on.
-/
import DailyStudy.Sem.Calls
import DailyStudy.Lib.Accesses

namespace DailyStudy.Unnamed

open Interleave
open Sem (Private Shared Call)

/-- `SharedData`. -/
structure SharedData where
  semWrite : Nat
  semRead : Nat
  data : Fin Sem.numSlots → Int

/-- A segment `shm_open` just created: `ftruncate` fills it with zero
bytes. -/
def SharedData.fresh : SharedData where
  semWrite := 0
  semRead := 0
  data := fun _ => 0

/-- The guarded `sem_init` of the writer's constructor, in a process with
the members `p`. -/
def SharedData.initSemaphores (m : SharedData) (p : Private) :
    SharedData :=
  if p.nextWriteSlot = 0 then
    { m with semWrite := Sem.numSlots, semRead := 0 }
  else m

/-- The members that a process shares. -/
def SharedData.shared (m : SharedData) : Shared where
  memory := m.data
  semWrite := m.semWrite
  semRead := m.semRead

/-- The segment, as a process left it. -/
def segmentOf (m : Shared) : SharedData where
  semWrite := m.semWrite
  semRead := m.semRead
  data := m.memory

/-- The segment (none: not created), and the processes that are alive. -/
structure State (P : Type) where
  segment : Option SharedData
  writer : P → Option Private
  reader : Option Private

variable {P : Type} [DecidableEq P]

-- ================================================================ the programs

/-- A writer process starts: it creates or opens the segment, stores its
counters to 0 and initializes the semaphores. -/
def State.startWriter (s : State P) (p : P) : Option (State P) :=
  match s.writer p with
  | some _ => none
  | none =>
      let m := s.segment.getD .fresh
      some { s with
        segment := some (m.initSemaphores .new)
        writer := Function.update s.writer p (some .new) }

/-- The reader process starts: it opens the segment and stores its
counters to 0, or exits when there is none. -/
def State.startReader (s : State P) : Option (State P) :=
  match s.reader, s.segment with
  | some _, _ => none
  | none, some _ => some { s with reader := some .new }
  | none, none => some s

/-- A writer process calls `Write(value)` and returns. -/
def State.write (s : State P) (p : P) (value : Int) : Call (State P) :=
  match s.writer p, s.segment with
  | some q, some m =>
      (q.write m.shared value).map fun (q', m') =>
        { s with
          segment := some (segmentOf m')
          writer := Function.update s.writer p (some q') }
  | _, _ => .blocked

/-- The reader calls `Read` and returns, with the value. -/
def State.read (s : State P) : Call (Int × State P) :=
  match s.reader, s.segment with
  | some q, some m =>
      (q.read m.shared).map fun (value, q', m') =>
        (value, { s with
          segment := some (segmentOf m')
          reader := some q' })
  | _, _ => .blocked

-- ================================================================== sequences

/-- One event of the system. -/
inductive Event (P : Type)
  | startWriter (p : P)
  | startReader
  | write (p : P) (value : Int)
  | read

/-- The processes, from a system without the segment on; a call occurs
only when its `sem_wait` can pass. After a call that is undefined (none)
anything may happen. -/
def processes (P : Type) [DecidableEq P] :
    System (Option (State P)) (Event P) where
  init := some { segment := none, writer := fun _ => none, reader := none }
  step
    | none, _ => some none
    | some s, .startWriter p => (s.startWriter p).map some
    | some s, .startReader => s.startReader.map some
    | some s, .write p value => (s.write p value).step
    | some s, .read => (s.read.map Prod.snd).step

/-- The slot an event stores into or loads. -/
def accesses : Option (State P) → Event P → List (Access Sem.numSlots)
  | some s, .write p _ =>
      match s.writer p with
      | some q => (Sem.slotOf q.nextWriteSlot).toList.map .stored
      | none => []
  | some s, .read =>
      match s.reader with
      | some q => (Sem.slotOf q.nextReadSlot).toList.map .loaded
      | none => []
  | _, _ => []

/-- The processes with the history of the slots. -/
abbrev logged (P : Type) [DecidableEq P] :
    System (Option (State P) × List (Access Sem.numSlots)) (Event P) :=
  (processes P).withLog accesses

-- ======================================================= what an event can do

/-- The events, one constructor for each way one can go, with the slots
accessed. -/
inductive Happens (s : State P) :
    Event P → Option (State P) → List (Access Sem.numSlots) → Prop
  | startWriter {p : P} (hdead : s.writer p = none) :
      Happens s (.startWriter p)
        (some { s with
          segment := some ((s.segment.getD .fresh).initSemaphores .new)
          writer := Function.update s.writer p (some .new) }) []
  | startReader {m : SharedData} (hdead : s.reader = none)
      (hseg : s.segment = some m) :
      Happens s .startReader (some { s with reader := some .new }) []
  | exitReader (hdead : s.reader = none) (hseg : s.segment = none) :
      Happens s .startReader (some s) []
  | write {p : P} {value : Int} {q : Private} {m : SharedData}
      {c : Fin Sem.numSlots} (hlive : s.writer p = some q)
      (hseg : s.segment = some m) (hsem : 0 < m.semWrite)
      (hslot : Sem.slotOf q.nextWriteSlot = some c) :
      Happens s (.write p value)
        (some { s with
          segment := some
            { semWrite := m.semWrite - 1
              semRead := m.semRead + 1
              data := Function.update m.data c value }
          writer := Function.update s.writer p
            (some { q with nextWriteSlot := q.nextWriteSlot + 1 }) })
        [.stored c]
  | writeOutside {p : P} {value : Int} {q : Private}
      (hlive : s.writer p = some q)
      (hslot : Sem.slotOf q.nextWriteSlot = none) :
      Happens s (.write p value) none []
  | read {q : Private} {m : SharedData} {c : Fin Sem.numSlots}
      (hlive : s.reader = some q) (hseg : s.segment = some m)
      (hsem : 0 < m.semRead)
      (hslot : Sem.slotOf q.nextReadSlot = some c) :
      Happens s .read
        (some { s with
          segment := some
            { semWrite := m.semWrite + 1
              semRead := m.semRead - 1
              data := m.data }
          reader := some { q with nextReadSlot := q.nextReadSlot + 1 } })
        [.loaded c]
  | readOutside {q : Private} (hlive : s.reader = some q)
      (hslot : Sem.slotOf q.nextReadSlot = none) :
      Happens s .read none []

/-- A `Write` goes one of its two ways. -/
theorem write_happens {s : State P} {p : P} {value : Int}
    {o : Option (State P)} (h : (s.write p value).step = some o) :
    Happens s (.write p value) o (accesses (some s) (.write p value)) := by
  unfold State.write at h
  split at h
  next q m hlive hseg =>
    simp only [accesses, hlive]
    rcases Call.step_eq_some h with ⟨hcall, rfl⟩ | ⟨s', hcall, rfl⟩
    · have hslot := Sem.write_eq_undefined (Call.map_eq_undefined hcall)
      rw [hslot]
      exact .writeOutside hlive hslot
    · obtain ⟨res, hdone, rfl⟩ := Call.map_eq_done hcall
      obtain ⟨hsem, c, hslot, rfl⟩ := Sem.write_eq_done hdone
      rw [hslot]
      exact .write hlive hseg hsem hslot
  next => cases h

/-- So does a `Read`. -/
theorem read_happens {s : State P} {o : Option (State P)}
    (h : (s.read.map Prod.snd).step = some o) :
    Happens s .read o (accesses (some s) .read) := by
  rcases Call.step_eq_some h with ⟨hcall, rfl⟩ | ⟨s', hcall, rfl⟩
  · have hread := Call.map_eq_undefined hcall
    unfold State.read at hread
    split at hread
    next q m hlive hseg =>
      have hslot := Sem.read_eq_undefined (Call.map_eq_undefined hread)
      simp only [accesses, hlive, hslot]
      exact .readOutside hlive hslot
    next => cases hread
  · obtain ⟨⟨value, s''⟩, hread, rfl⟩ := Call.map_eq_done hcall
    unfold State.read at hread
    split at hread
    next q m hlive hseg =>
      obtain ⟨res, hdone, hres⟩ := Call.map_eq_done hread
      obtain ⟨hsem, c, hslot, rfl⟩ := Sem.read_eq_done hdone
      cases hres
      simp only [accesses, hlive, hslot]
      exact .read hlive hseg hsem hslot
    next => cases hread

/-- Every event goes one of these ways. -/
theorem step_happens {s : State P} {o : Option (State P)} {a : Event P}
    (h : (processes P).step (some s) a = some o) :
    Happens s a o (accesses (some s) a) := by
  cases a with
  | startWriter p =>
      obtain ⟨s', hs, rfl⟩ := Option.map_eq_some_iff.mp h
      unfold State.startWriter at hs
      split at hs
      next => cases hs
      next hdead => exact Option.some.inj hs ▸ .startWriter hdead
  | startReader =>
      obtain ⟨s', hs, rfl⟩ := Option.map_eq_some_iff.mp h
      unfold State.startReader at hs
      split at hs
      next => cases hs
      next m hdead hseg => exact Option.some.inj hs ▸ .startReader hdead hseg
      next hdead hseg => exact Option.some.inj hs ▸ .exitReader hdead hseg
  | write p value => exact write_happens h
  | read => exact read_happens h

end DailyStudy.Unnamed
