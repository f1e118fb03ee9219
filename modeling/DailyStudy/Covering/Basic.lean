/-
The covering ring of mmap7: `SharedMemory::Write` of
mmap7_ipc_unamed_sem_covering_w.cc, by any number of writer threads, and
`SharedMemory::Read` of mmap7_ipc_unamed_sem_r.cc, by one reader thread,
over one shared segment.

# The acquisition loop

Both bodies first spin while `(next_write_slot_ - next_read_slot_ +
NUM_SLOTS) % NUM_SLOTS == 0`, and break out of the loop when
`compare_exchange_strong` moves `rw_status` from `IDLE` (the member
`expected_status_` is never stored to) to their own status. So there are
two ways out of it, and one of them takes no lock. The loop is one
definition, `SharedData.acquire`; the two loads of its condition are two
steps, in the order they are written.

`Write` never waits on `sem_write`: a writer may lap the reader.
-/
import DailyStudy.Lib.System
import DailyStudy.Lib.Slots

namespace DailyStudy.Covering

open Interleave

/-- `NUM_SLOTS`. -/
def numSlots : Nat := 50

instance : NeZero numSlots := ⟨by decide⟩

/-- The destructor's `end_flag`, which `Read` compares with. -/
def endFlag : Int := 999

-- ============================================================== shared segment

/-- `RWStatus`. -/
inductive RWStatus
  | idle
  | writing
  | reading
  deriving DecidableEq, Repr

/-- `SharedData`, in the segment all threads of both processes map. -/
structure SharedData where
  semWrite : Nat
  semRead : Nat
  rwStatus : RWStatus
  nextWriteSlot : Nat
  nextReadSlot : Nat
  data : Fin numSlots → Int

/-- A segment `shm_open` just created: `ftruncate` fills it with zero
bytes, and `IDLE` is 0. -/
def SharedData.fresh : SharedData where
  semWrite := 0
  semRead := 0
  rwStatus := .idle
  nextWriteSlot := 0
  nextReadSlot := 0
  data := fun _ => 0

/-- The writer's constructor, on the segment it finds: both counters
stored to 0, and then, because the first of them is 0, the semaphores
initialized and the status stored to `IDLE`. The data stays. -/
def SharedData.construct (m : SharedData) : SharedData :=
  let m := { m with nextWriteSlot := 0, nextReadSlot := 0 }
  if m.nextWriteSlot = 0 then
    { m with semWrite := numSlots, semRead := 0, rwStatus := .idle }
  else m

/-- The condition of the acquisition loop, on the two loaded counters.
The subtraction is `int`'s and `%` truncates. -/
def spins (written read : Nat) : Prop :=
  Int.tmod ((written : Int) - read + numSlots) numSlots = 0

instance (written read : Nat) : Decidable (spins written read) :=
  inferInstanceAs (Decidable (_ = _))

-- ============================================================== program points

/-- Where a thread stands in the acquisition loop: before one of the two
loads of its condition, or before the exchange. -/
inductive LoopPc
  | loadWrite
  | loadRead (written : Nat)
  | exchange
  deriving DecidableEq, Repr

/-- The next step of the loop; `none`: it is left. -/
def SharedData.acquire (m : SharedData) (status : RWStatus) :
    LoopPc → Option LoopPc × SharedData
  | .loadWrite => (some (.loadRead m.nextWriteSlot), m)
  | .loadRead written =>
      if spins written m.nextReadSlot then (some .exchange, m) else (none, m)
  | .exchange =>
      if m.rwStatus = .idle then (none, { m with rwStatus := status })
      else (some .loadWrite, m)

/-- Where a thread stands in `Write(value)`: before the named step. -/
inductive WritePc
  | idle
  | loop (value : Int) (pc : LoopPc)
  | claim (value : Int)
  | store (value : Int) (ticket : Nat)
  | post
  | release
  deriving DecidableEq, Repr

/-- Where a thread stands in `Read(value, should_continue)`: before the
named step. -/
inductive ReadPc
  | idle
  | wait
  | loop (pc : LoopPc)
  | claim
  | load (ticket : Nat)
  | test (value : Int)
  | release (value : Int)
  deriving DecidableEq, Repr

/-- The next step of `Write`. -/
def SharedData.write (m : SharedData) :
    WritePc → Option (WritePc × SharedData)
  | .idle => none
  | .loop value pc =>
      match m.acquire .writing pc with
      | (some pc', m') => some (.loop value pc', m')
      | (none, m') => some (.claim value, m')
  | .claim value =>
      some (.store value m.nextWriteSlot,
        { m with nextWriteSlot := m.nextWriteSlot + 1 })
  | .store value ticket =>
      some (.post, { m with
        data := Function.update m.data (slot numSlots ticket) value })
  | .post => some (.release, { m with semRead := m.semRead + 1 })
  | .release => some (.idle, { m with rwStatus := .idle })

/-- The next step of `Read`. What it does to `should_continue` is
`ReadPc.continues`. -/
def SharedData.read (m : SharedData) :
    ReadPc → Option (ReadPc × SharedData)
  | .idle => none
  | .wait =>
      if 0 < m.semRead then
        some (.loop .loadWrite, { m with semRead := m.semRead - 1 })
      else none
  | .loop pc =>
      match m.acquire .reading pc with
      | (some pc', m') => some (.loop pc', m')
      | (none, m') => some (.claim, m')
  | .claim =>
      some (.load m.nextReadSlot,
        { m with nextReadSlot := m.nextReadSlot + 1 })
  | .load ticket => some (.test (m.data (slot numSlots ticket)), m)
  | .test value => some (.release value, m)
  | .release _ => some (.idle, { m with rwStatus := .idle })

/-- `should_continue` after the next step of `Read`: the test of the
value against the end flag is the only one to change it. -/
def ReadPc.continues (shouldContinue : Bool) : ReadPc → Bool
  | .test value => if value = endFlag then false else shouldContinue
  | _ => shouldContinue

-- ================================================================ the system

/-- The segment, where every thread stands, and the reader thread's
`should_continue`. -/
structure State (W : Type) where
  mem : SharedData
  writer : W → WritePc
  reader : ReadPc
  shouldContinue : Bool

/-- What the scheduler picks: a thread to call, or a thread to move. -/
inductive Act (W : Type)
  | callWrite (w : W) (value : Int)
  | write (w : W)
  | callRead
  | read

variable {W : Type} [DecidableEq W]

/-- One step of one thread. -/
def step (s : State W) : Act W → Option (State W)
  | .callWrite w value =>
      match s.writer w with
      | .idle =>
          some { s with
            writer := Function.update s.writer w (.loop value .loadWrite) }
      | _ => none
  | .write w =>
      (s.mem.write (s.writer w)).map fun (pc, m) =>
        { s with mem := m, writer := Function.update s.writer w pc }
  | .callRead =>
      match s.reader with
      | .idle => some { s with reader := .wait }
      | _ => none
  | .read =>
      (s.mem.read s.reader).map fun (pc, m) =>
        { s with
          mem := m
          reader := pc
          shouldContinue := s.reader.continues s.shouldContinue }

/-- The ring with writer threads `W` after one writer start on a new
segment. -/
def ring (W : Type) [DecidableEq W] : System (State W) (Act W) where
  init :=
    { mem := SharedData.fresh.construct
      writer := fun _ => .idle
      reader := .idle
      shouldContinue := true }
  step := step

-- ======================================================== what a step can do

/-- The steps of the ring, one constructor for each: the program point
the thread leaves, the guard and the effect. The loop is left in two
ways, by the exchange (`lockWrite`, `lockRead`) or by its condition
(`slipWrite`, `slipRead`). -/
inductive Moves (s : State W) : Act W → State W → Prop
  | callWrite {w : W} {v : Int} (hpc : s.writer w = .idle) :
      Moves s (.callWrite w v)
        { s with
          writer := Function.update s.writer w (.loop v .loadWrite) }
  | spinWrite {w : W} {v : Int} {pc pc' : LoopPc}
      (hpc : s.writer w = .loop v pc)
      (hacq : s.mem.acquire .writing pc = (some pc', s.mem)) :
      Moves s (.write w)
        { s with writer := Function.update s.writer w (.loop v pc') }
  | slipWrite {w : W} {v : Int} {n : Nat}
      (hpc : s.writer w = .loop v (.loadRead n))
      (htest : ¬ spins n s.mem.nextReadSlot) :
      Moves s (.write w)
        { s with writer := Function.update s.writer w (.claim v) }
  | lockWrite {w : W} {v : Int} (hpc : s.writer w = .loop v .exchange)
      (hidle : s.mem.rwStatus = .idle) :
      Moves s (.write w)
        { s with
          mem := { s.mem with rwStatus := .writing }
          writer := Function.update s.writer w (.claim v) }
  | claimWrite {w : W} {v : Int} (hpc : s.writer w = .claim v) :
      Moves s (.write w)
        { s with
          mem := { s.mem with nextWriteSlot := s.mem.nextWriteSlot + 1 }
          writer := Function.update s.writer w
            (.store v s.mem.nextWriteSlot) }
  | store {w : W} {v : Int} {t : Nat} (hpc : s.writer w = .store v t) :
      Moves s (.write w)
        { s with
          mem := { s.mem with
            data := Function.update s.mem.data (slot numSlots t) v }
          writer := Function.update s.writer w .post }
  | postWrite {w : W} (hpc : s.writer w = .post) :
      Moves s (.write w)
        { s with
          mem := { s.mem with semRead := s.mem.semRead + 1 }
          writer := Function.update s.writer w .release }
  | releaseWrite {w : W} (hpc : s.writer w = .release) :
      Moves s (.write w)
        { s with
          mem := { s.mem with rwStatus := .idle }
          writer := Function.update s.writer w .idle }
  | callRead (hpc : s.reader = .idle) :
      Moves s .callRead { s with reader := .wait }
  | waitRead (hpc : s.reader = .wait) (hsem : 0 < s.mem.semRead) :
      Moves s .read
        { s with
          mem := { s.mem with semRead := s.mem.semRead - 1 }
          reader := .loop .loadWrite }
  | spinRead {pc pc' : LoopPc} (hpc : s.reader = .loop pc)
      (hacq : s.mem.acquire .reading pc = (some pc', s.mem)) :
      Moves s .read { s with reader := .loop pc' }
  | slipRead {n : Nat} (hpc : s.reader = .loop (.loadRead n))
      (htest : ¬ spins n s.mem.nextReadSlot) :
      Moves s .read { s with reader := .claim }
  | lockRead (hpc : s.reader = .loop .exchange)
      (hidle : s.mem.rwStatus = .idle) :
      Moves s .read
        { s with
          mem := { s.mem with rwStatus := .reading }
          reader := .claim }
  | claimRead (hpc : s.reader = .claim) :
      Moves s .read
        { s with
          mem := { s.mem with nextReadSlot := s.mem.nextReadSlot + 1 }
          reader := .load s.mem.nextReadSlot }
  | load {t : Nat} (hpc : s.reader = .load t) :
      Moves s .read
        { s with reader := .test (s.mem.data (slot numSlots t)) }
  | test {v : Int} (hpc : s.reader = .test v) :
      Moves s .read
        { s with
          reader := .release v
          shouldContinue := if v = endFlag then false else s.shouldContinue }
  | releaseRead {v : Int} (hpc : s.reader = .release v) :
      Moves s .read
        { s with
          mem := { s.mem with rwStatus := .idle }
          reader := .idle }

/-- One step of the loop: it goes on and changes nothing, or it is left
by its condition, or by the exchange. -/
theorem SharedData.acquire_cases (m : SharedData) (status : RWStatus)
    (pc : LoopPc) :
    (∃ pc', m.acquire status pc = (some pc', m))
      ∨ (∃ n, pc = .loadRead n ∧ ¬ spins n m.nextReadSlot
        ∧ m.acquire status pc = (none, m))
      ∨ (pc = .exchange ∧ m.rwStatus = .idle
        ∧ m.acquire status pc = (none, { m with rwStatus := status })) := by
  cases pc with
  | loadWrite => exact .inl ⟨_, rfl⟩
  | loadRead n =>
      by_cases htest : spins n m.nextReadSlot
      · exact .inl ⟨.exchange, by rw [acquire, if_pos htest]⟩
      · exact .inr (.inl ⟨n, rfl, htest, by rw [acquire, if_neg htest]⟩)
  | exchange =>
      by_cases hidle : m.rwStatus = .idle
      · exact .inr (.inr ⟨rfl, hidle, by rw [acquire, if_pos hidle]⟩)
      · exact .inl ⟨.loadWrite, by rw [acquire, if_neg hidle]⟩

private theorem write_moves {s s' : State W} {w : W}
    (h : step s (.write w) = some s') : Moves s (.write w) s' := by
  cases hpc : s.writer w with
  | idle => simp [step, SharedData.write, hpc] at h
  | loop v pc =>
      rcases s.mem.acquire_cases .writing pc with
        ⟨pc', hacq⟩ | ⟨n, rfl, htest, hacq⟩ | ⟨rfl, hidle, hacq⟩
      · simp only [step, SharedData.write, hpc, hacq, Option.map_some,
          Option.some.injEq] at h
        exact h ▸ .spinWrite hpc hacq
      · simp only [step, SharedData.write, hpc, hacq, Option.map_some,
          Option.some.injEq] at h
        exact h ▸ .slipWrite hpc htest
      · simp only [step, SharedData.write, hpc, hacq, Option.map_some,
          Option.some.injEq] at h
        exact h ▸ .lockWrite hpc hidle
  | claim v =>
      simp only [step, SharedData.write, hpc, Option.map_some,
        Option.some.injEq] at h
      exact h ▸ .claimWrite hpc
  | store v t =>
      simp only [step, SharedData.write, hpc, Option.map_some,
        Option.some.injEq] at h
      exact h ▸ .store hpc
  | post =>
      simp only [step, SharedData.write, hpc, Option.map_some,
        Option.some.injEq] at h
      exact h ▸ .postWrite hpc
  | release =>
      simp only [step, SharedData.write, hpc, Option.map_some,
        Option.some.injEq] at h
      exact h ▸ .releaseWrite hpc

private theorem read_moves {s s' : State W}
    (h : step s .read = some s') : Moves s .read s' := by
  cases hpc : s.reader with
  | idle => simp [step, SharedData.read, hpc] at h
  | wait =>
      by_cases hsem : 0 < s.mem.semRead
      · simp only [step, SharedData.read, hpc, if_pos hsem, Option.map_some,
          ReadPc.continues, Option.some.injEq] at h
        exact h ▸ .waitRead hpc hsem
      · simp [step, SharedData.read, hpc, hsem] at h
  | loop pc =>
      rcases s.mem.acquire_cases .reading pc with
        ⟨pc', hacq⟩ | ⟨n, rfl, htest, hacq⟩ | ⟨rfl, hidle, hacq⟩
      · simp only [step, SharedData.read, hpc, hacq, Option.map_some,
          ReadPc.continues, Option.some.injEq] at h
        exact h ▸ .spinRead hpc hacq
      · simp only [step, SharedData.read, hpc, hacq, Option.map_some,
          ReadPc.continues, Option.some.injEq] at h
        exact h ▸ .slipRead hpc htest
      · simp only [step, SharedData.read, hpc, hacq, Option.map_some,
          ReadPc.continues, Option.some.injEq] at h
        exact h ▸ .lockRead hpc hidle
  | claim =>
      simp only [step, SharedData.read, hpc, Option.map_some,
        ReadPc.continues, Option.some.injEq] at h
      exact h ▸ .claimRead hpc
  | load t =>
      simp only [step, SharedData.read, hpc, Option.map_some,
        ReadPc.continues, Option.some.injEq] at h
      exact h ▸ .load hpc
  | test v =>
      simp only [step, SharedData.read, hpc, Option.map_some,
        ReadPc.continues, Option.some.injEq] at h
      exact h ▸ .test hpc
  | release v =>
      simp only [step, SharedData.read, hpc, Option.map_some,
        ReadPc.continues, Option.some.injEq] at h
      exact h ▸ .releaseRead hpc

/-- Every step is one of them. -/
theorem step_moves {s s' : State W} {a : Act W} (h : step s a = some s') :
    Moves s a s' := by
  cases a with
  | write w => exact write_moves h
  | read => exact read_moves h
  | callWrite w v =>
      cases hpc : s.writer w with
      | idle =>
          simp only [step, hpc, Option.some.injEq] at h
          exact h ▸ .callWrite hpc
      | _ => simp [step, hpc] at h
  | callRead =>
      cases hpc : s.reader with
      | idle =>
          simp only [step, hpc, Option.some.injEq] at h
          exact h ▸ .callRead hpc
      | _ => simp [step, hpc] at h

end DailyStudy.Covering
