/-
The lazy singleton of InstanceAndThreadSafe1.cpp: `GetInstance` and
`deleteInstance`, called by any number of threads, any number of times.

`GetInstance` holds `S_Mutex` from its first step to its last.
`deleteInstance` tests, deletes and resets the pointer without it.

Objects are numbered in the order they are allocated, and the heap
remembers every `delete` of one.
-/
import DailyStudy.Lib.System
import DailyStudy.Lib.Census

namespace DailyStudy.Instance

open Interleave

-- ================================================================= the statics

/-- The objects allocated so far (the numbers below `allocated`), and the
operands of every `delete`, in order. -/
structure Heap where
  allocated : Nat
  deleted : List Nat

/-- The object exists: it was allocated, and not deleted. -/
def Heap.Live (h : Heap) (x : Nat) : Prop :=
  x < h.allocated ∧ x ∉ h.deleted

/-- `m_SingleInstance`, the owner of `S_Mutex`, and the heap. -/
structure Statics (T : Type) where
  singleInstance : Option Nat
  mutex : Option T
  heap : Heap

/-- Where a thread stands: before the named step of `GetInstance` (`lock`
to `unlock`) or of `deleteInstance` (`check` to `reset`). -/
inductive Pc
  | idle
  | lock
  | test
  | alloc
  | assign (value : Option Nat)
  | load
  | unlock (result : Option Nat)
  | check
  | delete
  | reset (operand : Option Nat)
  deriving DecidableEq, Repr

variable {T : Type}

/-- `new (std::nothrow) SingleInstance()`. -/
def Heap.new (h : Heap) (fails : Bool) : Option Nat × Heap :=
  if fails then (none, h)
  else (some h.allocated, { h with allocated := h.allocated + 1 })

/-- `delete` of a pointer; of a null pointer it does nothing. -/
def Heap.delete (h : Heap) : Option Nat → Heap
  | none => h
  | some x => { h with deleted := h.deleted ++ [x] }

/-- The next step of thread `t`; `fails` says whether an allocation in it
does. -/
def Statics.move (m : Statics T) (t : T) (fails : Bool) :
    Pc → Option (Pc × Statics T)
  | .idle => none
  | .lock =>
      match m.mutex with
      | none => some (.test, { m with mutex := some t })
      | some _ => none
  | .test =>
      match m.singleInstance with
      | none => some (.alloc, m)
      | some _ => some (.load, m)
  | .alloc =>
      let (value, heap) := m.heap.new fails
      some (.assign value, { m with heap := heap })
  | .assign value => some (.load, { m with singleInstance := value })
  | .load => some (.unlock m.singleInstance, m)
  | .unlock _ => some (.idle, { m with mutex := none })
  | .check =>
      match m.singleInstance with
      | none => some (.idle, m)
      | some _ => some (.delete, m)
  | .delete =>
      some (.reset m.singleInstance,
        { m with heap := m.heap.delete m.singleInstance })
  | .reset _ => some (.idle, { m with singleInstance := none })

-- ================================================================ the system

/-- The statics, and where every thread stands. -/
structure State (T : Type) where
  statics : Statics T
  pc : T → Pc

/-- What the scheduler picks: a thread to call a function, or a thread to
move. -/
inductive Act (T : Type)
  | getInstance (t : T)
  | deleteInstance (t : T)
  | move (t : T) (fails : Bool)

variable [DecidableEq T]

/-- One step of one thread. -/
def step (s : State T) : Act T → Option (State T)
  | .getInstance t =>
      match s.pc t with
      | .idle => some { s with pc := Function.update s.pc t .lock }
      | _ => none
  | .deleteInstance t =>
      match s.pc t with
      | .idle => some { s with pc := Function.update s.pc t .check }
      | _ => none
  | .move t fails =>
      (s.statics.move t fails (s.pc t)).map fun (pc, m) =>
        { statics := m, pc := Function.update s.pc t pc }

/-- The threads `T` of the program, from its start on. -/
def singleton (T : Type) [DecidableEq T] : System (State T) (Act T) where
  init :=
    { statics :=
        { singleInstance := none
          mutex := none
          heap := { allocated := 0, deleted := [] } }
      pc := fun _ => .idle }
  step := step

-- ======================================================== what a step can do

/-- The steps, one constructor for each: the program point the thread
leaves, the guard and the effect. -/
inductive Moves (s : State T) : Act T → State T → Prop
  | getInstance {t : T} (hpc : s.pc t = .idle) :
      Moves s (.getInstance t)
        { s with pc := Function.update s.pc t .lock }
  | deleteInstance {t : T} (hpc : s.pc t = .idle) :
      Moves s (.deleteInstance t)
        { s with pc := Function.update s.pc t .check }
  | lock {t : T} {fails : Bool} (hpc : s.pc t = .lock)
      (hfree : s.statics.mutex = none) :
      Moves s (.move t fails)
        { statics := { s.statics with mutex := some t }
          pc := Function.update s.pc t .test }
  | absent {t : T} {fails : Bool} (hpc : s.pc t = .test)
      (hnull : s.statics.singleInstance = none) :
      Moves s (.move t fails) { s with pc := Function.update s.pc t .alloc }
  | present {t : T} {fails : Bool} {x : Nat} (hpc : s.pc t = .test)
      (hptr : s.statics.singleInstance = some x) :
      Moves s (.move t fails) { s with pc := Function.update s.pc t .load }
  | alloc {t : T} (hpc : s.pc t = .alloc) :
      Moves s (.move t false)
        { statics := { s.statics with
            heap := { s.statics.heap with
              allocated := s.statics.heap.allocated + 1 } }
          pc := Function.update s.pc t
            (.assign (some s.statics.heap.allocated)) }
  | allocFails {t : T} (hpc : s.pc t = .alloc) :
      Moves s (.move t true)
        { s with pc := Function.update s.pc t (.assign none) }
  | assign {t : T} {fails : Bool} {value : Option Nat}
      (hpc : s.pc t = .assign value) :
      Moves s (.move t fails)
        { statics := { s.statics with singleInstance := value }
          pc := Function.update s.pc t .load }
  | load {t : T} {fails : Bool} (hpc : s.pc t = .load) :
      Moves s (.move t fails)
        { s with
          pc := Function.update s.pc t (.unlock s.statics.singleInstance) }
  | unlock {t : T} {fails : Bool} {result : Option Nat}
      (hpc : s.pc t = .unlock result) :
      Moves s (.move t fails)
        { statics := { s.statics with mutex := none }
          pc := Function.update s.pc t .idle }
  | checkNull {t : T} {fails : Bool} (hpc : s.pc t = .check)
      (hnull : s.statics.singleInstance = none) :
      Moves s (.move t fails) { s with pc := Function.update s.pc t .idle }
  | check {t : T} {fails : Bool} {x : Nat} (hpc : s.pc t = .check)
      (hptr : s.statics.singleInstance = some x) :
      Moves s (.move t fails) { s with pc := Function.update s.pc t .delete }
  | deleteNull {t : T} {fails : Bool} (hpc : s.pc t = .delete)
      (hnull : s.statics.singleInstance = none) :
      Moves s (.move t fails)
        { s with pc := Function.update s.pc t (.reset none) }
  | delete {t : T} {fails : Bool} {x : Nat} (hpc : s.pc t = .delete)
      (hptr : s.statics.singleInstance = some x) :
      Moves s (.move t fails)
        { statics := { s.statics with
            heap := { s.statics.heap with
              deleted := s.statics.heap.deleted ++ [x] } }
          pc := Function.update s.pc t (.reset (some x)) }
  | reset {t : T} {fails : Bool} {operand : Option Nat}
      (hpc : s.pc t = .reset operand) :
      Moves s (.move t fails)
        { statics := { s.statics with singleInstance := none }
          pc := Function.update s.pc t .idle }

private theorem move_moves {s s' : State T} {t : T} {fails : Bool}
    (h : step s (.move t fails) = some s') : Moves s (.move t fails) s' := by
  cases hpc : s.pc t with
  | idle => simp [step, Statics.move, hpc] at h
  | lock =>
      cases hm : s.statics.mutex with
      | none =>
          simp only [step, Statics.move, hpc, hm, Option.map_some,
            Option.some.injEq] at h
          exact h ▸ .lock hpc hm
      | some u => simp [step, Statics.move, hpc, hm] at h
  | test =>
      cases hptr : s.statics.singleInstance with
      | none =>
          simp only [step, Statics.move, hpc, hptr, Option.map_some,
            Option.some.injEq] at h
          exact h ▸ .absent hpc hptr
      | some x =>
          simp only [step, Statics.move, hpc, hptr, Option.map_some,
            Option.some.injEq] at h
          exact h ▸ .present hpc hptr
  | alloc =>
      simp only [step, Statics.move, hpc, Heap.new, Option.map_some,
        Option.some.injEq] at h
      cases fails with
      | false => exact h ▸ .alloc hpc
      | true => exact h ▸ .allocFails hpc
  | assign value =>
      simp only [step, Statics.move, hpc, Option.map_some,
        Option.some.injEq] at h
      exact h ▸ .assign hpc
  | load =>
      simp only [step, Statics.move, hpc, Option.map_some,
        Option.some.injEq] at h
      exact h ▸ .load hpc
  | unlock result =>
      simp only [step, Statics.move, hpc, Option.map_some,
        Option.some.injEq] at h
      exact h ▸ .unlock hpc
  | check =>
      cases hptr : s.statics.singleInstance with
      | none =>
          simp only [step, Statics.move, hpc, hptr, Option.map_some,
            Option.some.injEq] at h
          exact h ▸ .checkNull hpc hptr
      | some x =>
          simp only [step, Statics.move, hpc, hptr, Option.map_some,
            Option.some.injEq] at h
          exact h ▸ .check hpc hptr
  | delete =>
      rcases s with ⟨⟨singleInstance, mutex, heap⟩, pc⟩
      change pc t = .delete at hpc
      simp only [step, Statics.move, hpc, Option.map_some,
        Option.some.injEq] at h
      cases singleInstance with
      | none => exact h ▸ .deleteNull hpc rfl
      | some x => exact h ▸ .delete hpc rfl
  | reset operand =>
      simp only [step, Statics.move, hpc, Option.map_some,
        Option.some.injEq] at h
      exact h ▸ .reset hpc

/-- Every step is one of them. -/
theorem step_moves {s s' : State T} {a : Act T} (h : step s a = some s') :
    Moves s a s' := by
  cases a with
  | move t fails => exact move_moves h
  | getInstance t =>
      cases hpc : s.pc t with
      | idle =>
          simp only [step, hpc, Option.some.injEq] at h
          exact h ▸ .getInstance hpc
      | _ => simp [step, hpc] at h
  | deleteInstance t =>
      cases hpc : s.pc t with
      | idle =>
          simp only [step, hpc, Option.some.injEq] at h
          exact h ▸ .deleteInstance hpc
      | _ => simp [step, hpc] at h

end DailyStudy.Instance
