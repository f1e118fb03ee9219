/-
The program of InstanceButThreadUnSafe.cpp: threads that run `PrintHello`,
each of which calls `GetInstance` once, and `main`, which joins them and
then calls `deleteInstance`. Nothing is locked.

Objects are numbered in the order they are allocated, as for the locked
singleton. The greeting with the thread's number comes before everything
else a thread does, and is left out.
-/
import Mathlib.Data.Fintype.Defs
import DailyStudy.Instance.Basic

namespace DailyStudy.Unlocked

open Interleave Instance

/-- Where a thread stands: before the named step of `GetInstance`, or
before `Print`. -/
inductive Pc
  | test
  | alloc
  | assign (value : Option Nat)
  | load
  | print (result : Option Nat)
  | finished
  deriving DecidableEq, Repr

/-- Where `main` stands: before it has joined all threads, or before the
named step of `deleteInstance`. -/
inductive MainPc
  | join
  | check
  | delete
  | reset
  | finished
  deriving DecidableEq, Repr

/-- `m_SingleInstance`, the heap, the addresses printed (`none` is the
null pointer), and where everybody stands. -/
structure State (T : Type) where
  singleInstance : Option Nat
  heap : Heap
  printed : List (T × Option Nat)
  main : MainPc
  pc : T → Pc

/-- What the scheduler picks: a thread, and whether an allocation in its
step fails, or `main`. -/
inductive Act (T : Type)
  | thread (t : T) (fails : Bool)
  | main

variable {T : Type} [DecidableEq T]

/-- The next step of thread `t`. -/
def State.thread (s : State T) (t : T) (fails : Bool) : Option (State T) :=
  match s.pc t with
  | .test =>
      match s.singleInstance with
      | none => some { s with pc := Function.update s.pc t .alloc }
      | some _ => some { s with pc := Function.update s.pc t .load }
  | .alloc =>
      let (value, heap) := s.heap.new fails
      some { s with
        heap := heap
        pc := Function.update s.pc t (.assign value) }
  | .assign value =>
      some { s with
        singleInstance := value
        pc := Function.update s.pc t .load }
  | .load =>
      some { s with pc := Function.update s.pc t (.print s.singleInstance) }
  | .print result =>
      some { s with
        printed := s.printed ++ [(t, result)]
        pc := Function.update s.pc t .finished }
  | .finished => none

variable [Fintype T]

/-- The next step of `main`. -/
def State.mainStep (s : State T) : Option (State T) :=
  match s.main with
  | .join =>
      if ∀ t, s.pc t = .finished then some { s with main := .check }
      else none
  | .check =>
      match s.singleInstance with
      | none => some { s with main := .finished }
      | some _ => some { s with main := .delete }
  | .delete =>
      some { s with heap := s.heap.delete s.singleInstance, main := .reset }
  | .reset => some { s with singleInstance := none, main := .finished }
  | .finished => none

/-- One step of the program. -/
def step (s : State T) : Act T → Option (State T)
  | .thread t fails => s.thread t fails
  | .main => s.mainStep

/-- The program with the threads `T`, from its start on. -/
def program (T : Type) [Fintype T] [DecidableEq T] :
    System (State T) (Act T) where
  init :=
    { singleInstance := none
      heap := { allocated := 0, deleted := [] }
      printed := []
      main := .join
      pc := fun _ => .test }
  step := step

-- ======================================================== what a step can do

/-- The steps, one constructor for each: the program point that is left,
the guard and the effect. -/
inductive Moves (s : State T) : Act T → State T → Prop
  | absent {t : T} {fails : Bool} (hpc : s.pc t = .test)
      (hnull : s.singleInstance = none) :
      Moves s (.thread t fails)
        { s with pc := Function.update s.pc t .alloc }
  | present {t : T} {fails : Bool} {x : Nat} (hpc : s.pc t = .test)
      (hptr : s.singleInstance = some x) :
      Moves s (.thread t fails) { s with pc := Function.update s.pc t .load }
  | alloc {t : T} (hpc : s.pc t = .alloc) :
      Moves s (.thread t false)
        { s with
          heap := { s.heap with allocated := s.heap.allocated + 1 }
          pc := Function.update s.pc t (.assign (some s.heap.allocated)) }
  | allocFails {t : T} (hpc : s.pc t = .alloc) :
      Moves s (.thread t true)
        { s with pc := Function.update s.pc t (.assign none) }
  | assign {t : T} {fails : Bool} {value : Option Nat}
      (hpc : s.pc t = .assign value) :
      Moves s (.thread t fails)
        { s with
          singleInstance := value
          pc := Function.update s.pc t .load }
  | load {t : T} {fails : Bool} (hpc : s.pc t = .load) :
      Moves s (.thread t fails)
        { s with pc := Function.update s.pc t (.print s.singleInstance) }
  | print {t : T} {fails : Bool} {result : Option Nat}
      (hpc : s.pc t = .print result) :
      Moves s (.thread t fails)
        { s with
          printed := s.printed ++ [(t, result)]
          pc := Function.update s.pc t .finished }
  | join (hpc : s.main = .join) (hall : ∀ t, s.pc t = .finished) :
      Moves s .main { s with main := .check }
  | checkNull (hpc : s.main = .check) (hnull : s.singleInstance = none) :
      Moves s .main { s with main := .finished }
  | check {x : Nat} (hpc : s.main = .check)
      (hptr : s.singleInstance = some x) :
      Moves s .main { s with main := .delete }
  | delete (hpc : s.main = .delete) :
      Moves s .main
        { s with heap := s.heap.delete s.singleInstance, main := .reset }
  | reset (hpc : s.main = .reset) :
      Moves s .main { s with singleInstance := none, main := .finished }

omit [Fintype T] in
private theorem thread_moves {s s' : State T} {t : T} {fails : Bool}
    (h : s.thread t fails = some s') : Moves s (.thread t fails) s' := by
  cases hpc : s.pc t with
  | finished => simp [State.thread, hpc] at h
  | test =>
      rcases Option.eq_none_or_eq_some s.singleInstance with
        hnull | ⟨x, hptr⟩
      · simp only [State.thread, hpc, hnull, Option.some.injEq] at h
        exact h ▸ hnull ▸ .absent hpc hnull
      · simp only [State.thread, hpc, hptr, Option.some.injEq] at h
        exact h ▸ hptr ▸ .present hpc hptr
  | alloc =>
      simp only [State.thread, hpc, Heap.new, Option.some.injEq] at h
      cases fails with
      | false => exact h ▸ .alloc hpc
      | true => exact h ▸ .allocFails hpc
  | assign value =>
      simp only [State.thread, hpc, Option.some.injEq] at h
      exact h ▸ .assign hpc
  | load =>
      simp only [State.thread, hpc, Option.some.injEq] at h
      exact h ▸ .load hpc
  | print result =>
      simp only [State.thread, hpc, Option.some.injEq] at h
      exact h ▸ .print hpc

private theorem main_moves {s s' : State T} (h : s.mainStep = some s') :
    Moves s .main s' := by
  cases hpc : s.main with
  | finished => simp [State.mainStep, hpc] at h
  | join =>
      by_cases hall : ∀ t, s.pc t = .finished
      · simp only [State.mainStep, hpc, if_pos hall, Option.some.injEq] at h
        exact h ▸ .join hpc hall
      · simp [State.mainStep, hpc, hall] at h
  | check =>
      rcases Option.eq_none_or_eq_some s.singleInstance with
        hnull | ⟨x, hptr⟩
      · simp only [State.mainStep, hpc, hnull, Option.some.injEq] at h
        exact h ▸ hnull ▸ .checkNull hpc hnull
      · simp only [State.mainStep, hpc, hptr, Option.some.injEq] at h
        exact h ▸ hptr ▸ .check hpc hptr
  | delete =>
      simp only [State.mainStep, hpc, Option.some.injEq] at h
      exact h ▸ .delete hpc
  | reset =>
      simp only [State.mainStep, hpc, Option.some.injEq] at h
      exact h ▸ .reset hpc

/-- Every step is one of them. -/
theorem step_moves {s s' : State T} {a : Act T} (h : step s a = some s') :
    Moves s a s' := by
  cases a with
  | thread t fails => exact thread_moves h
  | main => exact main_moves h

end DailyStudy.Unlocked
