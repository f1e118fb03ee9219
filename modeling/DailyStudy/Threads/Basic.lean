/-
The `main` of ThreadWithVector.cpp: a loop that starts two threads in each
round, one that has a copy of the counter and one that has a reference to
the round's local `tmp`, and the two loops that join them all.

# The locals

Every round has a `tmp` of its own, which ends with the body of the loop.
The reference a thread was given stays what it is; once its `tmp` has
ended, reading through it is undefined. `rounds` is the bound of the loop,
3 in the source. The texts around the printed numbers, the line `all
thread ended` and the two vectors, which only keep the threads to be
joined, are left out.
-/
import DailyStudy.Lib.System

namespace DailyStudy.Threads

open Interleave

-- ================================================================= the threads

/-- A thread that runs `T1(int a)` or `T2(const int& a)`: not started,
with its argument, or finished. The argument of a `T2` is a reference,
named by the round whose `tmp` it is to. -/
inductive ThreadPc
  | absent
  | ready (a : Nat)
  | done
  deriving DecidableEq, Repr

/-- Where `main` stands: before the named step of a round, or before it
joins the named thread. -/
inductive MainPc
  | loop (i : Nat)
  | pushBack (i : Nat)
  | declare (i : Nat)
  | emplaceBack (i : Nat)
  | endBody (i : Nat)
  | join (k : Nat)
  | joinRef (k : Nat)
  | ended
  deriving DecidableEq, Repr

/-- A number that was printed; none is one that was read from a `tmp` that
had ended. -/
inductive Line
  | t1 (a : Nat)
  | t2 (a : Option Nat)
  deriving DecidableEq, Repr

/-- Where `main` stands, the `tmp` that is alive (its round and what it
holds), the threads by the round that starts them, and the output. -/
structure State where
  main : MainPc
  tmp : Option (Nat × Nat)
  t1 : Nat → ThreadPc
  t2 : Nat → ThreadPc
  output : List Line

/-- What the scheduler picks. -/
inductive Act
  | main
  | t1 (k : Nat)
  | t2 (k : Nat)
  deriving DecidableEq, Repr

-- ================================================================== the system

/-- What a reference to the `tmp` of round `r` reads. -/
def State.load (s : State) (r : Nat) : Option Nat :=
  match s.tmp with
  | some (r', a) => if r' = r then some a else none
  | none => none

/-- The next step of `main`. A join waits for its thread. -/
def State.mainStep (rounds : Nat) (s : State) : Option State :=
  match s.main with
  | .loop i =>
      some { s with main := if i < rounds then .pushBack i else .join 0 }
  | .pushBack i =>
      some { s with
        t1 := Function.update s.t1 i (.ready i)
        main := .declare i }
  | .declare i => some { s with tmp := some (i, i), main := .emplaceBack i }
  | .emplaceBack i =>
      some { s with
        t2 := Function.update s.t2 i (.ready i)
        main := .endBody i }
  | .endBody i => some { s with tmp := none, main := .loop (i + 1) }
  | .join k =>
      if k < rounds then
        if s.t1 k = .done then some { s with main := .join (k + 1) } else none
      else some { s with main := .joinRef 0 }
  | .joinRef k =>
      if k < rounds then
        if s.t2 k = .done then some { s with main := .joinRef (k + 1) }
        else none
      else some { s with main := .ended }
  | .ended => none

/-- One step of one thread. -/
def step (rounds : Nat) (s : State) : Act → Option State
  | .main => s.mainStep rounds
  | .t1 k =>
      match s.t1 k with
      | .ready a =>
          some { s with
            t1 := Function.update s.t1 k .done
            output := s.output ++ [.t1 a] }
      | _ => none
  | .t2 k =>
      match s.t2 k with
      | .ready r =>
          some { s with
            t2 := Function.update s.t2 k .done
            output := s.output ++ [.t2 (s.load r)] }
      | _ => none

/-- The program, from its first round on. -/
def program (rounds : Nat) : System State Act where
  init :=
    { main := .loop 0
      tmp := none
      t1 := fun _ => .absent
      t2 := fun _ => .absent
      output := [] }
  step := step rounds

/-- The numbers `T1` printed. -/
def copies : List Line → List Nat :=
  List.filterMap fun
    | .t1 a => some a
    | .t2 _ => none

/-- What `T2` printed. -/
def loads : List Line → List (Option Nat) :=
  List.filterMap fun
    | .t1 _ => none
    | .t2 a => some a

-- ======================================================== what a step can do

/-- The steps of the program, one constructor for each. -/
inductive Moves (rounds : Nat) (s : State) : Act → State → Prop
  | enter {i : Nat} (hpc : s.main = .loop i) (hlt : i < rounds) :
      Moves rounds s .main { s with main := .pushBack i }
  | leave {i : Nat} (hpc : s.main = .loop i) (hge : ¬ i < rounds) :
      Moves rounds s .main { s with main := .join 0 }
  | pushBack {i : Nat} (hpc : s.main = .pushBack i) :
      Moves rounds s .main
        { s with
          t1 := Function.update s.t1 i (.ready i)
          main := .declare i }
  | declare {i : Nat} (hpc : s.main = .declare i) :
      Moves rounds s .main
        { s with tmp := some (i, i), main := .emplaceBack i }
  | emplaceBack {i : Nat} (hpc : s.main = .emplaceBack i) :
      Moves rounds s .main
        { s with
          t2 := Function.update s.t2 i (.ready i)
          main := .endBody i }
  | endBody {i : Nat} (hpc : s.main = .endBody i) :
      Moves rounds s .main { s with tmp := none, main := .loop (i + 1) }
  | join {k : Nat} (hpc : s.main = .join k) (hlt : k < rounds)
      (hdone : s.t1 k = .done) :
      Moves rounds s .main { s with main := .join (k + 1) }
  | joined {k : Nat} (hpc : s.main = .join k) (hge : ¬ k < rounds) :
      Moves rounds s .main { s with main := .joinRef 0 }
  | joinRef {k : Nat} (hpc : s.main = .joinRef k) (hlt : k < rounds)
      (hdone : s.t2 k = .done) :
      Moves rounds s .main { s with main := .joinRef (k + 1) }
  | finish {k : Nat} (hpc : s.main = .joinRef k) (hge : ¬ k < rounds) :
      Moves rounds s .main { s with main := .ended }
  | t1 {k a : Nat} (hpc : s.t1 k = .ready a) :
      Moves rounds s (.t1 k)
        { s with
          t1 := Function.update s.t1 k .done
          output := s.output ++ [.t1 a] }
  | t2 {k r : Nat} (hpc : s.t2 k = .ready r) :
      Moves rounds s (.t2 k)
        { s with
          t2 := Function.update s.t2 k .done
          output := s.output ++ [.t2 (s.load r)] }

private theorem main_moves {rounds : Nat} {s s' : State}
    (h : s.mainStep rounds = some s') : Moves rounds s .main s' := by
  cases hpc : s.main with
  | loop i =>
      simp only [State.mainStep, hpc, Option.some.injEq] at h
      by_cases hlt : i < rounds
      · rw [if_pos hlt] at h
        exact h ▸ .enter hpc hlt
      · rw [if_neg hlt] at h
        exact h ▸ .leave hpc hlt
  | pushBack i =>
      simp only [State.mainStep, hpc, Option.some.injEq] at h
      exact h ▸ .pushBack hpc
  | declare i =>
      simp only [State.mainStep, hpc, Option.some.injEq] at h
      exact h ▸ .declare hpc
  | emplaceBack i =>
      simp only [State.mainStep, hpc, Option.some.injEq] at h
      exact h ▸ .emplaceBack hpc
  | endBody i =>
      simp only [State.mainStep, hpc, Option.some.injEq] at h
      exact h ▸ .endBody hpc
  | join k =>
      by_cases hlt : k < rounds
      · by_cases hdone : s.t1 k = .done
        · simp only [State.mainStep, hpc, if_pos hlt, if_pos hdone,
            Option.some.injEq] at h
          exact h ▸ .join hpc hlt hdone
        · simp [State.mainStep, hpc, hlt, hdone] at h
      · simp only [State.mainStep, hpc, if_neg hlt, Option.some.injEq] at h
        exact h ▸ .joined hpc hlt
  | joinRef k =>
      by_cases hlt : k < rounds
      · by_cases hdone : s.t2 k = .done
        · simp only [State.mainStep, hpc, if_pos hlt, if_pos hdone,
            Option.some.injEq] at h
          exact h ▸ .joinRef hpc hlt hdone
        · simp [State.mainStep, hpc, hlt, hdone] at h
      · simp only [State.mainStep, hpc, if_neg hlt, Option.some.injEq] at h
        exact h ▸ .finish hpc hlt
  | ended => simp [State.mainStep, hpc] at h

/-- Every step is one of them. -/
theorem step_moves {rounds : Nat} {s s' : State} {a : Act}
    (h : step rounds s a = some s') : Moves rounds s a s' := by
  cases a with
  | main => exact main_moves h
  | t1 k =>
      cases hpc : s.t1 k with
      | ready a =>
          simp only [step, hpc, Option.some.injEq] at h
          exact h ▸ .t1 hpc
      | _ => simp [step, hpc] at h
  | t2 k =>
      cases hpc : s.t2 k with
      | ready r =>
          simp only [step, hpc, Option.some.injEq] at h
          exact h ▸ .t2 hpc
      | _ => simp [step, hpc] at h

end DailyStudy.Threads
