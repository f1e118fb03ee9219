/-
The turn-taking program of ThreadAndSafe.cpp: two threads run
`fun(10, "child")` and `fun(100, "father")`, each with its loop of
`count` rounds, over one mutex, one condition variable and one flag.

A round locks, waits for the thread's turn, prints, flips the flag,
notifies one waiter and unlocks; every one of these is a step of its
own, and so is each line printed. `count` is a parameter. The sleep
inside a round changes nothing and is left out.
-/
import DailyStudy.Lib.System

namespace DailyStudy.Turns

open Interleave

-- ================================================================= the threads

/-- The two threads. -/
inductive Thread
  | child
  | father
  deriving DecidableEq, Repr

/-- The first argument of the thread's `fun`. -/
def Thread.num : Thread → Nat
  | .child => 10
  | .father => 100

/-- The second argument of the thread's `fun`. -/
def Thread.str : Thread → String
  | .child => "child"
  | .father => "father"

def Thread.other : Thread → Thread
  | .child => .father
  | .father => .child

/-- Where a thread stands in `fun`, with its loop counters: before the
named step, or asleep in `cv.wait`, or woken from it. -/
inductive Pc
  | loop (i : Nat)
  | lock (i : Nat)
  | check (i : Nat)
  | asleep (i : Nat)
  | woken (i : Nat)
  | print (i j : Nat)
  | toggle (i : Nat)
  | notify (i : Nat)
  | unlock (i : Nat)
  | done
  deriving DecidableEq, Repr

-- ================================================================ the system

/-- The globals, what was printed, and where the threads stand. The
threads waiting on `cv` are those that stand at `asleep`. -/
structure State where
  flag : Nat
  mtex : Option Thread
  out : List String
  pc : Thread → Pc

/-- What the scheduler picks: a thread to move, the waiter `notify_one`
wakes, or a spurious wake-up. -/
inductive Act
  | move (t : Thread)
  | notifyOne (t : Thread) (waiter : Option Thread)
  | spurious (t : Thread)
  deriving DecidableEq, Repr

/-- A wake-up nobody sent. -/
def Act.isSpurious : Act → Bool
  | .spurious _ => true
  | _ => false

def State.setPc (s : State) (t : Thread) (pc : Pc) : State :=
  { s with pc := Function.update s.pc t pc }

/-- Take the mutex and go on to evaluate the predicate. -/
def lock (s : State) (t : Thread) (i : Nat) : Option State :=
  match s.mtex with
  | none => some { s.setPc t (.check i) with mtex := some t }
  | some _ => none

/-- The thread waits on `cv`. -/
def Pc.isAsleep : Pc → Bool
  | .asleep _ => true
  | _ => false

/-- The next step of `fun`, where the scheduler has no choice. -/
def move (count : Nat) (s : State) (t : Thread) : Option State :=
  match s.pc t with
  | .loop i => some (s.setPc t (if i < count then .lock i else .done))
  | .lock i => lock s t i
  | .woken i => lock s t i
  | .check i =>
      if t.num = s.flag then some (s.setPc t (.print i 0))
      else some { s.setPc t (.asleep i) with mtex := none }
  | .print i j =>
      if j < t.num then
        some { s.setPc t (.print i (j + 1)) with out := s.out ++ [t.str] }
      else some (s.setPc t (.toggle i))
  | .toggle i =>
      some { s.setPc t (.notify i) with
        flag := if s.flag = 10 then 100 else 10 }
  | .unlock i => some { s.setPc t (.loop (i + 1)) with mtex := none }
  | .asleep _ | .notify _ | .done => none

/-- One step of one thread. -/
def step (count : Nat) (s : State) : Act → Option State
  | .move t => move count s t
  | .notifyOne t waiter =>
      -- `cv.notify_one()`
      match s.pc t, waiter with
      | .notify i, some t' =>
          match s.pc t' with
          | .asleep i' =>
              some ((s.setPc t (.unlock i)).setPc t' (.woken i'))
          | _ => none
      | .notify i, none =>
          if (s.pc .child).isAsleep || (s.pc .father).isAsleep then none
          else some (s.setPc t (.unlock i))
      | _, _ => none
  | .spurious t =>
      match s.pc t with
      | .asleep i => some (s.setPc t (.woken i))
      | _ => none

/-- The program with the loop bound `count`: `flag` is 10, nothing is
printed, and both threads are before their loops. -/
def program (count : Nat) : System State Act where
  init := { flag := 10, mtex := none, out := [], pc := fun _ => .loop 0 }
  step := step count

-- ======================================================== what a step can do

/-- The steps of the program, one constructor for each. -/
inductive Moves (count : Nat) (s : State) : Act → State → Prop
  | enter {t : Thread} {i : Nat} (hpc : s.pc t = .loop i)
      (hlt : i < count) : Moves count s (.move t) (s.setPc t (.lock i))
  | leave {t : Thread} {i : Nat} (hpc : s.pc t = .loop i)
      (hge : ¬ i < count) : Moves count s (.move t) (s.setPc t .done)
  | lock {t : Thread} {i : Nat}
      (hpc : s.pc t = .lock i ∨ s.pc t = .woken i)
      (hfree : s.mtex = none) :
      Moves count s (.move t) { s.setPc t (.check i) with mtex := some t }
  | pass {t : Thread} {i : Nat} (hpc : s.pc t = .check i)
      (hturn : t.num = s.flag) :
      Moves count s (.move t) (s.setPc t (.print i 0))
  | sleep {t : Thread} {i : Nat} (hpc : s.pc t = .check i)
      (hturn : t.num ≠ s.flag) :
      Moves count s (.move t) { s.setPc t (.asleep i) with mtex := none }
  | print {t : Thread} {i j : Nat} (hpc : s.pc t = .print i j)
      (hlt : j < t.num) :
      Moves count s (.move t)
        { s.setPc t (.print i (j + 1)) with out := s.out ++ [t.str] }
  | printed {t : Thread} {i j : Nat} (hpc : s.pc t = .print i j)
      (hge : ¬ j < t.num) :
      Moves count s (.move t) (s.setPc t (.toggle i))
  | toggle {t : Thread} {i : Nat} (hpc : s.pc t = .toggle i) :
      Moves count s (.move t)
        { s.setPc t (.notify i) with
          flag := if s.flag = 10 then 100 else 10 }
  | notifyOne {t t' : Thread} {i i' : Nat} (hpc : s.pc t = .notify i)
      (hpc' : s.pc t' = .asleep i') :
      Moves count s (.notifyOne t (some t'))
        ((s.setPc t (.unlock i)).setPc t' (.woken i'))
  | notifyNone {t : Thread} {i : Nat} (hpc : s.pc t = .notify i)
      (hnone : ∀ t' i', s.pc t' ≠ .asleep i') :
      Moves count s (.notifyOne t none) (s.setPc t (.unlock i))
  | unlock {t : Thread} {i : Nat} (hpc : s.pc t = .unlock i) :
      Moves count s (.move t)
        { s.setPc t (.loop (i + 1)) with mtex := none }
  | spurious {t : Thread} {i : Nat} (hpc : s.pc t = .asleep i) :
      Moves count s (.spurious t) (s.setPc t (.woken i))

private theorem move_moves {count : Nat} {s s' : State} {t : Thread}
    (h : move count s t = some s') : Moves count s (.move t) s' := by
  cases hpc : s.pc t with
  | loop i =>
      rw [move, hpc] at h
      obtain rfl := Option.some.inj h
      by_cases hlt : i < count
      · rw [if_pos hlt]
        exact .enter hpc hlt
      · rw [if_neg hlt]
        exact .leave hpc hlt
  | lock i =>
      cases hm : s.mtex with
      | some t' => simp [move, lock, hpc, hm] at h
      | none =>
          simp only [move, lock, hpc, hm, Option.some.injEq] at h
          exact h ▸ .lock (.inl hpc) hm
  | woken i =>
      cases hm : s.mtex with
      | some t' => simp [move, lock, hpc, hm] at h
      | none =>
          simp only [move, lock, hpc, hm, Option.some.injEq] at h
          exact h ▸ .lock (.inr hpc) hm
  | check i =>
      by_cases hturn : t.num = s.flag
      · simp only [move, hpc, if_pos hturn, Option.some.injEq] at h
        exact h ▸ .pass hpc hturn
      · simp only [move, hpc, if_neg hturn, Option.some.injEq] at h
        exact h ▸ .sleep hpc hturn
  | print i j =>
      by_cases hlt : j < t.num
      · simp only [move, hpc, if_pos hlt, Option.some.injEq] at h
        exact h ▸ .print hpc hlt
      · simp only [move, hpc, if_neg hlt, Option.some.injEq] at h
        exact h ▸ .printed hpc hlt
  | toggle i =>
      simp only [move, hpc, Option.some.injEq] at h
      exact h ▸ .toggle hpc
  | unlock i =>
      simp only [move, hpc, Option.some.injEq] at h
      exact h ▸ .unlock hpc
  | asleep i => simp [move, hpc] at h
  | notify i => simp [move, hpc] at h
  | done => simp [move, hpc] at h

/-- Nobody waits exactly when `notify_one` may find nobody. -/
theorem nobody_asleep {s : State}
    (h : ¬ ((s.pc .child).isAsleep || (s.pc .father).isAsleep) = true) :
    ∀ t i, s.pc t ≠ .asleep i := by
  intro t i ht
  rw [Bool.or_eq_true, not_or] at h
  cases t with
  | child => exact h.1 (by rw [ht]; rfl)
  | father => exact h.2 (by rw [ht]; rfl)

/-- Every step is one of them. -/
theorem step_moves {count : Nat} {s s' : State} {a : Act}
    (h : step count s a = some s') : Moves count s a s' := by
  cases a with
  | move t => exact move_moves h
  | notifyOne t waiter =>
      cases hpc : s.pc t with
      | notify i =>
          cases waiter with
          | some t' =>
              cases hpc' : s.pc t' with
              | asleep i' =>
                  simp only [step, hpc, hpc', Option.some.injEq] at h
                  exact h ▸ .notifyOne hpc hpc'
              | _ => simp [step, hpc, hpc'] at h
          | none =>
              simp only [step, hpc] at h
              split at h
              next => cases h
              next hnone =>
                exact Option.some.inj h ▸ .notifyNone hpc (nobody_asleep hnone)
      | _ => simp [step, hpc] at h
  | spurious t =>
      cases hpc : s.pc t with
      | asleep i =>
          simp only [step, hpc, Option.some.injEq] at h
          exact h ▸ .spurious hpc
      | _ => simp [step, hpc] at h

end DailyStudy.Turns
