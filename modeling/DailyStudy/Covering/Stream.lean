/-
One life of the mmap7 programs: the writer's `main`, its writer threads,
the destructor's end flag, and the reader thread's loop.

The threads are those of the ring, the writer's main thread among the
writers (`none`), and `permits` is what the two `main`s and thread
bodies allow them: `WriterThread` calls `Write` with any values but the
end flag, `main` joins the threads and the destructor then calls
`Write(end_flag)` once; `ReaderThread` calls `Read` while its
`should_continue` holds.
-/
import DailyStudy.Covering.Basic
import Mathlib.Data.Fintype.Basic

namespace DailyStudy.Covering

open Interleave

/-- How far the writer process' main thread is. -/
inductive MainPc
  | running
  | joined
  | destroying
  deriving DecidableEq, Repr

/-- The ring and the main thread. -/
structure Process (W : Type) where
  ring : State (Option W)
  main : MainPc

/-- What the scheduler picks: a thread of the ring, or the return of the
last `join`. -/
inductive StreamAct (W : Type)
  | ring (a : Act (Option W))
  | join

variable {W : Type} [DecidableEq W]

/-- Which calls the programs make. -/
def permits (p : Process W) : Act (Option W) → Prop
  | .callWrite (some _) value => p.main = .running ∧ value ≠ endFlag
  | .callWrite none value => p.main = .joined ∧ value = endFlag
  | .callRead => p.ring.shouldContinue = true
  | .write _ | .read => True

instance (p : Process W) : ∀ a, Decidable (permits p a)
  | .callWrite (some _) _ => inferInstanceAs (Decidable (_ ∧ _))
  | .callWrite none _ => inferInstanceAs (Decidable (_ ∧ _))
  | .callRead => inferInstanceAs (Decidable (_ = _))
  | .write _ | .read => .isTrue trivial

/-- The destructor runs from its call of `Write` on. -/
def MainPc.after (main : MainPc) : Act (Option W) → MainPc
  | .callWrite none _ => .destroying
  | _ => main

/-- One step of one thread of the two processes. -/
def streamStep [Fintype W] (p : Process W) :
    StreamAct W → Option (Process W)
  | .ring a =>
      if permits p a then
        (step p.ring a).map fun s => { ring := s, main := p.main.after a }
      else none
  | .join =>
      if p.main = .running ∧ ∀ w, p.ring.writer (some w) = .idle then
        some { p with main := .joined }
      else none

/-- The two processes, with writer threads `W`, from the writer's start
on a new segment on. -/
def stream (W : Type) [DecidableEq W] [Fintype W] :
    System (Process W) (StreamAct W) where
  init := { ring := (ring (Option W)).init, main := .running }
  step := streamStep

/-- The ticket the reader loads next: the number of slots it loaded. -/
def State.loaded (s : State (Option W)) : Nat :=
  match s.reader with
  | .load ticket => ticket
  | _ => s.mem.nextReadSlot

/-- What is observed: the end flag is stored, with so many published
values whose slots the reader has not loaded yet. -/
def flagObs (p : Process W) : StreamAct W → List Nat
  | .ring (.write none) =>
      match p.ring.writer none with
      | .store _ ticket => [ticket - p.ring.loaded]
      | _ => []
  | _ => []

/-- The steps of the processes. -/
inductive StreamMoves (p : Process W) : StreamAct W → Process W → Prop
  | ring {a : Act (Option W)} {s' : State (Option W)}
      (hguard : permits p a) (hm : Moves p.ring a s') :
      StreamMoves p (.ring a) { ring := s', main := p.main.after a }
  | join (hrun : p.main = .running)
      (hidle : ∀ w, p.ring.writer (some w) = .idle) :
      StreamMoves p .join { p with main := .joined }

/-- Every step is one of them. -/
theorem streamStep_moves [Fintype W] {p p' : Process W} {a : StreamAct W}
    (h : streamStep p a = some p') : StreamMoves p a p' := by
  cases a with
  | ring a =>
      by_cases hguard : permits p a
      · rw [streamStep, if_pos hguard] at h
        obtain ⟨s', hstep, rfl⟩ := Option.map_eq_some_iff.mp h
        exact .ring hguard (step_moves hstep)
      · rw [streamStep, if_neg hguard] at h
        cases h
  | join =>
      by_cases hjoin : p.main = .running
          ∧ ∀ w, p.ring.writer (some w) = .idle
      · rw [streamStep, if_pos hjoin] at h
        obtain rfl := Option.some.inj h
        exact .join hjoin.1 hjoin.2
      · rw [streamStep, if_neg hjoin] at h
        cases h

end DailyStudy.Covering
