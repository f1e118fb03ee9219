/-
The covering ring across writer starts: the writer program's constructor
runs on the segment the reader has mapped, any number of times.

The constructor is one step here. It resets both counters and then,
behind a test of the counter it has just stored 0 to, the semaphores and
the status; where the reader stands it does not look.
-/
import DailyStudy.Covering.Basic
import Mathlib.Data.Fintype.Basic

namespace DailyStudy.Covering

open Interleave

variable {W : Type} [DecidableEq W] [Fintype W]

/-- What the scheduler picks: a step of the ring, or a start of the writer
program. -/
inductive RestartAct (W : Type)
  | ring (a : Act W)
  | start

/-- A start, while no `Write` is in progress. -/
def start (s : State W) : Option (State W) :=
  if ∀ w, s.writer w = .idle then some { s with mem := s.mem.construct }
  else none

/-- The ring with writer threads `W`, restarted by any number of writer
programs. -/
def restarts (W : Type) [DecidableEq W] [Fintype W] :
    System (State W) (RestartAct W) where
  init := (ring W).init
  step s
    | .ring a => step s a
    | .start => start s

/-- The constructor leaves the counters and the semaphores as on a new
segment, whatever it finds. -/
theorem construct_counts (m : SharedData) :
    m.construct.semRead = 0 ∧ m.construct.nextReadSlot = 0
      ∧ m.construct.nextWriteSlot = 0 :=
  ⟨rfl, rfl, rfl⟩

omit [DecidableEq W] in
/-- A start that happens finds no writer inside `Write`. -/
theorem start_eq_some {s s' : State W} (h : start s = some s') :
    (∀ w, s.writer w = .idle) ∧ s' = { s with mem := s.mem.construct } := by
  unfold start at h
  split at h
  next hidle => exact ⟨hidle, (Option.some.inj h).symm⟩
  next => cases h

end DailyStudy.Covering
