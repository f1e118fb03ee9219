/-
The mutex of the condition-variable ring: whoever is inside the critical
section owns it, so the whole ring has one phase at a time.

Writers and readers are one family here (`threads`), and the mutex is a
resource with one owner among them. `phase` is the program point of that
owner, or `idle` while the mutex is free. The other files of this folder
state what holds of the shared memory phase by phase; which phase a step
leads to is settled here, once.
-/
import DailyStudy.Cv.Basic
import DailyStudy.Lib.Census
import DailyStudy.Lib.Owner

namespace DailyStudy.Cv

open Interleave

/-- Inside the critical section: the mutex is held. -/
def WritePc.critical : WritePc → Bool
  | .check _ | .claim _ | .store _ _ | .notify _ | .unlock _ => true
  | _ => false

/-- Inside the critical section: the mutex is held. -/
def ReadPc.critical : ReadPc → Bool
  | .check | .claim | .load _ | .notify _ | .unlock _ => true
  | _ => false

/-- Inside the critical section, for a thread of either kind. -/
def critical : WritePc ⊕ ReadPc → Bool :=
  Sum.elim WritePc.critical ReadPc.critical

variable {W R : Type}

/-- Where every thread stands. -/
def threads (s : State W R) : W ⊕ R → WritePc ⊕ ReadPc :=
  Sum.map s.writer s.reader

/-- The critical threads are the owner of the mutex, and nobody while it
is free. -/
def Exclusive (s : State W R) : Prop :=
  Owns critical s.mem.mutex (threads s)

theorem Exclusive.writer {s : State W R} (hx : Exclusive s) (w : W) :
    (s.writer w).critical = true ↔ s.mem.mutex = some (.inl w) :=
  hx (.inl w)

theorem Exclusive.reader {s : State W R} (hx : Exclusive s) (r : R) :
    (s.reader r).critical = true ↔ s.mem.mutex = some (.inr r) :=
  hx (.inr r)

/-- With nobody inside the mutex is free. -/
theorem Exclusive.mutex_free {s : State W R} (hx : Exclusive s)
    (hw : ∀ w, (s.writer w).critical = false)
    (hr : ∀ r, (s.reader r).critical = false) : s.mem.mutex = none := by
  refine Owns.none_of_outside hx fun t => ?_
  cases t with
  | inl w => exact hw w
  | inr r => exact hr r

/-- Where the owner of the mutex stands; `idle` while it is free. -/
def phase (s : State W R) : WritePc ⊕ ReadPc :=
  match s.mem.mutex with
  | none => .inl .idle
  | some t => threads s t

-- ======================================================== reading the phase

theorem phase_free {s : State W R} (h : s.mem.mutex = none) :
    phase s = .inl .idle := by
  unfold phase
  rw [h]

/-- A thread inside the critical section is the phase. -/
private theorem Exclusive.phase_inside {s : State W R} (hx : Exclusive s)
    (t : W ⊕ R) (hc : critical (threads s t) = true) :
    phase s = threads s t := by
  unfold phase
  rw [(hx t).mp hc]

theorem Exclusive.phase_writer {s : State W R} (hx : Exclusive s) {w : W}
    {pc : WritePc} (hpc : s.writer w = pc) (hc : pc.critical = true) :
    phase s = .inl pc := by
  subst hpc
  exact hx.phase_inside (.inl w) hc

theorem Exclusive.phase_reader {s : State W R} (hx : Exclusive s) {r : R}
    {pc : ReadPc} (hpc : s.reader r = pc) (hc : pc.critical = true) :
    phase s = .inr pc := by
  subst hpc
  exact hx.phase_inside (.inr r) hc

-- ============================================================= preservation

variable [DecidableEq W] [DecidableEq R]

/-- One writer moves. -/
theorem threads_writer {s s' : State W R} {w : W} {new : WritePc}
    (hwriter : s'.writer = Function.update s.writer w new)
    (hreader : s'.reader = s.reader) :
    threads s' = Function.update (threads s) (.inl w) (.inl new) := by
  unfold threads Sum.map
  rw [hwriter, hreader, Function.comp_update, Sum.update_elim_inl]

/-- One reader moves. -/
theorem threads_reader {s s' : State W R} {r : R} {new : ReadPc}
    (hreader : s'.reader = Function.update s.reader r new)
    (hwriter : s'.writer = s.writer) :
    threads s' = Function.update (threads s) (.inr r) (.inr new) := by
  unfold threads Sum.map
  rw [hwriter, hreader, Function.comp_update, Sum.update_elim_inr]

/-- The mutex as the move of one writer leaves it. -/
private theorem Exclusive.of_writer (s : State W R) {s' : State W R}
    {w : W} {new : WritePc}
    (hwriter : s'.writer = Function.update s.writer w new)
    (hreader : s'.reader = s.reader)
    (h : Owns critical s'.mem.mutex
      (Function.update (threads s) (.inl w) (.inl new))) : Exclusive s' := by
  unfold Exclusive
  rw [threads_writer hwriter hreader]
  exact h

/-- The mutex as the move of one reader leaves it. -/
private theorem Exclusive.of_reader (s : State W R) {s' : State W R}
    {r : R} {new : ReadPc}
    (hreader : s'.reader = Function.update s.reader r new)
    (hwriter : s'.writer = s.writer)
    (h : Owns critical s'.mem.mutex
      (Function.update (threads s) (.inr r) (.inr new))) : Exclusive s' := by
  unfold Exclusive
  rw [threads_reader hreader hwriter]
  exact h

omit [DecidableEq W] [DecidableEq R] in
@[simp] theorem WritePc.critical_wake (pc : WritePc) :
    pc.wake.critical = pc.critical := by
  cases pc <;> rfl

omit [DecidableEq W] [DecidableEq R] in
/-- Waking all sleepers takes nobody into the critical section. -/
private theorem Exclusive.wake {s : State W R} (hx : Exclusive s) :
    Exclusive { s with writer := fun w => (s.writer w).wake } := by
  refine Owns.congr hx fun t => ?_
  cases t with
  | inl w => exact (s.writer w).critical_wake
  | inr r => rfl

/-- Every step keeps the mutex exclusive. -/
theorem exclusive_moves {s s' : State W R} {a : Act W R}
    {es : List (QueueOp Int)} (hx : Exclusive s) (hm : Moves s a s' es) :
    Exclusive s' := by
  have hw : ∀ {w : W} {pc : WritePc}, s.writer w = pc →
      threads s (.inl w) = .inl pc := congrArg Sum.inl
  have hr : ∀ {r : R} {pc : ReadPc}, s.reader r = pc →
      threads s (.inr r) = .inr pc := congrArg Sum.inr
  cases hm with
  | callWrite hpc => exact .of_writer s rfl rfl (hx.stay (hw hpc) rfl)
  | lockWrite _ hfree => exact .of_writer s rfl rfl (hx.acquire hfree rfl)
  | passWrite hpc _ => exact .of_writer s rfl rfl (hx.stay (hw hpc) rfl)
  | sleepWrite hpc _ => exact .of_writer s rfl rfl (hx.release (hw hpc) rfl rfl)
  | claimWrite hpc => exact .of_writer s rfl rfl (hx.stay (hw hpc) rfl)
  | store hpc => exact .of_writer s rfl rfl (hx.stay (hw hpc) rfl)
  | @notifyOne w v r hpc hasleep =>
      -- the reader wakes first; it is outside before and after
      let woken := { s with reader := Function.update s.reader r .woken }
      have hwoken : Exclusive woken :=
        .of_reader s rfl rfl (hx.stay (hr hasleep) rfl)
      have hnotify : threads woken (.inl w) = .inl (.notify v) := hw hpc
      exact .of_writer woken rfl rfl (hwoken.stay hnotify rfl)
  | notifyNone hpc _ => exact .of_writer s rfl rfl (hx.stay (hw hpc) rfl)
  | unlockWrite hpc => exact .of_writer s rfl rfl (hx.release (hw hpc) rfl rfl)
  | spuriousWrite hpc => exact .of_writer s rfl rfl (hx.stay (hw hpc) rfl)
  | callRead hpc => exact .of_reader s rfl rfl (hx.stay (hr hpc) rfl)
  | lockRead _ hfree => exact .of_reader s rfl rfl (hx.acquire hfree rfl)
  | passRead hpc _ => exact .of_reader s rfl rfl (hx.stay (hr hpc) rfl)
  | sleepRead hpc _ => exact .of_reader s rfl rfl (hx.release (hr hpc) rfl rfl)
  | claimRead hpc => exact .of_reader s rfl rfl (hx.stay (hr hpc) rfl)
  | load hpc => exact .of_reader s rfl rfl (hx.stay (hr hpc) rfl)
  | @notifyAll r v hpc =>
      let woken := { s with writer := fun w => (s.writer w).wake }
      have hnotify : threads woken (.inr r) = .inr (.notify v) := hr hpc
      exact .of_reader woken rfl rfl (hx.wake.stay hnotify rfl)
  | unlockRead hpc => exact .of_reader s rfl rfl (hx.release (hr hpc) rfl rfl)
  | spuriousRead hpc => exact .of_reader s rfl rfl (hx.stay (hr hpc) rfl)

theorem exclusive_init [Fintype R] : Exclusive (ring W R).init := by
  intro t
  cases t with
  | inl w => exact iff_of_false nofun nofun
  | inr r => exact iff_of_false nofun nofun

-- ======================================================== moves outside of it

/-- A thread outside the critical section does not move the phase. -/
private theorem Exclusive.phase_outside {s s' : State W R}
    (hx : Exclusive s) (t : W ⊕ R) {new : WritePc ⊕ ReadPc}
    (hold : critical (threads s t) = false)
    (hmutex : s'.mem.mutex = s.mem.mutex)
    (hthreads : threads s' = Function.update (threads s) t new) :
    phase s' = phase s := by
  unfold phase
  rw [hmutex]
  cases hm : s.mem.mutex with
  | none => rfl
  | some u =>
      have hne : u ≠ t := fun hut => by
        have hin := (hx t).mpr (hut ▸ hm)
        rw [hold] at hin
        cases hin
      show threads s' u = threads s u
      rw [hthreads, Function.update_of_ne hne]

/-- A writer outside the critical section does not move the phase. -/
theorem Exclusive.phase_outside_writer {s : State W R} (hx : Exclusive s)
    {w : W} {old new : WritePc} (hpc : s.writer w = old)
    (hold : old.critical = false) :
    phase { s with writer := Function.update s.writer w new } = phase s := by
  subst hpc
  exact hx.phase_outside (.inl w) hold rfl (threads_writer rfl rfl)

/-- A reader outside the critical section does not move the phase. -/
theorem Exclusive.phase_outside_reader {s : State W R} (hx : Exclusive s)
    {r : R} {old new : ReadPc} (hpc : s.reader r = old)
    (hold : old.critical = false) :
    phase { s with reader := Function.update s.reader r new } = phase s := by
  subst hpc
  exact hx.phase_outside (.inr r) hold rfl (threads_reader rfl rfl)

end DailyStudy.Cv
