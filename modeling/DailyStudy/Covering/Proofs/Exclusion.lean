/-
The `rw_status` lock of the covering ring excludes exactly as long as
nobody slips past it.

# The condition

The acquisition loop is left by the exchange, which takes the lock, or
because its condition on the two counters is false, which takes nothing;
`store(IDLE)` at the end releases whatever there is. `KeepsSpinning`
says of a step that it does not leave the loop by its condition. While
all steps meet it, the status is `IDLE` exactly when nobody is inside
(`Held`). The first step that does not puts a thread inside that took no
lock: either the status is `IDLE` then, or somebody else is inside too.
-/
import DailyStudy.Covering.Basic
import DailyStudy.Lib.Census
import Mathlib.Data.Fintype.Basic

namespace DailyStudy.Covering

open Interleave

-- ================================================================ statements

/-- Between leaving the acquisition loop of `Write` and its
`rw_status.store(IDLE)`. -/
def WritePc.inside : WritePc → Bool
  | .claim _ | .store _ _ | .post | .release => true
  | _ => false

/-- Between leaving the acquisition loop of `Read` and its
`rw_status.store(IDLE)`. -/
def ReadPc.inside : ReadPc → Bool
  | .claim | .load _ | .test _ | .release _ => true
  | _ => false

/-- The counter a thread loaded first, if it is about to test the
condition of the loop. -/
def LoopPc.testing : LoopPc → Option Nat
  | .loadRead written => some written
  | _ => none

def WritePc.testing : WritePc → Option Nat
  | .loop _ pc => pc.testing
  | _ => none

def ReadPc.testing : ReadPc → Option Nat
  | .loop pc => pc.testing
  | _ => none

variable {W : Type}

/-- How many threads are inside. -/
def insiders [Fintype W] (s : State W) : Nat :=
  census WritePc.inside s.writer + s.reader.inside.toNat

/-- Mutual exclusion: at most one thread is inside, and the status is
not `IDLE` while one is. -/
def Excluded [Fintype W] (s : State W) : Prop :=
  insiders s ≤ 1 ∧ (0 < insiders s → s.mem.rwStatus ≠ .idle)

/-- The step does not leave the acquisition loop by its condition: a
thread about to test it finds it true. -/
def KeepsSpinning (s : State W) : Act W → Prop
  | .write w =>
      ∀ written ∈ (s.writer w).testing, spins written s.mem.nextReadSlot
  | .read => ∀ written ∈ s.reader.testing, spins written s.mem.nextReadSlot
  | _ => True

instance (s : State W) : ∀ a, Decidable (KeepsSpinning s a)
  | .write w =>
      inferInstanceAs (Decidable (∀ n ∈ (s.writer w).testing, spins n _))
  | .read => inferInstanceAs (Decidable (∀ n ∈ s.reader.testing, spins n _))
  | .callWrite _ _ | .callRead => .isTrue trivial

/-- A thread that goes on in the loop found its condition true. -/
theorem spins_of_acquire {m : SharedData} {status : RWStatus}
    {pc pc' : LoopPc} {n : Nat} (hn : n ∈ pc.testing)
    (hacq : m.acquire status pc = (some pc', m)) :
    spins n m.nextReadSlot := by
  cases pc with
  | loadRead written =>
      obtain rfl : written = n := Option.some.inj hn
      by_contra htest
      rw [SharedData.acquire, if_neg htest] at hacq
      cases hacq
  | loadWrite => cases hn
  | exchange => cases hn

-- ============================================================ the invariant

variable [Fintype W]

/-- The lock is held by exactly one insider, or free with nobody
inside. -/
def Held (s : State W) : Prop :=
  insiders s = if s.mem.rwStatus = .idle then 0 else 1

theorem Held.excluded {s : State W} (h : Held s) : Excluded s := by
  unfold Held at h
  unfold Excluded
  by_cases hidle : s.mem.rwStatus = .idle
  · rw [if_pos hidle] at h
    exact ⟨by omega, fun hpos => by omega⟩
  · rw [if_neg hidle] at h
    exact ⟨by omega, fun _ => hidle⟩

/-- One more insider, and the status as it was: no exclusion any more. -/
theorem Held.not_excluded_of_slip {s s' : State W} (h : Held s)
    (hin : insiders s' + 0 = insiders s + 1)
    (hst : s'.mem.rwStatus = s.mem.rwStatus) : ¬ Excluded s' := by
  intro hex
  obtain ⟨hone, hbusy⟩ := hex
  unfold Held at h
  by_cases hidle : s.mem.rwStatus = .idle
  · exact hbusy (by omega) (hst.trans hidle)
  · rw [if_neg hidle] at h
    omega

theorem held_congr {s s' : State W} (h : Held s)
    (hin : insiders s' = insiders s)
    (hst : s'.mem.rwStatus = s.mem.rwStatus) : Held s' := by
  unfold Held
  rw [hin, hst]
  exact h

/-- One more insider, who took the free lock. -/
theorem Held.enter {s s' : State W} (h : Held s)
    (hidle : s.mem.rwStatus = .idle)
    (hin : insiders s' + 0 = insiders s + 1)
    (hst : s'.mem.rwStatus ≠ .idle) : Held s' := by
  unfold Held at h ⊢
  rw [if_pos hidle] at h
  rw [if_neg hst]
  omega

/-- One insider less, who released the lock. -/
theorem Held.leave {s s' : State W} (h : Held s)
    (hin : insiders s' + 1 = insiders s + 0)
    (hst : s'.mem.rwStatus = .idle) : Held s' := by
  have hone := h.excluded.1
  unfold Held
  rw [if_pos hst]
  omega

variable [DecidableEq W]

theorem held_init : Held (ring W).init := by
  show census WritePc.inside (fun _ : W => WritePc.idle) + 0 = _
  rw [census_const rfl]
  rfl

/-- A writer moves: the insiders change by it alone. -/
private theorem insiders_writer {s s' : State W} {w : W}
    {old new : WritePc} {x y : Nat} (hpc : s.writer w = old)
    (hw : s'.writer = Function.update s.writer w new)
    (hr : s'.reader = s.reader) (hx : old.inside.toNat = x)
    (hy : new.inside.toNat = y) : insiders s' + x = insiders s + y := by
  have hc := census_move WritePc.inside hpc new
  unfold insiders
  rw [hw, hr]
  omega

/-- A writer moves inside, or outside, and leaves the status alone. -/
private theorem held_writer {s s' : State W} (h : Held s) {w : W}
    {old new : WritePc} (hpc : s.writer w = old)
    (hw : s'.writer = Function.update s.writer w new)
    (hr : s'.reader = s.reader)
    (hst : s'.mem.rwStatus = s.mem.rwStatus)
    (hside : new.inside = old.inside) : Held s' := by
  have hin := insiders_writer hpc hw hr rfl (congrArg Bool.toNat hside)
  exact held_congr h (Nat.add_right_cancel hin) hst

omit [DecidableEq W] in
/-- The reader moves: the insiders change by it alone. -/
private theorem insiders_reader {s s' : State W} {old : ReadPc}
    {x y : Nat} (hpc : s.reader = old) (hw : s'.writer = s.writer)
    (hx : old.inside.toNat = x) (hy : s'.reader.inside.toNat = y) :
    insiders s' + x = insiders s + y := by
  unfold insiders
  rw [hw, hpc]
  omega

omit [DecidableEq W] in
/-- The reader moves inside, or outside, and leaves the status alone. -/
private theorem held_reader {s s' : State W} (h : Held s) {old : ReadPc}
    (hpc : s.reader = old) (hw : s'.writer = s.writer)
    (hst : s'.mem.rwStatus = s.mem.rwStatus)
    (hside : s'.reader.inside = old.inside) : Held s' := by
  have hin := insiders_reader hpc hw rfl (congrArg Bool.toNat hside)
  exact held_congr h (Nat.add_right_cancel hin) hst

/-- Steps that do not slip keep the lock held. -/
theorem held_moves {s s' : State W} {a : Act W} (h : Held s)
    (hguard : KeepsSpinning s a) (hm : Moves s a s') : Held s' := by
  cases hm with
  | callWrite hpc => exact held_writer h hpc rfl rfl rfl rfl
  | spinWrite hpc _ => exact held_writer h hpc rfl rfl rfl rfl
  | slipWrite hpc htest =>
      exact absurd (hguard _ (by rw [hpc]; rfl)) htest
  | lockWrite hpc hidle =>
      exact h.enter hidle (insiders_writer hpc rfl rfl rfl rfl) (by simp)
  | claimWrite hpc => exact held_writer h hpc rfl rfl rfl rfl
  | store hpc => exact held_writer h hpc rfl rfl rfl rfl
  | postWrite hpc => exact held_writer h hpc rfl rfl rfl rfl
  | releaseWrite hpc => exact h.leave (insiders_writer hpc rfl rfl rfl rfl) rfl
  | callRead hpc => exact held_reader h hpc rfl rfl rfl
  | waitRead hpc _ => exact held_reader h hpc rfl rfl rfl
  | spinRead hpc _ => exact held_reader h hpc rfl rfl rfl
  | slipRead hpc htest =>
      exact absurd (hguard _ (by rw [hpc]; rfl)) htest
  | lockRead hpc hidle =>
      exact h.enter hidle (insiders_reader hpc rfl rfl rfl) (by simp)
  | claimRead hpc => exact held_reader h hpc rfl rfl rfl
  | load hpc => exact held_reader h hpc rfl rfl rfl
  | test hpc => exact held_reader h hpc rfl rfl rfl
  | releaseRead hpc => exact h.leave (insiders_reader hpc rfl rfl rfl) rfl

/-- A step that slips breaks the exclusion. -/
theorem not_excluded_moves {s s' : State W} {a : Act W} (h : Held s)
    (hguard : ¬ KeepsSpinning s a) (hm : Moves s a s') : ¬ Excluded s' := by
  cases hm with
  | slipWrite hpc _ =>
      exact h.not_excluded_of_slip (insiders_writer hpc rfl rfl rfl rfl) rfl
  | slipRead hpc _ =>
      exact h.not_excluded_of_slip (insiders_reader hpc rfl rfl rfl) rfl
  | spinWrite hpc hacq =>
      refine absurd (fun n hn => ?_) hguard
      rw [hpc] at hn
      exact spins_of_acquire hn hacq
  | spinRead hpc hacq =>
      refine absurd (fun n hn => ?_) hguard
      rw [hpc] at hn
      exact spins_of_acquire hn hacq
  | callWrite _ => exact absurd trivial hguard
  | callRead _ => exact absurd trivial hguard
  | lockWrite hpc _ =>
      refine absurd (fun n hn => ?_) hguard
      rw [hpc] at hn
      cases hn
  | claimWrite hpc => simp [KeepsSpinning, WritePc.testing, hpc] at hguard
  | store hpc => simp [KeepsSpinning, WritePc.testing, hpc] at hguard
  | postWrite hpc => simp [KeepsSpinning, WritePc.testing, hpc] at hguard
  | releaseWrite hpc => simp [KeepsSpinning, WritePc.testing, hpc] at hguard
  | waitRead hpc _ => simp [KeepsSpinning, ReadPc.testing, hpc] at hguard
  | lockRead hpc _ =>
      refine absurd (fun n hn => ?_) hguard
      rw [hpc] at hn
      cases hn
  | claimRead hpc => simp [KeepsSpinning, ReadPc.testing, hpc] at hguard
  | load hpc => simp [KeepsSpinning, ReadPc.testing, hpc] at hguard
  | test hpc => simp [KeepsSpinning, ReadPc.testing, hpc] at hguard
  | releaseRead hpc => simp [KeepsSpinning, ReadPc.testing, hpc] at hguard

-- ==================================================================== the runs

/-- Two writers test the counters of the empty ring before either has
the lock; then one holds it after the other, and the reader is called. -/
def politeRun : List (Act Bool) :=
  [.callWrite false 7, .callWrite true 8, .write false, .write true,
    .write false, .write true, .write false, .write false, .write false,
    .write false, .write false, .write true, .write true, .write true,
    .write true, .write true, .callRead]

/-- After one whole `Write` the ring is partly filled, so the next
writer and the reader both walk past the lock. -/
def slippingRun : List (Act Bool) :=
  [.callWrite false 7, .write false, .write false, .write false,
    .write false, .write false, .write false, .write false,
    .callWrite true 8, .write true, .write true, .callRead, .read, .read,
    .read]

end DailyStudy.Covering
