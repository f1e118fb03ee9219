/-
Token accounting of the covering ring: every ticket a writer claimed is
a token of `sem_read`, on its way into it, on its way out of it, or a
ticket the reader claimed.

The `rw_status` lock plays no part: the equation holds however the
threads pass their acquisition loops.
-/
import DailyStudy.Covering.Basic
import DailyStudy.Lib.Census

namespace DailyStudy.Covering

open Interleave

/-- Past `next_write_slot_.fetch_add` and not yet past
`sem_post(sem_read)`. -/
def WritePc.owes : WritePc → Bool
  | .store _ _ | .post => true
  | _ => false

/-- Past `sem_wait(sem_read)` and not yet past
`next_read_slot_.fetch_add`. -/
def ReadPc.holds : ReadPc → Bool
  | .loop _ | .claim => true
  | _ => false

variable {W : Type}

/-- Where the claimed tickets are, and which ticket the reader loads. -/
structure Tokens [Fintype W] (s : State W) : Prop where
  balance : s.mem.semRead + s.reader.holds.toNat
      + census WritePc.owes s.writer + s.mem.nextReadSlot
    = s.mem.nextWriteSlot
  loading : ∀ t, s.reader = .load t → s.mem.nextReadSlot = t + 1

/-- The reader never claims a ticket no writer claimed. -/
theorem Tokens.read_le [Fintype W] {s : State W} (h : Tokens s) :
    s.mem.nextReadSlot ≤ s.mem.nextWriteSlot := by
  have hb := h.balance
  omega

variable [DecidableEq W] [Fintype W]

theorem tokens_init : Tokens (ring W).init where
  balance := by
    show 0 + 0 + census WritePc.owes (fun _ : W => WritePc.idle) + 0 = 0
    rw [census_const rfl]
  loading t h := by cases h

/-- The accounts alone. -/
def Balanced (s : State W) : Prop :=
  s.mem.semRead + s.reader.holds.toNat + census WritePc.owes s.writer
      + s.mem.nextReadSlot
    = s.mem.nextWriteSlot

/-- A writer moves, and what it owes goes with it. -/
private theorem balance_writer {s : State W} (h : Balanced s) {w : W}
    {old new : WritePc} (hpc : s.writer w = old) {semRead write : Nat}
    (hmove : semRead + new.owes.toNat + s.mem.nextWriteSlot
      = s.mem.semRead + old.owes.toNat + write) :
    semRead + s.reader.holds.toNat
        + census WritePc.owes (Function.update s.writer w new)
        + s.mem.nextReadSlot = write := by
  unfold Balanced at h
  have hc := census_move WritePc.owes hpc new
  omega

omit [DecidableEq W] in
/-- The reader moves, and what it holds goes with it. -/
private theorem balance_reader {s : State W} (h : Balanced s)
    {old new : ReadPc} (hpc : s.reader = old) {semRead read : Nat}
    (hmove : semRead + new.holds.toNat + read
      = s.mem.semRead + old.holds.toNat + s.mem.nextReadSlot) :
    semRead + new.holds.toNat + census WritePc.owes s.writer + read
      = s.mem.nextWriteSlot := by
  unfold Balanced at h
  rw [hpc] at h
  omega

/-- Every step keeps the accounts. -/
theorem balanced_moves {s s' : State W} {a : Act W} (h : Balanced s)
    (hm : Moves s a s') : Balanced s' := by
  cases hm with
  | callWrite hpc => exact balance_writer h hpc rfl
  | spinWrite hpc _ => exact balance_writer h hpc rfl
  | slipWrite hpc _ => exact balance_writer h hpc rfl
  | lockWrite hpc _ => exact balance_writer h hpc rfl
  | claimWrite hpc =>
      apply balance_writer h hpc
      show s.mem.semRead + 1 + s.mem.nextWriteSlot
        = s.mem.semRead + 0 + (s.mem.nextWriteSlot + 1)
      omega
  | store hpc => exact balance_writer h hpc rfl
  | postWrite hpc =>
      apply balance_writer h hpc
      show s.mem.semRead + 1 + 0 + s.mem.nextWriteSlot
        = s.mem.semRead + 1 + s.mem.nextWriteSlot
      rfl
  | releaseWrite hpc => exact balance_writer h hpc rfl
  | callRead hpc => exact balance_reader h hpc rfl
  | waitRead hpc hsem =>
      apply balance_reader h hpc
      show s.mem.semRead - 1 + 1 + s.mem.nextReadSlot
        = s.mem.semRead + 0 + s.mem.nextReadSlot
      rw [Nat.sub_add_cancel hsem]
      rfl
  | spinRead hpc _ => exact balance_reader h hpc rfl
  | slipRead hpc _ => exact balance_reader h hpc rfl
  | lockRead hpc _ => exact balance_reader h hpc rfl
  | claimRead hpc =>
      apply balance_reader h hpc
      show s.mem.semRead + 0 + (s.mem.nextReadSlot + 1)
        = s.mem.semRead + 1 + s.mem.nextReadSlot
      omega
  | load hpc => exact balance_reader h hpc rfl
  | test hpc => exact balance_reader h hpc rfl
  | releaseRead hpc => exact balance_reader h hpc rfl

/-- Every step keeps the accounts and the ticket the reader loads. -/
theorem tokens_moves {s s' : State W} {a : Act W} (h : Tokens s)
    (hm : Moves s a s') : Tokens s' := by
  refine ⟨balanced_moves h.balance hm, ?_⟩
  cases hm with
  | callWrite _ | spinWrite _ _ | slipWrite _ _ | lockWrite _ _
  | claimWrite _ | store _ | postWrite _ | releaseWrite _ =>
      exact h.loading
  | claimRead _ =>
      intro t ht
      cases ht
      rfl
  | callRead _ | waitRead _ _ | spinRead _ _ | slipRead _ _ | lockRead _ _
  | load _ | test _ | releaseRead _ => nofun

end DailyStudy.Covering
