/-
Which writer starts keep the token accounting of the covering ring.

The ring's own steps keep it from any state on (`balanced_moves`). A
start zeroes the token count and both counters, so it keeps the accounts
exactly when nobody holds a token at that moment; the writers are outside
of `Write`, and what is left to ask is where the reader stands.
-/
import DailyStudy.Covering.Restarts
import DailyStudy.Covering.Proofs.Tokens

namespace DailyStudy.Covering

open Interleave

variable {W : Type} [DecidableEq W] [Fintype W]

/-- The tokens of `sem_read`, those the reader and the writers have in
their hands, and the counters. -/
def Accounted (s : State W) : Prop :=
  (s.mem.semRead : Int) + s.reader.holds.toNat
      + census WritePc.owes s.writer
    = (s.mem.nextWriteSlot : Int) - s.mem.nextReadSlot

/-- A start does not come while the reader is past `sem_wait` and not yet
past its `fetch_add`. -/
def OutsideHold (s : State W) : RestartAct W → Prop
  | .start => s.reader.holds = false
  | .ring _ => True

instance (s : State W) (a : RestartAct W) : Decidable (OutsideHold s a) := by
  cases a <;> unfold OutsideHold <;> infer_instance

omit [DecidableEq W] in
theorem accounted_iff {s : State W} : Accounted s ↔ Balanced s := by
  unfold Accounted Balanced
  omega

theorem accounted_init : Accounted (restarts W).init :=
  accounted_iff.mpr tokens_init.balance

omit [DecidableEq W] in
/-- After a start the accounts are what the reader holds. -/
theorem accounted_construct_iff {s : State W}
    (hidle : ∀ w, s.writer w = .idle) :
    Accounted { s with mem := s.mem.construct }
      ↔ s.reader.holds = false := by
  have howes : census WritePc.owes s.writer = 0 := by
    apply census_eq_zero.mpr
    intro w
    rw [hidle w]
    rfl
  obtain ⟨hsem, hread, hwrite⟩ := construct_counts s.mem
  unfold Accounted
  rw [hsem, hread, hwrite, howes]
  cases s.reader.holds <;> decide

/-- Along a run, the tokens are accounted for in every state exactly when
no writer starts while the reader holds one. -/
theorem tokens_accounted_iff {acts : List (RestartAct W)} {t : State W}
    (hrun : (restarts W).run (restarts W).init acts = some t) :
    (restarts W).Always Accounted (restarts W).init acts
      ↔ (restarts W).Meets OutsideHold (restarts W).init acts := by
  apply System.always_iff_meets (I := Accounted)
  · exact id
  · intro s a s' h hguard hstep
    cases a with
    | ring a =>
        have hb := balanced_moves (accounted_iff.mp h) (step_moves hstep)
        exact accounted_iff.mpr hb
    | start =>
        obtain ⟨hidle, rfl⟩ := start_eq_some hstep
        exact (accounted_construct_iff hidle).mpr hguard
  · intro s a s' _ hguard hstep
    cases a with
    | ring a => exact absurd trivial hguard
    | start =>
        obtain ⟨hidle, rfl⟩ := start_eq_some hstep
        exact fun h => hguard ((accounted_construct_iff hidle).mp h)
  · exact accounted_init
  · exact hrun

/-- A whole `Write` of the first writer after a start. -/
def firstWrite : List (RestartAct Unit) :=
  [.ring (.callWrite () 7), .ring (.write ()), .ring (.write ()),
    .ring (.write ()), .ring (.write ()), .ring (.write ()),
    .ring (.write ()), .ring (.write ())]

/-- The second writer program starts before the reader is called. -/
theorem tokens_accounted_quiet :
    ((restarts Unit).run (restarts Unit).init
        (firstWrite ++ [.start, .ring .callRead])).isSome = true
      ∧ (restarts Unit).Always Accounted (restarts Unit).init
        (firstWrite ++ [.start, .ring .callRead]) := by
  have hdone : ((restarts Unit).run (restarts Unit).init
      (firstWrite ++ [.start, .ring .callRead])).isSome = true := by
    decide
  obtain ⟨t, hrun⟩ := Option.isSome_iff_exists.mp hdone
  exact ⟨hdone, (tokens_accounted_iff hrun).mpr (by decide)⟩

/-- It starts after the reader's `sem_wait`: the token the reader holds is
in no account. -/
theorem start_unbalances :
    ¬ ∀ s, (restarts Unit).Reachable s → Accounted s := by
  intro hall
  obtain ⟨s, hrun, hcounts⟩ := Option.map_eq_some_iff.mp
    (by decide : ((restarts Unit).run (restarts Unit).init
      (firstWrite ++ [.ring .callRead, .ring .read, .start])).map
        (fun s => (s.mem.semRead, s.reader.holds, s.mem.nextWriteSlot,
          s.mem.nextReadSlot)) = some (0, true, 0, 0))
  have haccounts := hall s (System.reachable_iff_run.mpr ⟨_, hrun⟩)
  simp only [Prod.mk.injEq] at hcounts
  obtain ⟨hsem, hholds, hwritten, hread⟩ := hcounts
  unfold Accounted at haccounts
  rw [hsem, hholds, hwritten, hread, Bool.toNat_true] at haccounts
  omega

end DailyStudy.Covering
