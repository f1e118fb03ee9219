/-
How long the predicates of mmap4_cv tell what is in the ring.

Both counters show their true counts less their turns, so as long as
`next_write_slot_` and `next_read_slot_` have made the same number of
turns their difference and their order are the true ones. While the
writers' counter is one turn ahead, and it is until the readers' follows,
the difference overflows and the reader's comparison is false.
-/
import DailyStudy.Counters.Basic

namespace DailyStudy.Counters

/-- The writer's predicate is computed without overflow and says whether
there is room, the reader's says whether there is something to read. -/
structure Faithful (count : Op → Nat) : Prop where
  canWrite : (State.after count).canWrite
    = some (decide (count .write - count .read < Cv.numSlots))
  canRead : (State.after count).canRead
    = decide (count .read < count .write)

variable {count : Op → Nat}

/-- The difference of the counters, by their turns. -/
theorem sub_toInt (hle : count .read ≤ count .write) :
    (State.after count).nextWriteSlot.toInt
        - (State.after count).nextReadSlot.toInt
      = ((count .write - count .read : Nat) : Int) - 2 ^ 32
        * (Wrap.turns 32 (count .write)
          - Wrap.turns 32 (count .read) : Nat) := by
  have hturns := Wrap.turns_mono (w := 32) hle
  unfold State.after
  rw [Wrap.toInt_ofNat_eq (by decide), Wrap.toInt_ofNat_eq (by decide)]
  omega

/-- Counters that have turned equally often are compared as the counts
are. -/
theorem faithful_of_turns (hle : count .read ≤ count .write)
    (hcap : count .write - count .read ≤ Cv.numSlots)
    (h : Wrap.turns 32 (count .write) = Wrap.turns 32 (count .read)) :
    Faithful count := by
  have hsub := sub_toInt hle
  rw [h, Nat.sub_self, Nat.cast_zero, mul_zero, sub_zero] at hsub
  have hcap' : count .write - count .read ≤ 100 := hcap
  constructor
  · unfold State.canWrite subInt
    rw [hsub, if_pos (by omega), Option.map_some, Option.some.injEq,
      decide_eq_decide]
    exact Nat.cast_lt
  · unfold State.canRead
    rw [decide_eq_decide]
    omega

/-- Between the two turns the predicate of the writer overflows. -/
theorem not_faithful_of_turns (hle : count .read ≤ count .write)
    (hcap : count .write - count .read ≤ Cv.numSlots)
    (h : Wrap.turns 32 (count .write) ≠ Wrap.turns 32 (count .read)) :
    ¬ Faithful count := by
  intro hf
  have hsub := sub_toInt hle
  have hmono := Wrap.turns_mono (w := 32) hle
  have hcap' : count .write - count .read ≤ 100 := hcap
  have hover : ¬ (-2 ^ 31 ≤ (State.after count).nextWriteSlot.toInt
        - (State.after count).nextReadSlot.toInt
      ∧ (State.after count).nextWriteSlot.toInt
        - (State.after count).nextReadSlot.toInt < 2 ^ 31) := by
    rw [hsub]
    omega
  have hnone : (State.after count).canWrite = none := by
    unfold State.canWrite subInt
    rw [if_neg hover]
    rfl
  rw [hf.canWrite] at hnone
  cases hnone

/-- For all call counts the ring can have: the two predicates are faithful
exactly when both counters have made the same number of turns. -/
theorem predicates_faithful_iff (hle : count .read ≤ count .write)
    (hcap : count .write - count .read ≤ Cv.numSlots) :
    Faithful count
      ↔ (count .write + 2 ^ 31) / 2 ^ 32 = (count .read + 2 ^ 31) / 2 ^ 32 := by
  constructor
  · intro hf
    by_contra hne
    exact not_faithful_of_turns hle hcap hne hf
  · exact faithful_of_turns hle hcap

/-- One item in the ring, both counters before their first turn. -/
def beforeTurn : Op → Nat
  | .write => 2 ^ 31 - 1
  | .read => 2 ^ 31 - 2

theorem faithful_before_turn : Faithful beforeTurn :=
  (predicates_faithful_iff (by decide) (by decide)).mpr (by decide)

/-- One item in the ring, and the writers' counter has turned. -/
def acrossTurn : Op → Nat
  | .write => 2 ^ 31
  | .read => 2 ^ 31 - 1

/-- The writer's predicate overflows, and the reader finds nothing. -/
theorem reader_sleeps_on_item :
    (State.after acrossTurn).canWrite = none
      ∧ (State.after acrossTurn).canRead = false
      ∧ acrossTurn .read < acrossTurn .write := by
  decide

end DailyStudy.Counters
