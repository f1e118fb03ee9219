/-
`Key::operator<` as an order: lexicographic on the text of `a`, its bytes
before the first NUL, and then on `b`.

The text is all `strncmp` sees of `a`, so two keys may differ in the
bytes after it and be equal; on the pairs of texts and strings the order
is linear (`Key.rank`), and everything `std::map` asks of it follows from
there.
-/
import DailyStudy.Map.Basic
import Mathlib.Data.Prod.Lex

namespace DailyStudy.Map

open CString

/-- What the comparisons see of a key, in the order they look at it. -/
def Key.rank (k : Key) : List UInt8 ×ₗ List UInt8 :=
  toLex (upToNul k.a.toList, k.b)

private theorem Key.length_a (k : Key) : k.a.toList.length = sizeofA :=
  Vector.length_toList

/-- The count of the comparisons is the whole array. -/
private theorem Key.take_a (k : Key) :
    k.a.toList.take sizeofA = k.a.toList :=
  List.take_of_length_le k.length_a.le

theorem Key.cmp_neg {k other : Key} :
    k.cmp other < 0 ↔ upToNul k.a.toList < upToNul other.a.toList := by
  unfold Key.cmp
  rw [strncmp_neg k.length_a.ge other.length_a.ge, k.take_a, other.take_a]

theorem Key.cmp_eq_zero {k other : Key} :
    k.cmp other = 0 ↔ upToNul k.a.toList = upToNul other.a.toList := by
  unfold Key.cmp
  rw [strncmp_eq_zero k.length_a.ge other.length_a.ge, k.take_a,
    other.take_a]

/-- `operator<` is the lexicographic order of the ranks. -/
theorem lt_iff_rank {k other : Key} : k < other ↔ k.rank < other.rank := by
  show k.less other = true ↔ _
  unfold Key.less Key.rank
  rw [Prod.Lex.toLex_lt_toLex, ← Key.cmp_neg, ← Key.cmp_eq_zero]
  by_cases hcmp : k.cmp other = 0
  · simp [hcmp]
  · simp [hcmp]

/-- `operator==` is equality of the ranks. -/
theorem beq_iff_rank {k other : Key} :
    (k == other) = true ↔ k.rank = other.rank := by
  show (k.cmp other == 0 && k.b == other.b) = true ↔ _
  unfold Key.rank
  rw [Bool.and_eq_true, beq_iff_eq, beq_iff_eq, Key.cmp_eq_zero]
  exact Prod.mk_inj.symm

/-- What `std::map` takes for the same key are keys of one rank. -/
theorem mapSame_iff_rank {k e : Key} : mapSame k e ↔ k.rank = e.rank := by
  unfold mapSame
  rw [lt_iff_rank, lt_iff_rank, not_lt, not_lt, and_comm]
  exact le_antisymm_iff.symm

/-- `operator<` is a strict weak order, and its equivalence is
`operator==`. -/
theorem lt_strict_weak_order :
    IsStrictWeakOrder Key (· < ·)
      ∧ ∀ x y : Key, ¬ x < y ∧ ¬ y < x ↔ (x == y) = true := by
  constructor
  · exact {
      irrefl := fun x h => lt_irrefl _ (lt_iff_rank.mp h)
      trans := fun x y z hxy hyz =>
        lt_iff_rank.mpr ((lt_iff_rank.mp hxy).trans (lt_iff_rank.mp hyz))
      incomp_trans := fun x y z hxy hyz =>
        mapSame_iff_rank.mpr ((mapSame_iff_rank.mp hxy).trans
          (mapSame_iff_rank.mp hyz)) }
  · intro x y
    rw [beq_iff_rank]
    exact mapSame_iff_rank

end DailyStudy.Map
