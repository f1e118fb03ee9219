/-
Machine counters that only count up: the number of increments, reduced
to `w` bits and read as two's complement.

The value a counter shows is the true count less its whole turns
(`toInt_ofNat_eq`), so two counters show their true difference exactly
when they have made the same number of turns, and a counter shows its
true count exactly when it has made none (`turns_eq_zero`).
-/
import Mathlib.Data.Int.Basic
import Mathlib.Tactic.Ring

namespace Wrap

variable {w : Nat}

/-- How often a counter has gone from its greatest value to its least,
after `n` increments. -/
def turns (w n : Nat) : Nat := (n + 2 ^ (w - 1)) / 2 ^ w

/-- One more increment. -/
theorem ofNat_add_one (n : Nat) :
    BitVec.ofNat w n + 1 = BitVec.ofNat w (n + 1) := by
  rw [BitVec.ofNat_add]
  rfl

theorem two_pow_eq (hw : 0 < w) : 2 ^ w = 2 * 2 ^ (w - 1) := by
  obtain ⟨v, rfl⟩ := Nat.exists_eq_succ_of_ne_zero hw.ne'
  exact Nat.pow_succ'

/-- A counter shows the true count less its whole turns. -/
theorem toInt_ofNat_eq (hw : 0 < w) (n : Nat) :
    (BitVec.ofNat w n).toInt = (n : Int) - 2 ^ w * turns w n := by
  have hpow := two_pow_eq hw
  have hdiv := Nat.div_add_mod n (2 ^ w)
  have hmod := Nat.mod_lt n (Nat.two_pow_pos w)
  have hcast : ((2 ^ w : Nat) : Int) = 2 ^ w := Nat.cast_pow 2 w
  rw [BitVec.toInt_eq_toNat_cond, BitVec.toNat_ofNat, ← hcast, ← Nat.cast_mul]
  by_cases hlow : 2 * (n % 2 ^ w) < 2 ^ w
  · have hturns : turns w n = n / 2 ^ w := by
      refine Nat.div_eq_of_lt_le ?_ ?_
      · rw [Nat.mul_comm]
        omega
      · rw [Nat.add_one_mul, Nat.mul_comm]
        omega
    rw [if_pos hlow, hturns]
    omega
  · have hturns : turns w n = n / 2 ^ w + 1 := by
      refine Nat.div_eq_of_lt_le ?_ ?_
      · rw [Nat.add_one_mul, Nat.mul_comm]
        omega
      · rw [Nat.add_one_mul, Nat.add_one_mul, Nat.mul_comm]
        omega
    rw [if_neg hlow, hturns, Nat.mul_add_one]
    omega

/-- Before its first turn a counter shows the true count. -/
theorem turns_eq_zero (hw : 0 < w) {n : Nat} :
    turns w n = 0 ↔ n < 2 ^ (w - 1) := by
  unfold turns
  rw [Nat.div_eq_zero_iff_lt (Nat.two_pow_pos w), two_pow_eq hw]
  omega

/-- Before its first turn its truncated remainder is that of the true
count. -/
theorem tmod_ofNat (hw : 0 < w) {n : Nat} (hn : n < 2 ^ (w - 1)) (m : Nat) :
    (BitVec.ofNat w n).toInt.tmod m = (n % m : Nat) := by
  have hturns := (turns_eq_zero hw).mpr hn
  rw [toInt_ofNat_eq hw, hturns, Nat.cast_zero, mul_zero, sub_zero]
  exact (Int.ofNat_tmod n m).symm

/-- A later count has made as many turns or more. -/
theorem turns_mono {m n : Nat} (h : m ≤ n) : turns w m ≤ turns w n :=
  Nat.div_le_div_right (Nat.add_le_add_right h _)

end Wrap
