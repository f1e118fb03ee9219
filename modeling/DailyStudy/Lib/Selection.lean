/-
Order-preserving selections: what it means that a sequence of reads
skips some of the writes and neither repeats nor reorders any.

The reads are given by the numbers of the writes they return (`picks`).
When the picks increase, the values read are a subsequence of the values
written, whatever these are (`sublist_of_increasing`); and for values
that tell the writes apart it is only then
(`increasing_of_sublist`).
-/
import Mathlib.Data.List.Sort
import Mathlib.Order.Basic

namespace Interleave

variable {V : Type*}

/-- The values of the first `n` writes. -/
def firsts (vals : Nat → V) (n : Nat) : List V := (List.range n).map vals

/-- Increasing picks among the first `n` writes select in order. -/
theorem sublist_of_increasing {picks : List Nat} {n : Nat} (vals : Nat → V)
    (hinc : picks.Pairwise (· < ·)) (hlt : ∀ p ∈ picks, p < n) :
    (picks.map vals).Sublist (firsts vals n) := by
  refine List.Sublist.map vals ?_
  refine List.sublist_of_subperm_of_pairwise (r := (· < ·)) ?_ hinc
    List.pairwise_lt_range
  exact List.subperm_of_subset (hinc.imp Nat.ne_of_lt) fun p hp =>
    List.mem_range.mpr (hlt p hp)

/-- When the values grow with the writes, what selects in order is
increasing. -/
theorem increasing_of_sublist [Preorder V] {picks : List Nat} {n : Nat}
    {vals : Nat → V} (hmono : StrictMono vals)
    (h : (picks.map vals).Sublist (firsts vals n)) :
    picks.Pairwise (· < ·) := by
  have hall : (firsts vals n).Pairwise (· < ·) :=
    List.pairwise_map.mpr (List.pairwise_lt_range.imp fun hab => hmono hab)
  have hpicks := List.pairwise_map.mp (hall.sublist h)
  refine hpicks.imp fun {a b} hab => ?_
  by_contra hba
  exact absurd (hmono.monotone (Nat.le_of_not_lt hba)) (not_le_of_gt hab)

end Interleave
