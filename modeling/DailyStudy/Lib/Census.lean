/-
Counting threads: how many members of a finite family stand at a place
that a Boolean test recognizes, and what moving one member does to the
count.

A conservation law over an unbounded number of threads is an equation
between censuses and shared counters; one `census_move` per census and
one `omega` is then the whole proof of a step. A `total` of weights is the
measure of what the threads have still to do.
-/
import Mathlib.Algebra.BigOperators.Group.Finset.Piecewise
import Mathlib.Algebra.Order.BigOperators.Group.Finset

namespace Interleave

variable {ι σ : Type*} [Fintype ι]

/-- The weights of all members, together. -/
def total (w : σ → Nat) (f : ι → σ) : Nat := ∑ i, w (f i)

/-- Moving one member from `old` to `new` changes its own summand and
no other. -/
theorem total_move [DecidableEq ι] (w : σ → Nat) {f : ι → σ} {i : ι}
    {old : σ} (hold : f i = old) (new : σ) :
    total w (Function.update f i new) + w old = total w f + w new := by
  have hupd : (fun j => w (Function.update f i new j))
      = Function.update (fun j => w (f j)) i (w new) := by
    funext j
    by_cases hj : j = i
    · subst hj
      simp
    · simp [hj]
  have hsum := Finset.sum_update_of_mem (Finset.mem_univ i)
    (fun j => w (f j)) (w new)
  have hrest := Finset.sum_sdiff (Finset.subset_univ {i})
    (f := fun j => w (f j))
  rw [Finset.sum_singleton, hold] at hrest
  unfold total
  rw [hupd, hsum]
  omega

/-- A member that moves to a smaller weight takes the total down. -/
theorem total_lt [DecidableEq ι] {w : σ → Nat} {f : ι → σ} {i : ι}
    {old new : σ} (hold : f i = old) (hlt : w new < w old) :
    total w (Function.update f i new) < total w f := by
  have hmove := total_move w hold new
  omega

/-- How many members of the family are where `p` says. -/
def census (p : σ → Bool) (f : ι → σ) : Nat := ∑ i, (p (f i)).toNat

/-- The census is a total; moving one member changes its own summand. -/
theorem census_move [DecidableEq ι] (p : σ → Bool) {f : ι → σ} {i : ι}
    {old : σ} (hold : f i = old) (new : σ) :
    census p (Function.update f i new) + (p old).toNat
      = census p f + (p new).toNat :=
  total_move (fun x => (p x).toNat) hold new

omit [Fintype ι] in
/-- After one member moved to `new`, whoever is anywhere else was there
before, and is somebody else. -/
theorem of_update_eq [DecidableEq ι] {f : ι → σ} {i j : ι} {new x : σ}
    (h : Function.update f i new j = x) (hne : new ≠ x) :
    j ≠ i ∧ f j = x := by
  by_cases hj : j = i
  · subst hj
    rw [Function.update_self] at h
    exact absurd h hne
  · rw [Function.update_of_ne hj] at h
    exact ⟨hj, h⟩

omit [Fintype ι] in
/-- What a view of the members does not tell apart at the one that moved,
it sees nowhere else either. -/
theorem view_update [DecidableEq ι] {β : Type*} (g : σ → β) {f : ι → σ}
    {i : ι} {old new : σ} (hold : f i = old) (h : g new = g old) (j : ι) :
    g (Function.update f i new j) = g (f j) := by
  by_cases hj : j = i
  · rw [hj, Function.update_self, hold, h]
  · rw [Function.update_of_ne hj]

omit [Fintype ι] in
/-- What a view sees of the members after one moved: of that one its new
place, of every other one what it saw before. -/
theorem view_cases [DecidableEq ι] {β : Type*} (g : σ → β) {f : ι → σ}
    {i j : ι} {new : σ} {y : β} (h : g (Function.update f i new j) = y) :
    j = i ∧ g new = y ∨ j ≠ i ∧ g (f j) = y := by
  by_cases hj : j = i
  · rw [hj, Function.update_self] at h
    exact .inl ⟨hj, h⟩
  · rw [Function.update_of_ne hj] at h
    exact .inr ⟨hj, h⟩

/-- A census is zero exactly when nobody is there. -/
theorem census_eq_zero {p : σ → Bool} {f : ι → σ} :
    census p f = 0 ↔ ∀ i, p (f i) = false := by
  unfold census
  rw [Finset.sum_eq_zero_iff]
  exact ⟨fun h i => Bool.toNat_eq_zero.mp (h i (Finset.mem_univ i)),
    fun h i _ => Bool.toNat_eq_zero.mpr (h i)⟩

/-- A member that is there is counted. -/
theorem census_pos {p : σ → Bool} {f : ι → σ} {i : ι} (hi : p (f i) = true) :
    0 < census p f := by
  refine Nat.pos_of_ne_zero fun h0 => ?_
  rw [census_eq_zero.mp h0 i] at hi
  cases hi

/-- Whatever is counted is somewhere. -/
theorem exists_of_census_pos {p : σ → Bool} {f : ι → σ}
    (h : 0 < census p f) : ∃ i, p (f i) = true := by
  by_contra hnone
  rw [not_exists] at hnone
  refine h.ne' (census_eq_zero.mpr fun i => ?_)
  exact Bool.eq_false_iff.mpr (hnone i)

/-- Two tests that agree on every member count the same. -/
theorem census_congr {p q : σ → Bool} {f : ι → σ}
    (h : ∀ i, p (f i) = q (f i)) : census p f = census q f :=
  Finset.sum_congr rfl fun i _ => congrArg Bool.toNat (h i)

/-- A family that stands all in one place, outside of `p`, counts zero. -/
theorem census_const {p : σ → Bool} {x : σ} (hx : p x = false) :
    census p (fun _ : ι => x) = 0 :=
  census_eq_zero.mpr fun _ => hx

end Interleave
