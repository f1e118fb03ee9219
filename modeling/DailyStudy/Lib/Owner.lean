/-
A resource with one owner: a mutex, the guard of a local static, the flag
of a `call_once`.

The resource records who has it. `Owns` says that the members of a family
that stand inside the protected section are exactly that one, so two are
never inside together (`Owns.unique`), and it says what each move of a
member does to the record: taking the resource, giving it back, and moving
without crossing the border of the section.
-/
import Mathlib.Logic.Function.Basic

namespace Interleave

variable {ι σ : Type*} {inside : σ → Bool} {owner : Option ι} {f : ι → σ}

/-- Exactly the recorded owner stands inside. -/
def Owns (inside : σ → Bool) (owner : Option ι) (f : ι → σ) : Prop :=
  ∀ i, inside (f i) = true ↔ owner = some i

/-- Two members inside are one. -/
theorem Owns.unique (h : Owns inside owner f) {i j : ι}
    (hi : inside (f i) = true) (hj : inside (f j) = true) : i = j :=
  Option.some.inj (((h i).mp hi).symm.trans ((h j).mp hj))

/-- While the resource is free nobody is inside. -/
theorem Owns.free (h : Owns inside none f) (i : ι) :
    inside (f i) = false := by
  cases hi : inside (f i) with
  | false => rfl
  | true => cases (h i).mp hi

/-- While nobody is inside the resource is free. -/
theorem Owns.none_of_outside (h : Owns inside owner f)
    (hout : ∀ i, inside (f i) = false) : owner = none := by
  cases owner with
  | none => rfl
  | some i =>
      have hin := (h i).mpr rfl
      rw [hout i] at hin
      cases hin

/-- Moves that nobody makes across the border of the section. -/
theorem Owns.congr (h : Owns inside owner f) {g : ι → σ}
    (hg : ∀ i, inside (g i) = inside (f i)) : Owns inside owner g := by
  intro i
  rw [hg i]
  exact h i

/-- Somebody has `P`: where whoever stands inside has it, the case of the
free resource is left. -/
theorem Owns.exists_of_inside (h : Owns inside owner f) {P : ι → Prop}
    (hin : ∀ i, inside (f i) = true → P i)
    (hfree : owner = none → ∃ i, P i) : ∃ i, P i := by
  cases owner with
  | none => exact hfree rfl
  | some i => exact ⟨i, hin i ((h i).mpr rfl)⟩

/-- At the start nobody is inside, and the resource is free. -/
theorem owns_const {x : σ} (hx : inside x = false) :
    Owns inside (none : Option ι) fun _ => x := by
  intro i
  rw [hx]
  exact ⟨fun h => (nomatch h), fun h => (nomatch h)⟩

variable [DecidableEq ι]

/-- A member takes the free resource and steps inside. -/
theorem Owns.acquire (h : Owns inside owner f) (hfree : owner = none)
    {i : ι} {new : σ} (hnew : inside new = true) :
    Owns inside (some i) (Function.update f i new) := by
  subst hfree
  intro j
  by_cases hj : j = i
  · rw [hj, Function.update_self, hnew]
    exact iff_of_true rfl rfl
  · rw [Function.update_of_ne hj, h.free j]
    refine iff_of_false (fun h => (nomatch h)) fun h => ?_
    exact hj (Option.some.inj h).symm

/-- The member inside steps out and gives the resource back. -/
theorem Owns.release (h : Owns inside owner f) {i : ι} {old new : σ}
    (hold : f i = old) (hin : inside old = true) (hnew : inside new = false) :
    Owns inside none (Function.update f i new) := by
  intro j
  refine iff_of_false ?_ fun h => (nomatch h)
  by_cases hj : j = i
  · rw [hj, Function.update_self, hnew]
    exact Bool.false_ne_true
  · rw [Function.update_of_ne hj]
    exact fun hjn => hj (h.unique hjn (hold.symm ▸ hin))

/-- A member moves on its own side of the border. -/
theorem Owns.stay (h : Owns inside owner f) {i : ι} {old new : σ}
    (hold : f i = old) (hnew : inside new = inside old) :
    Owns inside owner (Function.update f i new) := by
  intro j
  by_cases hj : j = i
  · rw [hj, Function.update_self, hnew, ← hold]
    exact h i
  · rw [Function.update_of_ne hj]
    exact h j

end Interleave
