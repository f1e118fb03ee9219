/-
The history of the slots of a ring: which slot holds a value that was
stored and not loaded since, and how to tell from two counters.

When the loads visit the slots in order, the `r`-th the slot of `r`, a
slot stored into `n` loads ago was loaded since exactly when its age
among the loads is below `n` (`not_unread_iff`).
-/
import DailyStudy.Lib.Slots
import Mathlib.Data.List.Induction

namespace Interleave

variable {N : Nat}

/-- An access to a slot. -/
inductive Access (N : Nat)
  | stored (c : Fin N)
  | loaded (c : Fin N)
  deriving DecidableEq, Repr

/-- The last access to the slot was a store. -/
def unread (l : List (Access N)) (c : Fin N) : Bool :=
  l.foldl (fun b e =>
    match e with
    | .stored c' => if c' = c then true else b
    | .loaded c' => if c' = c then false else b) false

/-- How many loads, of any slot, came after the last store into the slot;
none: it was never stored into. -/
def loadsSince (l : List (Access N)) (c : Fin N) : Option Nat :=
  l.foldl (fun n e =>
    match e with
    | .stored c' => if c' = c then some 0 else n
    | .loaded _ => n.map (· + 1)) none

/-- No store hits a slot that is still unread. -/
def NoOverwrite (l : List (Access N)) : Prop :=
  ∀ i c, l[i]? = some (.stored c) → unread (l.take i) c = false

@[simp] theorem unread_stored (l : List (Access N)) (c c' : Fin N) :
    unread (l ++ [.stored c']) c = if c' = c then true else unread l c := by
  rw [unread, List.foldl_append]
  rfl

@[simp] theorem unread_loaded (l : List (Access N)) (c c' : Fin N) :
    unread (l ++ [.loaded c']) c = if c' = c then false else unread l c := by
  rw [unread, List.foldl_append]
  rfl

@[simp] theorem loadsSince_stored (l : List (Access N)) (c c' : Fin N) :
    loadsSince (l ++ [.stored c']) c
      = if c' = c then some 0 else loadsSince l c := by
  rw [loadsSince, List.foldl_append]
  rfl

@[simp] theorem loadsSince_loaded (l : List (Access N)) (c c' : Fin N) :
    loadsSince (l ++ [.loaded c']) c = (loadsSince l c).map (· + 1) := by
  rw [loadsSince, List.foldl_append]
  rfl

theorem noOverwrite_nil : NoOverwrite ([] : List (Access N)) := by
  intro i c h
  cases h

/-- One more access overwrites nothing exactly when it is no store into
an unread slot. -/
theorem noOverwrite_append {l : List (Access N)} {e : Access N} :
    NoOverwrite (l ++ [e])
      ↔ NoOverwrite l ∧ ∀ c, e = .stored c → unread l c = false := by
  constructor
  · intro h
    constructor
    · intro i c hi
      obtain ⟨hlt, -⟩ := List.getElem?_eq_some_iff.mp hi
      have hold := h i c (by rw [List.getElem?_append_left hlt]; exact hi)
      rwa [List.take_append_of_le_length (Nat.le_of_lt hlt)] at hold
    · intro c he
      have hlast := h l.length c (by rw [he]; simp)
      rwa [List.take_left] at hlast
  · rintro ⟨hold, hlast⟩ i c hi
    rcases Nat.lt_or_ge i l.length with hlt | hge
    · rw [List.getElem?_append_left hlt] at hi
      rw [List.take_append_of_le_length (Nat.le_of_lt hlt)]
      exact hold i c hi
    · rw [List.getElem?_append_right hge] at hi
      obtain ⟨hlt, he⟩ := List.getElem?_eq_some_iff.mp hi
      have hi0 : i = l.length := by
        rw [List.length_singleton] at hlt
        omega
      subst hi0
      rw [List.take_left]
      exact hlast c (by simpa using he)

variable [NeZero N]

/-- The loads visit the slots in order, the first `r` of them so far. -/
inductive InOrder : List (Access N) → Nat → Prop
  | nil : InOrder [] 0
  | stored {l : List (Access N)} {r : Nat} (c : Fin N) :
      InOrder l r → InOrder (l ++ [.stored c]) r
  | loaded {l : List (Access N)} {r : Nat} :
      InOrder l r → InOrder (l ++ [.loaded (slot N r)]) (r + 1)

/-- Of a slot that was stored into, with `n` loads since: it is unread
exactly when none of these loads visited it. -/
theorem unread_iff_not_visited {l : List (Access N)} {r : Nat}
    (h : InOrder l r) {t n : Nat} (hn : loadsSince l (slot N t) = some n) :
    n ≤ r ∧ (unread l (slot N t) = true
      ↔ ¬ ∃ u, r - n ≤ u ∧ u < r ∧ slot N u = slot N t) := by
  induction h generalizing n with
  | nil => cases hn
  | @stored l r c h ih =>
      rw [loadsSince_stored] at hn
      rw [unread_stored]
      by_cases hc : c = slot N t
      · rw [if_pos hc] at hn ⊢
        obtain rfl := Option.some.inj hn
        refine ⟨Nat.zero_le r, iff_of_true rfl ?_⟩
        rintro ⟨u, hlo, hhi, -⟩
        omega
      · rw [if_neg hc] at hn ⊢
        exact ih hn
  | @loaded l r h ih =>
      rw [loadsSince_loaded] at hn
      rw [unread_loaded]
      obtain ⟨n', hn', rfl⟩ := Option.map_eq_some_iff.mp hn
      obtain ⟨hle, hiff⟩ := ih hn'
      refine ⟨Nat.succ_le_succ hle, ?_⟩
      rw [Nat.succ_sub_succ]
      by_cases hc : slot N r = slot N t
      · rw [if_pos hc]
        refine iff_of_false (by simp) ?_
        intro hno
        exact hno ⟨r, Nat.sub_le r n', Nat.lt_succ_self r, hc⟩
      · rw [if_neg hc, hiff]
        refine not_congr ⟨?_, ?_⟩
        · rintro ⟨u, hlo, hhi, hslot⟩
          exact ⟨u, hlo, Nat.lt_succ_of_lt hhi, hslot⟩
        · rintro ⟨u, hlo, hhi, hslot⟩
          have hne : u ≠ r := fun hu => hc (hu ▸ hslot)
          exact ⟨u, hlo, by omega, hslot⟩

/-- A slot that was never stored into is not unread. -/
theorem not_unread_of_loadsSince {l : List (Access N)} {r : Nat}
    (h : InOrder l r) {c : Fin N} (hn : loadsSince l c = none) :
    unread l c = false := by
  induction h with
  | nil => rfl
  | @stored l r c' h ih =>
      rw [loadsSince_stored] at hn
      rw [unread_stored]
      by_cases hc : c' = c
      · rw [if_pos hc] at hn
        cases hn
      · rw [if_neg hc] at hn ⊢
        exact ih hn
  | @loaded l r h ih =>
      rw [loadsSince_loaded] at hn
      rw [unread_loaded, ih (Option.map_eq_none_iff.mp hn), ite_self]

/-- A slot is not unread exactly when it was never stored into, or its
age among the loads is below the number of loads since. -/
theorem not_unread_iff {l : List (Access N)} {r : Nat} (h : InOrder l r)
    (t : Nat) :
    unread l (slot N t) = false
      ↔ ∀ n ∈ loadsSince l (slot N t), age N r t < n := by
  cases hn : loadsSince l (slot N t) with
  | none => simp [not_unread_of_loadsSince h hn]
  | some n =>
      obtain ⟨hle, hiff⟩ := unread_iff_not_visited h hn
      have hage := age_lt_iff (N := N) (c := t) (Nat.sub_le r n)
      rw [Nat.sub_sub_self hle] at hage
      rw [← Bool.not_eq_true, hiff, not_not, ← hage]
      simp

end Interleave
