/-
Strings as C stores them: arrays of bytes that a NUL ends, with the
functions of the C library that read them and the order `strncmp`
decides.

Bytes compare as `unsigned char`. An array is the list of its bytes; a
string that no NUL of its array ends is not a value here but a read past
the end (`ofArray`), and `strncmp` says nothing about arrays shorter
than its count.
-/
import Mathlib.Data.List.Lex
import Mathlib.Order.Lattice

namespace CString

/-- Bytes, by their unsigned values. -/
instance linearOrderUInt8 : LinearOrder UInt8 where
  le_refl := UInt8.le_refl
  le_trans _ _ _ := UInt8.le_trans
  le_antisymm _ _ := UInt8.le_antisymm
  le_total := UInt8.le_total
  lt_iff_le_not_ge _ _ := by
    rw [UInt8.not_le]
    exact ⟨fun h => ⟨UInt8.le_of_lt h, h⟩, And.right⟩
  toDecidableLE := inferInstance

-- ==================================================================== reading

/-- The string that starts at an array's first byte, as whoever is handed
the pointer reads it (none: no NUL ends it within the array). -/
def ofArray : List UInt8 → Option (List UInt8)
  | [] => none
  | c :: rest => if c = 0 then some [] else (ofArray rest).map (c :: ·)

/-- A string is read exactly when it is followed by the array's first
NUL. -/
theorem ofArray_eq_some {l s : List UInt8} :
    ofArray l = some s ↔ 0 ∉ s ∧ s ++ [0] <+: l := by
  induction l generalizing s with
  | nil => simp [ofArray]
  | cons c rest ih =>
      unfold ofArray
      by_cases hc : c = 0
      · subst hc
        rw [if_pos rfl, Option.some.injEq]
        constructor
        · rintro rfl
          simp
        · rintro ⟨hs, hpre⟩
          cases s with
          | nil => rfl
          | cons d s =>
              obtain ⟨rfl, -⟩ := List.cons_prefix_cons.mp hpre
              simp at hs
      · rw [if_neg hc, Option.map_eq_some_iff]
        constructor
        · rintro ⟨s, hs, rfl⟩
          obtain ⟨hfree, hpre⟩ := ih.mp hs
          refine ⟨?_, List.cons_prefix_cons.mpr ⟨rfl, hpre⟩⟩
          simp [hfree, Ne.symm hc]
        · rintro ⟨hfree, hpre⟩
          cases s with
          | nil =>
              obtain ⟨rfl, -⟩ := List.cons_prefix_cons.mp hpre
              exact absurd rfl hc
          | cons d s =>
              obtain ⟨rfl, hrest⟩ := List.cons_prefix_cons.mp hpre
              exact ⟨s, ih.mpr ⟨fun h => hfree (.tail _ h), hrest⟩, rfl⟩

/-- `strlen(p)` (none: it reads past the array's end). -/
def strlen (l : List UInt8) : Option Nat := (ofArray l).map List.length

/-- A string and the NUL after it, as the compiler lays a literal out. -/
theorem ofArray_concat {s : List UInt8} (h : 0 ∉ s) :
    ofArray (s ++ [0]) = some s :=
  ofArray_eq_some.mpr ⟨h, List.prefix_refl _⟩

/-- Bytes stored at the front of an array are the string it holds exactly
when a NUL follows them there. -/
theorem ofArray_append_eq_some {s rest : List UInt8} (h : 0 ∉ s) :
    ofArray (s ++ rest) = some s ↔ rest[0]? = some 0 := by
  rw [ofArray_eq_some, and_iff_right h, List.prefix_append_right_inj]
  rcases rest with _ | ⟨c, rest⟩
  · simp
  · simp [eq_comm]

-- ================================================================== comparing

/-- The bytes of an array before its first NUL, all of them when it has
none. -/
def upToNul (l : List UInt8) : List UInt8 := l.takeWhile (· ≠ 0)

@[simp] theorem upToNul_nil : upToNul [] = [] := rfl

theorem upToNul_cons (c : UInt8) (l : List UInt8) :
    upToNul (c :: l) = if c = 0 then [] else c :: upToNul l := by
  unfold upToNul
  rw [List.takeWhile_cons]
  by_cases hc : c = 0 <;> simp [hc]

/-- Two arrays of one length that are cut alike are equal, unless they are
cut before their last byte. -/
theorem eq_of_upToNul_eq {xs ys : List UInt8}
    (hlength : xs.length = ys.length) (hcut : upToNul xs = upToNul ys)
    (hfree : 0 ∉ ys.dropLast) : xs = ys := by
  induction ys generalizing xs with
  | nil => exact List.length_eq_zero_iff.mp hlength
  | cons y ys ih =>
      rcases xs with _ | ⟨x, xs⟩
      · cases hlength
      replace hlength : xs.length = ys.length := Nat.succ.inj hlength
      rw [upToNul_cons, upToNul_cons] at hcut
      rcases ys with _ | ⟨y', ys⟩
      · obtain rfl := List.length_eq_zero_iff.mp hlength
        by_cases hx : x = 0 <;> by_cases hy : y = 0 <;> simp_all
      · rw [List.dropLast_cons_cons, List.mem_cons, not_or] at hfree
        rw [if_neg (Ne.symm hfree.1)] at hcut
        by_cases hx : x = 0
        · rw [if_pos hx] at hcut
          cases hcut
        · rw [if_neg hx] at hcut
          obtain ⟨rfl, hrest⟩ := List.cons.inj hcut
          rw [ih hlength hrest hfree.2]

/-- A byte after the first NUL does not matter. -/
theorem upToNul_append {xs : List UInt8} (h : 0 ∈ xs) (ys : List UInt8) :
    upToNul (xs ++ ys) = upToNul xs := by
  induction xs with
  | nil => cases h
  | cons x xs ih =>
      rw [List.cons_append, upToNul_cons, upToNul_cons]
      by_cases hx : x = 0
      · rw [if_pos hx, if_pos hx]
      · rcases List.mem_cons.mp h with rfl | hrest
        · exact absurd rfl hx
        · rw [if_neg hx, if_neg hx, ih hrest]

/-- `strncmp(x, y, n)` on arrays of `n` bytes or more. Only the sign is
specified; this is the difference most libraries return. -/
def strncmp : List UInt8 → List UInt8 → Nat → Int
  | x :: xs, y :: ys, n + 1 =>
      if x ≠ y then (x.toNat : Int) - y.toNat
      else if x = 0 then 0
      else strncmp xs ys n
  | _, _, _ => 0

/-- The first bytes decide the order of two cut arrays, unless they are
equal. -/
private theorem upToNul_lt_of_ne {x y : UInt8} (h : x ≠ y)
    (xs ys : List UInt8) :
    upToNul (x :: xs) < upToNul (y :: ys) ↔ x < y := by
  rw [upToNul_cons, upToNul_cons]
  by_cases hx : x = 0
  · subst hx
    have hy : y ≠ 0 := Ne.symm h
    rw [if_pos rfl, if_neg hy]
    exact iff_of_true (List.nil_lt_cons _ _) (UInt8.pos_iff_ne_zero.mpr hy)
  · rw [if_neg hx]
    by_cases hy : y = 0
    · subst hy
      rw [if_pos rfl]
      exact iff_of_false (List.not_lt_nil _) UInt8.not_lt_zero
    · rw [if_neg hy, List.cons_lt_cons_iff]
      exact or_iff_left fun heq => h heq.1

/-- Two arrays that start differently are cut differently. -/
private theorem upToNul_ne_of_ne {x y : UInt8} (h : x ≠ y)
    (xs ys : List UInt8) : upToNul (x :: xs) ≠ upToNul (y :: ys) := by
  rcases lt_or_gt_of_ne h with hlt | hlt
  · exact ne_of_lt ((upToNul_lt_of_ne h xs ys).mpr hlt)
  · exact ne_of_gt ((upToNul_lt_of_ne h.symm ys xs).mpr hlt)

/-- Past equal bytes the comparison goes on, unless they are NUL. -/
private theorem upToNul_lt_cons (x : UInt8) (xs ys : List UInt8) :
    upToNul (x :: xs) < upToNul (x :: ys)
      ↔ x ≠ 0 ∧ upToNul xs < upToNul ys := by
  rw [upToNul_cons, upToNul_cons]
  by_cases hx : x = 0
  · rw [if_pos hx, if_pos hx]
    exact iff_of_false (List.lt_irrefl _) fun h => h.1 hx
  · rw [if_neg hx, if_neg hx, List.cons_lt_cons_iff]
    exact ⟨fun h => ⟨hx, (h.resolve_left (lt_irrefl x)).2⟩,
      fun h => .inr ⟨rfl, h.2⟩⟩

/-- `strncmp` is negative exactly when the first array, cut at the count
and its first NUL, is lexicographically before the second. -/
theorem strncmp_neg {n : Nat} {xs ys : List UInt8} (hx : n ≤ xs.length)
    (hy : n ≤ ys.length) :
    strncmp xs ys n < 0 ↔ upToNul (xs.take n) < upToNul (ys.take n) := by
  induction n generalizing xs ys with
  | zero => simp [strncmp]
  | succ n ih =>
      rcases xs with _ | ⟨x, xs⟩
      · cases hx
      rcases ys with _ | ⟨y, ys⟩
      · cases hy
      rw [List.take_succ_cons, List.take_succ_cons]
      unfold strncmp
      by_cases hxy : x = y
      · subst hxy
        rw [if_neg (not_not_intro rfl), upToNul_lt_cons]
        by_cases h0 : x = 0
        · rw [if_pos h0]
          exact iff_of_false (Int.lt_irrefl 0) fun h => h.1 h0
        · rw [if_neg h0, ih (Nat.le_of_succ_le_succ hx)
            (Nat.le_of_succ_le_succ hy)]
          exact (and_iff_right h0).symm
      · rw [if_pos hxy, upToNul_lt_of_ne hxy, UInt8.lt_iff_toNat_lt]
        omega

/-- `strncmp` is zero exactly when the two arrays, cut at the count and
their first NULs, are equal. -/
theorem strncmp_eq_zero {n : Nat} {xs ys : List UInt8}
    (hx : n ≤ xs.length) (hy : n ≤ ys.length) :
    strncmp xs ys n = 0 ↔ upToNul (xs.take n) = upToNul (ys.take n) := by
  induction n generalizing xs ys with
  | zero => simp [strncmp]
  | succ n ih =>
      rcases xs with _ | ⟨x, xs⟩
      · cases hx
      rcases ys with _ | ⟨y, ys⟩
      · cases hy
      rw [List.take_succ_cons, List.take_succ_cons]
      unfold strncmp
      by_cases hxy : x = y
      · subst hxy
        rw [if_neg (not_not_intro rfl), upToNul_cons, upToNul_cons]
        by_cases h0 : x = 0
        · rw [if_pos h0, if_pos h0, if_pos h0]
          exact iff_of_true rfl rfl
        · rw [if_neg h0, if_neg h0, if_neg h0,
            ih (Nat.le_of_succ_le_succ hx) (Nat.le_of_succ_le_succ hy)]
          exact List.cons_inj_right x |>.symm
      · have hne : x.toNat ≠ y.toNat := fun h => hxy (UInt8.toNat_inj.mp h)
        rw [if_pos hxy]
        refine iff_of_false ?_ (upToNul_ne_of_ne hxy _ _)
        omega

end CString
