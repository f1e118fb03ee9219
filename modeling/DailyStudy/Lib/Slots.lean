/-
Tickets and slots: a counter that only grows, taken modulo the number
of slots of a ring.

Two facts carry every ring. Tickets inside one window of `N` never share
a slot (`slot_inj`), so what the live tickets hold is a queue: storing
the next ticket appends to it and leaves the rest alone (`Live.push`).
And in a ring that is filled from ticket 0 on, the slot of `c` holds the
newest ticket that shares it (`lastTicket`), whatever lap the writer is
on (`filled_store`); `age` says how many tickets were taken since, for
two counters that need not start together.
-/
import Mathlib.Data.Int.ModEq
import Mathlib.Data.Nat.ModEq
import Mathlib.Data.Fin.Basic
import Mathlib.Order.Basic
import Mathlib.Logic.Function.Basic

namespace Interleave

variable {N : Nat} [NeZero N]

/-- The slot of a ticket. -/
def slot (N : Nat) [NeZero N] (t : Nat) : Fin N := Fin.ofNat N t

@[simp] theorem slot_val (t : Nat) : (slot N t).val = t % N := rfl

/-- Two tickets share a slot exactly when they agree modulo `N`. -/
theorem slot_eq_iff {a b : Nat} : slot N a = slot N b ↔ a % N = b % N :=
  Fin.ext_iff

/-- Live tickets never collide: inside a window of `N` tickets the slot
determines the ticket. -/
theorem slot_inj (lo : Nat) {a b : Nat} (ha : lo ≤ a) (ha' : a < lo + N)
    (hb : lo ≤ b) (hb' : b < lo + N) (h : slot N a = slot N b) : a = b := by
  have hmod : a ≡ b [MOD N] := slot_eq_iff.mp h
  rcases Nat.le_total a b with hle | hle
  · have hdvd := (Nat.modEq_iff_dvd' hle).mp hmod
    have hzero := Nat.eq_zero_of_dvd_of_lt hdvd (by omega)
    omega
  · have hdvd := (Nat.modEq_iff_dvd' hle).mp hmod.symm
    have hzero := Nat.eq_zero_of_dvd_of_lt hdvd (by omega)
    omega

-- =============================================================== live tickets

variable {V : Type*}

/-- The tickets from `lo` up to `hi` are live and hold the values of
`q`, oldest first. -/
structure Live (mem : Fin N → V) (lo hi : Nat) (q : List V) : Prop where
  length : hi = lo + q.length
  room : q.length ≤ N
  slots : ∀ {i v}, q[i]? = some v → mem (slot N (lo + i)) = v

theorem live_nil (mem : Fin N → V) (lo : Nat) : Live mem lo lo [] where
  length := rfl
  room := Nat.zero_le _
  slots h := by simp at h

/-- Storing the next ticket, with room left, appends its value: the
slots of the live tickets are other slots. -/
theorem Live.push {mem : Fin N → V} {lo hi : Nat} {q : List V}
    (h : Live mem lo hi q) (hroom : q.length < N) (v : V) :
    Live (Function.update mem (slot N hi) v) lo (hi + 1) (q ++ [v]) where
  length := by
    rw [List.length_append, List.length_singleton, h.length]
    omega
  room := by
    rw [List.length_append, List.length_singleton]
    omega
  slots {i v'} hi' := by
    have hlen := h.length
    rcases Nat.lt_or_ge i q.length with hlt | hge
    · rw [List.getElem?_append_left hlt] at hi'
      have hne : slot N (lo + i) ≠ slot N hi := fun hs => by
        have := slot_inj lo (by omega) (by omega) (by omega) (by omega) hs
        omega
      rw [Function.update_of_ne hne]
      exact h.slots hi'
    · rw [List.getElem?_append_right hge] at hi'
      obtain ⟨hlt, hv⟩ := List.getElem?_eq_some_iff.mp hi'
      simp only [List.length_singleton] at hlt
      have hiq : lo + i = hi := by omega
      rw [hiq, Function.update_self]
      simpa using hv

/-- The oldest live ticket holds the head; without it the rest is
live. -/
theorem Live.pop {mem : Fin N → V} {lo hi : Nat} {v : V} {q : List V}
    (h : Live mem lo hi (v :: q)) :
    mem (slot N lo) = v ∧ Live mem (lo + 1) hi q := by
  refine ⟨h.slots (i := 0) rfl, ?_, ?_, ?_⟩
  · have := h.length
    rw [List.length_cons] at this
    omega
  · have := h.room
    rw [List.length_cons] at this
    omega
  · intro i v' hi'
    have := h.slots (i := i + 1) hi'
    rwa [Nat.add_assoc, Nat.add_comm 1 i]

-- ========================================================== the last ticket

/-- The newest ticket below `w` on the slot of `c`, for a `c` below
`w`: as many whole laps after `c` as fit. -/
def lastTicket (N w c : Nat) : Nat := c + N * ((w - 1 - c) / N)

/-- The newest ticket is on the slot, below `w`, and less than a lap
below it. -/
theorem lastTicket_spec {w c : Nat} (hc : c < w) :
    slot N (lastTicket N w c) = slot N c ∧ lastTicket N w c < w
      ∧ w ≤ lastTicket N w c + N := by
  have hN : 0 < N := Nat.pos_of_neZero N
  have hdiv := Nat.div_add_mod (w - 1 - c) N
  have hlt := Nat.mod_lt (w - 1 - c) hN
  refine ⟨?_, ?_, ?_⟩
  · rw [slot_eq_iff, lastTicket, Nat.add_mul_mod_self_left]
  · unfold lastTicket
    omega
  · unfold lastTicket
    omega

/-- Nothing else is: a ticket on the slot of `c`, below `w` and less
than a lap below it, is the newest one. -/
theorem eq_lastTicket {w c t : Nat} (hc : c < w) (hslot : slot N t = slot N c)
    (ht : t < w) (hlap : w ≤ t + N) : t = lastTicket N w c := by
  obtain ⟨hs, hlt, hle⟩ := lastTicket_spec (N := N) hc
  exact slot_inj (w - N) (by omega) (by omega) (by omega) (by omega)
    (hslot.trans hs.symm)

-- ==================================================================== ages

/-- How many of `hi` tickets came after the newest one on the slot of
`c`; at least `hi` when there is none. -/
def age (N hi c : Nat) : Nat := (((hi : Int) - 1 - c) % N).toNat

/-- The age of a slot is that of every ticket on it, modulo the laps. -/
theorem age_eq_of_slot {hi c t : Nat} (hslot : slot N t = slot N c)
    (ht : t < hi) : age N hi c = (hi - 1 - t) % N := by
  have hmod : (c : Int) ≡ t [ZMOD N] :=
    Int.natCast_modEq_iff.mpr (slot_eq_iff.mp hslot).symm
  have hcong : ((hi : Int) - 1 - c) % N = ((hi : Int) - 1 - t) % N :=
    Int.ModEq.sub_left _ hmod
  have hnat : (hi : Int) - 1 - t = ((hi - 1 - t : Nat) : Int) := by omega
  unfold age
  rw [hcong, hnat, ← Int.natCast_emod, Int.toNat_natCast]

/-- The ticket of that age is on the slot. -/
theorem slot_of_age {hi c : Nat} (h : age N hi c < hi) :
    slot N (hi - 1 - age N hi c) = slot N c := by
  have hN : (N : Int) ≠ 0 := Int.natCast_ne_zero.mpr (NeZero.ne N)
  have hcast : ((age N hi c : Nat) : Int) = ((hi : Int) - 1 - c) % N :=
    Int.toNat_of_nonneg (Int.emod_nonneg _ hN)
  have hcong : (hi : Int) - 1 - (age N hi c : Nat) ≡ c [ZMOD N] := by
    have hage := (Int.mod_modEq ((hi : Int) - 1 - c) N).sub_left
      ((hi : Int) - 1)
    rw [← hcast, Int.sub_sub_self] at hage
    exact hage
  have hnat : (hi : Int) - 1 - (age N hi c : Nat)
      = ((hi - 1 - age N hi c : Nat) : Int) := by omega
  rw [hnat] at hcong
  exact slot_eq_iff.mpr (Int.natCast_modEq_iff.mp hcong)

/-- One of the tickets from `lo` up to `hi` is on the slot of `c` exactly
when its age is below their number. -/
theorem age_lt_iff {lo hi c : Nat} (hle : lo ≤ hi) :
    age N hi c < hi - lo ↔ ∃ t, lo ≤ t ∧ t < hi ∧ slot N t = slot N c := by
  constructor
  · intro h
    exact ⟨hi - 1 - age N hi c, by omega, by omega, slot_of_age (by omega)⟩
  · rintro ⟨t, hlo, hhi, hslot⟩
    have hmod := Nat.mod_le (hi - 1 - t) N
    rw [age_eq_of_slot hslot hhi]
    omega

-- ============================================================= filled rings

/-- The contents of a ring whose tickets `0 .. w - 1` were stored in
order over `blank` slots: every slot that was reached holds the value of
its newest ticket. -/
def Filled (mem : Fin N → V) (val : Nat → V) (blank : V) (w : Nat) : Prop :=
  ∀ c : Fin N,
    mem c = if c.val < w then val (lastTicket N w c.val) else blank

omit [NeZero N] in
/-- A blank ring is filled up to ticket 0. -/
theorem filled_zero (val : Nat → V) (blank : V) :
    Filled (fun _ : Fin N => blank) val blank 0 := fun c => by
  rw [if_neg (Nat.not_lt_zero _)]

/-- The slot of a ticket that was stored holds the newest ticket on it. -/
theorem filled_slot {mem : Fin N → V} {val : Nat → V} {blank : V}
    {w r : Nat} (h : Filled mem val blank w) (hr : r < w) :
    mem (slot N r) = val (lastTicket N w r) := by
  obtain ⟨hs, hlt, hle⟩ := lastTicket_spec (N := N) hr
  have hc : (slot N r).val < w :=
    Nat.lt_of_le_of_lt (Nat.mod_le r N) hr
  have hslot : slot N (lastTicket N w r) = slot N (slot N r).val := by
    rw [hs, slot_eq_iff, slot_val, Nat.mod_mod]
  rw [h, if_pos hc, ← eq_lastTicket hc hslot hlt hle]

/-- What the slot of any ticket holds, by its age. -/
theorem filled_age {mem : Fin N → V} {val : Nat → V} {blank : V} {w : Nat}
    (h : Filled mem val blank w) (r : Nat) :
    mem (slot N r)
      = if age N w r < w then val (w - 1 - age N w r) else blank := by
  have hmod : slot N (slot N r).val = slot N r := by
    rw [slot_eq_iff, slot_val, Nat.mod_mod]
  rw [h]
  by_cases hr : (slot N r).val < w
  · obtain ⟨hs, hlt, hle⟩ := lastTicket_spec (N := N) hr
    have hage := age_eq_of_slot (hs.trans hmod) hlt
    rw [Nat.mod_eq_of_lt (by omega)] at hage
    have hlast : w - 1 - age N w r = lastTicket N w (slot N r).val := by
      omega
    rw [if_pos hr, if_pos (by omega), hlast]
  · have hold : ¬ age N w r < w := fun hage => hr (by
      have hslot := congrArg Fin.val (slot_of_age hage)
      have hle := Nat.mod_le (w - 1 - age N w r) N
      rw [slot_val] at hslot
      omega)
    rw [if_neg hr, if_neg hold]

/-- Storing ticket `w` keeps the ring filled: its own slot now holds `w`
itself, and every other slot keeps its newest ticket. -/
theorem filled_store {mem : Fin N → V} {val : Nat → V} {blank : V} {w : Nat}
    (h : Filled mem val blank w) :
    Filled (Function.update mem (slot N w) (val w)) val blank (w + 1) := by
  intro c
  have hcN : c.val < N := c.isLt
  by_cases hc : c = slot N w
  · -- the slot just stored: `w` is its newest ticket
    have hcw : c.val < w + 1 := by
      rw [hc, slot_val]
      exact Nat.lt_succ_of_le (Nat.mod_le w N)
    have hslot : slot N w = slot N c.val := by
      rw [slot_eq_iff, hc, slot_val, Nat.mod_mod]
    have hlast := eq_lastTicket hcw hslot (Nat.lt_succ_self w) (by omega)
    rw [if_pos hcw, ← hlast, hc, Function.update_self]
  · rw [Function.update_of_ne hc, h c]
    have hne : slot N w ≠ slot N c.val := fun hs => hc (by
      rw [Fin.ext_iff, slot_val, slot_eq_iff.mp hs, Nat.mod_eq_of_lt hcN])
    by_cases hcw : c.val < w
    · obtain ⟨hs, hlt, hle⟩ := lastTicket_spec (N := N) hcw
      -- a lap below `w` would be `w`'s own slot
      have hlap : w + 1 ≤ lastTicket N w c.val + N := by
        rcases Nat.lt_or_ge w (lastTicket N w c.val + N) with hgt | hge
        · exact hgt
        · have hw : lastTicket N w c.val + N = w := Nat.le_antisymm hge hle
          have hmod : w % N = lastTicket N w c.val % N := by
            rw [← Nat.add_mod_right (lastTicket N w c.val) N, hw]
          exact absurd ((slot_eq_iff.mpr hmod).trans hs) hne
      have hlast := eq_lastTicket (w := w + 1) (by omega) hs (by omega) hlap
      rw [if_pos hcw, if_pos (by omega : c.val < w + 1), ← hlast]
    · have hnew : ¬ c.val < w + 1 := fun hlt => hne (by
        rw [show c.val = w from by omega])
      rw [if_neg hcw, if_neg hnew]

end Interleave
