/-
How long the slots of the rings stay slots.

The `n`-th `fetch_add` of an operation returns `n` reduced to a signed
`int` (`slots_eq`). Up to `2 ^ 31` calls that is `n` itself, and the slot
is the one of the unbounded counter (`slotOf_eq_slot`); the next call
gets `-2 ^ 31`, whose truncated remainder is negative in every ring
(`slotOf_turned_neg`).
-/
import DailyStudy.Counters.Basic

namespace DailyStudy.Counters

open Interleave

/-- The slots are in the ring, and calls closer than `NUM_SLOTS` take
different ones. -/
structure SlotsSafe (ring : Ring) (used : List Int) : Prop where
  inRing : ∀ s ∈ used, 0 ≤ s ∧ s < ring.numSlots
  apart : ∀ i j si sj, i < j → j < i + ring.numSlots →
    used[i]? = some si → used[j]? = some sj → si ≠ sj

/-- The slots a run of calls takes, from any counts on. -/
theorem slots_after (ring : Ring) (op : Op) (calls : List Op)
    (count : Op → Nat) :
    fetches.trace (takes ring op) (.after count) calls
      = (List.range' (count op) (calls.count op)).map
        fun n => ring.slotOf (BitVec.ofNat 32 n) := by
  induction calls generalizing count with
  | nil => rfl
  | cons call rest ih =>
      have hstep : fetches.step (.after count) call
          = some (.after (Function.update count call (count call + 1))) :=
        congrArg some (after_fetchAdd count call)
      rw [System.trace_cons hstep, ih]
      by_cases hcall : call = op
      · subst hcall
        rw [List.count_cons_self, List.range'_succ, takes, if_pos rfl,
          after_counter, Function.update_self]
        rfl
      · rw [List.count_cons_of_ne hcall, takes, if_neg hcall,
          Function.update_of_ne (Ne.symm hcall)]
        rfl

/-- The `n`-th call of an operation takes the slot of `n` as an `int`. -/
theorem slots_eq (ring : Ring) (op : Op) (calls : List Op) :
    slots ring op calls = (List.range (calls.count op)).map
      fun n => ring.slotOf (BitVec.ofNat 32 n) := by
  rw [List.range_eq_range']
  exact slots_after ring op calls fun _ => 0

/-- Below `2 ^ 31` the slot is that of the unbounded counter. -/
theorem slotOf_eq_slot (ring : Ring) {n : Nat} (hn : n < 2 ^ 31) :
    ring.slotOf (BitVec.ofNat 32 n) = (slot ring.numSlots n).val := by
  unfold Ring.slotOf
  exact Wrap.tmod_ofNat (w := 32) (by decide) hn ring.numSlots

/-- At `2 ^ 31` the counter has turned, and there is no such slot. -/
theorem slotOf_turned_neg (ring : Ring) :
    ring.slotOf (BitVec.ofNat 32 (2 ^ 31)) < 0 := by
  cases ring <;> decide

/-- One entry of the slots taken. -/
private theorem slot_of_taken {ring : Ring} {count i : Nat} {s : Int}
    (hle : count ≤ 2 ^ 31)
    (h : ((List.range count).map
      fun n => ring.slotOf (BitVec.ofNat 32 n))[i]? = some s) :
    s = (slot ring.numSlots i).val := by
  rw [List.getElem?_map] at h
  obtain ⟨n, hn, rfl⟩ := Option.map_eq_some_iff.mp h
  obtain ⟨hi, rfl⟩ := List.getElem?_eq_some_iff.mp hn
  rw [List.length_range] at hi
  rw [List.getElem_range]
  exact slotOf_eq_slot ring (Nat.lt_of_lt_of_le hi hle)

/-- The slots of an operation are safe exactly as long as its counter has
not turned. -/
theorem slotsSafe_iff (ring : Ring) (op : Op) (calls : List Op) :
    SlotsSafe ring (slots ring op calls) ↔ calls.count op ≤ 2 ^ 31 := by
  rw [slots_eq]
  constructor
  · intro h
    by_contra hover
    have hmem := List.mem_map_of_mem
      (f := fun n => ring.slotOf (BitVec.ofNat 32 n))
      (List.mem_range.mpr (Nat.lt_of_not_le hover))
    have hneg := slotOf_turned_neg ring
    have hrange := h.inRing _ hmem
    omega
  · intro hle
    constructor
    · intro s hs
      obtain ⟨n, hn, rfl⟩ := List.mem_map.mp hs
      rw [slotOf_eq_slot ring (Nat.lt_of_lt_of_le (List.mem_range.mp hn) hle)]
      have hlt := (slot ring.numSlots n).isLt
      omega
    · intro i j si sj hij hwin hi hj heq
      rw [slot_of_taken hle hi, slot_of_taken hle hj] at heq
      have hslot : slot ring.numSlots i = slot ring.numSlots j :=
        Fin.ext (Int.ofNat_inj.mp heq)
      have hsame := slot_inj i (Nat.le_refl i) (by omega) hij.le hwin hslot
      omega

/-- In every ring and for every sequence of calls: the slots are safe
exactly when each operation is called at most `2 ^ 31` times. -/
theorem slots_safe_iff (ring : Ring) (calls : List Op) :
    (∀ op, SlotsSafe ring (slots ring op calls))
      ↔ ∀ op, calls.count op ≤ 2 ^ 31 :=
  forall_congr' fun op => slotsSafe_iff ring op calls

/-- One `Write` more than that, on the ring of mmap4_sem. -/
theorem write_turns_negative :
    ¬ SlotsSafe .mmap4Sem
      (slots .mmap4Sem .write (List.replicate (2 ^ 31 + 1) .write)) := by
  rw [slotsSafe_iff, List.count_replicate_self]
  omega

end DailyStudy.Counters
