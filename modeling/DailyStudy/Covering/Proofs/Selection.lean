/-
What the reads of the covering ring return, one whole call at a time:
which written values are skipped, and when the order breaks.

# The argument

Tickets are stored in order, so the ring is always filled
(`Interleave.Filled`), and the `r`-th `Read` returns the newest ticket on
the slot of `r`: ticket `r` plus as many whole laps as the writer is
ahead, `(next_write_slot_ - next_read_slot_ - 1) / NUM_SLOTS`. From one
`Read` to the next the first summand grows by one and the second by a
multiple of `NUM_SLOTS`, so the tickets read increase exactly when the
laps never decrease. `sem_read` counts the laps too, but a `Read` takes
one token however many values it skips.
-/
import DailyStudy.Covering.Calls
import DailyStudy.Lib.Selection

namespace DailyStudy.Covering

open Interleave

-- ============================================================== the condition

/-- By how many whole laps the writer is ahead when each `Read` begins,
from `w` `Write`s and `r` `Read`s on. -/
def lapsFrom (w r : Nat) : List Call → List Nat
  | [] => []
  | .write :: rest => lapsFrom (w + 1) r rest
  | .read :: rest => (w - r - 1) / numSlots :: lapsFrom w (r + 1) rest

/-- From one `Read` to the next, the whole laps by which the writer is
ahead never decrease. -/
def NeverFallsBack (calls : List Call) : Prop :=
  (lapsFrom 0 0 calls).IsChain (· ≤ ·)

instance (calls : List Call) : Decidable (NeverFallsBack calls) :=
  inferInstanceAs (Decidable (List.IsChain _ _))

-- ========================================================== the tickets read

/-- The ticket each `Read` returns, from `w` `Write`s and `r` `Read`s
on. -/
def picksFrom (w r : Nat) : List Call → List Nat
  | [] => []
  | .write :: rest => picksFrom (w + 1) r rest
  | .read :: rest => lastTicket numSlots w r :: picksFrom w (r + 1) rest

/-- The tickets are the laps, each on top of its own `Read`. -/
theorem lastTicket_eq_lap (w r : Nat) :
    lastTicket numSlots w r = r + numSlots * ((w - r - 1) / numSlots) := by
  rw [lastTicket, Nat.sub_right_comm]

/-- After a `Read`, the tickets increase exactly when the laps do not
decrease. -/
theorem picks_chain_iff (calls : List Call) (w r lap : Nat) :
    ((r + numSlots * lap) :: picksFrom w (r + 1) calls).IsChain (· < ·)
      ↔ (lap :: lapsFrom w (r + 1) calls).IsChain (· ≤ ·) := by
  induction calls generalizing w r lap with
  | nil => simp [picksFrom, lapsFrom]
  | cons call rest ih =>
      cases call with
      | write => exact ih (w + 1) r lap
      | read =>
          show (_ :: lastTicket numSlots w (r + 1) :: _).IsChain _ ↔ _
          rw [lastTicket_eq_lap, lapsFrom, List.isChain_cons_cons,
            List.isChain_cons_cons, ih w (r + 1)]
          refine and_congr_left fun _ => ?_
          show r + 50 * lap < r + 1 + 50 * _ ↔ lap ≤ _
          omega

/-- The tickets increase exactly when the laps never decrease. -/
theorem picks_increase_iff (calls : List Call) (w r : Nat) :
    (picksFrom w r calls).Pairwise (· < ·)
      ↔ (lapsFrom w r calls).IsChain (· ≤ ·) := by
  rw [← List.isChain_iff_pairwise]
  induction calls generalizing w with
  | nil => simp [picksFrom, lapsFrom]
  | cons call rest ih =>
      cases call with
      | write => exact ih (w + 1)
      | read =>
          rw [picksFrom, lastTicket_eq_lap]
          exact picks_chain_iff rest w r _

-- ============================================================ the invariant

/-- The ring is filled by the `Write`s so far, and each of them left a
token that a `Read` took or can take. -/
structure Filling (vals : Nat → Int) (m : SharedData) : Prop where
  filled : Filled m.data vals 0 m.nextWriteSlot
  tokens : m.nextReadSlot + m.semRead = m.nextWriteSlot

theorem filling_init (vals : Nat → Int) :
    Filling vals (serial vals).init where
  filled := filled_zero vals 0
  tokens := rfl

theorem filling_step {vals : Nat → Int} {m m' : SharedData} {call : Call}
    (h : Filling vals m) (hstep : (serial vals).step m call = some m') :
    Filling vals m' := by
  cases call with
  | write =>
      obtain rfl : m.writeCall (vals m.nextWriteSlot) = m' :=
        Option.some.inj hstep
      refine ⟨filled_store h.filled, ?_⟩
      show m.nextReadSlot + (m.semRead + 1) = m.nextWriteSlot + 1
      rw [← Nat.add_assoc, h.tokens]
  | read =>
      obtain ⟨⟨value, m₁⟩, hread, rfl⟩ := Option.map_eq_some_iff.mp hstep
      obtain ⟨hsem, -, rfl⟩ := readCall_eq_some hread
      refine ⟨h.filled, ?_⟩
      have htok := h.tokens
      show m.nextReadSlot + 1 + (m.semRead - 1) = m.nextWriteSlot
      omega

/-- The values a run of calls returns are those of the tickets picked,
and all of these are written by its end. -/
theorem trace_eq_picks {vals : Nat → Int} {calls : List Call}
    {m m' : SharedData} (h : Filling vals m)
    (hrun : (serial vals).run m calls = some m') :
    (serial vals).trace returns m calls
        = (picksFrom m.nextWriteSlot m.nextReadSlot calls).map vals
      ∧ ∀ p ∈ picksFrom m.nextWriteSlot m.nextReadSlot calls,
          p < m.nextWriteSlot + calls.count .write := by
  induction calls generalizing m with
  | nil => simp [System.trace, picksFrom]
  | cons call rest ih =>
      obtain ⟨m₁, hstep, hrest⟩ := System.run_cons_eq_some.mp hrun
      obtain ⟨htrace, hlt⟩ := ih (filling_step h hstep) hrest
      rw [System.trace_cons hstep, htrace]
      cases call with
      | write =>
          obtain rfl : m.writeCall (vals m.nextWriteSlot) = m₁ :=
            Option.some.inj hstep
          refine ⟨rfl, fun p hp => ?_⟩
          have hp' := hlt p hp
          rw [List.count_cons_self]
          simp only [SharedData.writeCall] at hp'
          omega
      | read =>
          obtain ⟨⟨value, m₂⟩, hread, rfl⟩ := Option.map_eq_some_iff.mp hstep
          obtain ⟨hsem, -, rfl⟩ := readCall_eq_some hread
          have hr : m.nextReadSlot < m.nextWriteSlot := by
            have := h.tokens
            omega
          refine ⟨?_, fun p hp => ?_⟩
          · show m.data _ :: _ = vals _ :: _
            rw [filled_slot h.filled hr]
            rfl
          · have hcount : (Call.read :: rest).count .write
                = rest.count .write := List.count_cons_of_ne (by decide)
            rw [hcount]
            rcases List.mem_cons.mp hp with rfl | hp
            · have := (lastTicket_spec (N := numSlots) hr).2.1
              omega
            · exact hlt p hp

-- ============================================================== the selections

/-- For a sequence of calls in which every `Read` finds a token: whatever
values are written, the values read are an order-preserving selection of
them, exactly when the laps by which the writer is ahead never decrease
from one `Read` to the next. -/
theorem reads_select_iff {calls : List Call}
    (hissued : ∀ vals,
      ((serial vals).run (serial vals).init calls).isSome = true) :
    (∀ vals, (returned vals calls).Sublist
        (firsts vals (calls.count .write)))
      ↔ NeverFallsBack calls := by
  have hpicks : ∀ vals, returned vals calls = (picksFrom 0 0 calls).map vals
      ∧ ∀ p ∈ picksFrom 0 0 calls, p < 0 + calls.count .write := by
    intro vals
    obtain ⟨m, hrun⟩ := Option.isSome_iff_exists.mp (hissued vals)
    exact trace_eq_picks (filling_init vals) hrun
  unfold NeverFallsBack
  rw [← picks_increase_iff]
  constructor
  · intro hsel
    have hmono : StrictMono fun i : Nat => (i : Int) :=
      fun _ _ hab => Int.ofNat_lt.mpr hab
    have hcast := hsel fun i => (i : Int)
    rw [(hpicks _).1] at hcast
    exact increasing_of_sublist hmono hcast
  · intro hinc vals
    obtain ⟨heq, hlt⟩ := hpicks vals
    rw [heq]
    refine sublist_of_increasing vals hinc fun p hp => ?_
    have := hlt p hp
    omega

/-- Sixty `Write`s lap the reader, and the next ten `Read`s return the
values of the second lap. -/
def lappedCalls : List Call :=
  List.replicate 60 .write ++ List.replicate 10 .read

/-- The theorem at that sequence. -/
theorem reads_select_lapped :
    NeverFallsBack lappedCalls
      ∧ ∀ vals, (returned vals lappedCalls).Sublist (firsts vals 60) := by
  have hissued : ∀ vals,
      ((serial vals).run (serial vals).init lappedCalls).isSome = true :=
    fun _ => rfl
  have hnever : NeverFallsBack lappedCalls := by decide
  exact ⟨hnever, (reads_select_iff hissued).mpr hnever⟩

/-- Fifty-one `Write`s lap the reader in slot 0 only. -/
def brokenCalls : List Call :=
  List.replicate 51 .write ++ [.read, .read]

/-- The first `Read` returns the last value written and the second an
older one. -/
theorem reads_out_of_order :
    ¬ ∀ calls, (∀ vals,
        ((serial vals).run (serial vals).init calls).isSome = true) →
      ∀ vals, (returned vals calls).Sublist
        (firsts vals (calls.count .write)) := by
  intro hall
  have hsel := hall brokenCalls (fun _ => rfl) fun i => (i : Int)
  have hread : returned (fun i => (i : Int)) brokenCalls = [50, 1] := by
    decide
  rw [hread] at hsel
  exact absurd hsel (by decide)

end DailyStudy.Covering
