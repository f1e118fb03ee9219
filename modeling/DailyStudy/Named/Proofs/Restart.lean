/-
Which restarts the named-semaphore ring survives.

# The argument

A `Read` returns what the slot of its process' counter holds: the newest
value stored into that slot since the last writer start, if there is
one, and the 0 of the cleared memory otherwise. With `w` `Write`s since
that start and `r` `Read`s since the last reader start, the newest value
on the slot has age `(w - 1 - r) mod NUM_SLOTS` (`Interleave.age`): so
many `Write`s came after it. So it exists when its age is below `w`, and
it is newer than the value read last when its age is below the age that
value has now. `Fresh` asks this of every `Read`; the semaphores, which
keep their values across processes, only decide which calls can pass.

All this is so as long as the calls stay in the ring: a process leaves it
with the call after its first `2 ^ 31` (`defined_iff`), which `Within` asks
no process to make.
-/
import DailyStudy.Named.Basic
import DailyStudy.Lib.Selection

namespace DailyStudy.Named

open Interleave
open Sem (Call)

-- ============================================================= the conditions

/-- No process calls more than `2 ^ 31` times. `w` counts the `Write`s
since the last writer start, `r` the `Read`s since the last reader
start. -/
def Within (w r : Nat) : List Event → Prop
  | [] => True
  | .startWriter :: rest => Within 0 r rest
  | .startReader :: rest => Within w 0 rest
  | .endWriter :: rest | .endReader :: rest => Within w r rest
  | .write :: rest => w < 2 ^ 31 ∧ Within (w + 1) r rest
  | .read :: rest => r < 2 ^ 31 ∧ Within w (r + 1) rest

instance decidableWithin : ∀ (w r : Nat) (events : List Event),
    Decidable (Within w r events)
  | _, _, [] => .isTrue trivial
  | _, r, .startWriter :: rest => decidableWithin 0 r rest
  | w, _, .startReader :: rest => decidableWithin w 0 rest
  | w, r, .endWriter :: rest => decidableWithin w r rest
  | w, r, .endReader :: rest => decidableWithin w r rest
  | w, r, .write :: rest =>
      have := decidableWithin (w + 1) r rest
      inferInstanceAs (Decidable (_ ∧ _))
  | w, r, .read :: rest =>
      have := decidableWithin w (r + 1) rest
      inferInstanceAs (Decidable (_ ∧ _))

/-- Every `Read` finds a value stored since the last writer start, newer
than the one read before it. `w` counts the `Write`s since the last
writer start, `r` the `Read`s since the last reader start, and `seen` the
`Write`s since the one whose value was read last. -/
def Fresh (w r : Nat) (seen : Option Nat) : List Event → Prop
  | [] => True
  | .startWriter :: rest => Fresh 0 r seen rest
  | .startReader :: rest => Fresh w 0 seen rest
  | .endWriter :: rest | .endReader :: rest => Fresh w r seen rest
  | .write :: rest => Fresh (w + 1) r (seen.map (· + 1)) rest
  | .read :: rest =>
      (age Sem.numSlots w r < w ∧ ∀ n ∈ seen, age Sem.numSlots w r < n)
        ∧ Fresh w (r + 1) (some (age Sem.numSlots w r)) rest

instance decidableFresh : ∀ (w r : Nat) (seen : Option Nat)
    (events : List Event), Decidable (Fresh w r seen events)
  | _, _, _, [] => .isTrue trivial
  | _, r, seen, .startWriter :: rest => decidableFresh 0 r seen rest
  | w, _, seen, .startReader :: rest => decidableFresh w 0 seen rest
  | w, r, seen, .endWriter :: rest => decidableFresh w r seen rest
  | w, r, seen, .endReader :: rest => decidableFresh w r seen rest
  | w, r, seen, .write :: rest =>
      decidableFresh (w + 1) r (seen.map (· + 1)) rest
  | w, r, _, .read :: rest =>
      have := decidableFresh w (r + 1) (some (age Sem.numSlots w r)) rest
      inferInstanceAs (Decidable (_ ∧ _))

-- ========================================================== the writes read

/-- Which `Write`'s value each `Read` returns, counted over all
processes (none: the cleared memory), after `t` `Write`s. -/
def picksFrom (t w r : Nat) : List Event → List (Option Nat)
  | [] => []
  | .startWriter :: rest => picksFrom t 0 r rest
  | .startReader :: rest => picksFrom t w 0 rest
  | .endWriter :: rest | .endReader :: rest => picksFrom t w r rest
  | .write :: rest => picksFrom (t + 1) (w + 1) r rest
  | .read :: rest =>
      (if age Sem.numSlots w r < w then some (t - 1 - age Sem.numSlots w r)
        else none) :: picksFrom t w (r + 1) rest

/-- The `Write` read last. -/
def lastPick (t : Nat) (seen : Option Nat) : List Nat :=
  (seen.map (t - 1 - ·)).toList

/-- One more pick increases the chain exactly when its age is below that
of the one before. -/
private theorem lastPick_chain {t a : Nat} {seen : Option Nat} (ha : a < t)
    (hseen : ∀ n ∈ seen, n < t) (js : List Nat) :
    (lastPick t seen ++ (t - 1 - a) :: js).IsChain (· < ·)
      ↔ (∀ n ∈ seen, a < n)
        ∧ (lastPick t (some a) ++ js).IsChain (· < ·) := by
  cases seen with
  | none => simp [lastPick]
  | some n =>
      have hn := hseen n rfl
      show List.IsChain _ ((t - 1 - n) :: (t - 1 - a) :: js) ↔ _
      rw [List.isChain_cons_cons]
      refine and_congr_left fun _ => ⟨fun hlt m hm => ?_, fun hnew => ?_⟩
      · obtain rfl := Option.some.inj hm
        omega
      · have hlt := hnew n rfl
        omega

/-- The events are fresh exactly when every `Read` returns a `Write`'s
value, each a later one's. -/
theorem fresh_iff (events : List Event) (t w r : Nat) (seen : Option Nat)
    (hw : w ≤ t) (hseen : ∀ n ∈ seen, n < t) :
    Fresh w r seen events ↔ ∃ js : List Nat,
      picksFrom t w r events = js.map some
        ∧ (lastPick t seen ++ js).IsChain (· < ·) := by
  induction events generalizing t w r seen with
  | nil =>
      refine iff_of_true trivial ⟨[], rfl, ?_⟩
      cases seen <;> simp [lastPick]
  | cons event rest ih =>
      cases event with
      | startWriter => exact ih t 0 r seen (Nat.zero_le t) hseen
      | startReader => exact ih t w 0 seen hw hseen
      | endWriter => exact ih t w r seen hw hseen
      | endReader => exact ih t w r seen hw hseen
      | write =>
          have hlast : lastPick (t + 1) (seen.map (· + 1))
              = lastPick t seen := by
            cases seen with
            | none => rfl
            | some n =>
                show [t + 1 - 1 - (n + 1)] = [t - 1 - n]
                congr 1
                omega
          have hseen' : ∀ n ∈ seen.map (· + 1), n < t + 1 := by
            intro n hn
            obtain ⟨n', hn', rfl⟩ := Option.map_eq_some_iff.mp hn
            exact Nat.succ_lt_succ (hseen n' hn')
          show Fresh (w + 1) r (seen.map (· + 1)) rest ↔ _
          rw [ih (t + 1) (w + 1) r _ (Nat.succ_le_succ hw) hseen', hlast]
          rfl
      | read =>
          have hrest := ih t w (r + 1) (some (age Sem.numSlots w r)) hw
          by_cases hage : age Sem.numSlots w r < w
          · rw [picksFrom, if_pos hage]
            have hlt : age Sem.numSlots w r < t := Nat.lt_of_lt_of_le hage hw
            rw [Fresh, hrest fun n hn => Option.some.inj hn ▸ hlt]
            have hchain := lastPick_chain hlt hseen
            constructor
            · rintro ⟨⟨-, hnew⟩, js, hjs, hinc⟩
              exact ⟨_ :: js, by rw [hjs]; rfl, (hchain js).mpr ⟨hnew, hinc⟩⟩
            · rintro ⟨_ | ⟨j, js⟩, hjs, hinc⟩
              · cases hjs
              · obtain ⟨hj, hjs'⟩ := List.cons.inj hjs
                obtain rfl := Option.some.inj hj
                obtain ⟨hnew, hinc'⟩ := (hchain js).mp hinc
                exact ⟨⟨hage, hnew⟩, js, hjs', hinc'⟩
          · rw [picksFrom, if_neg hage]
            refine iff_of_false (fun h => hage h.1.1) ?_
            rintro ⟨_ | ⟨j, js⟩, hjs, -⟩
            · cases hjs
            · cases hjs

-- ============================================================ the invariant

/-- What the state has to do with the counts: `t` `Write`s in all, `w` of
them since the last writer start, `r` `Read`s since the last reader
start. -/
structure Counted (vals : Nat → Int) (s : State) (t w r : Nat) : Prop where
  le : w ≤ t
  writes : w ≤ 2 ^ 31
  reads : r ≤ 2 ^ 31
  writer : ∀ p, s.writer = some p → p.nextWriteSlot = .ofNat 32 w
  reader : ∀ p, s.reader = some p → p.nextReadSlot = .ofNat 32 r
  filled : ∀ memory, s.memory = some memory →
    Filled memory (fun i => vals (t - w + i)) 0 w

/-- The value a `Read` returns, by the `Write` it picks. -/
def picked (vals : Nat → Int) (pick : Option Nat) : Int := pick.elim 0 vals

/-- The slot of a counter, where there is one. -/
private theorem slot_of_counter {n : Nat} {c : Fin Sem.numSlots}
    (hn : n ≤ 2 ^ 31) (hc : Sem.slotOf (.ofNat 32 n) = some c) :
    n < 2 ^ 31 ∧ c = slot Sem.numSlots n := by
  rw [Sem.slotOf_ofNat hn] at hc
  split at hc
  next hlt => exact ⟨hlt, (Option.some.inj hc).symm⟩
  next => cases hc

/-- A `Read` returns the newest value on its slot since the last writer
start, or the 0 of the cleared memory. -/
theorem Counted.read {vals : Nat → Int} {s s' : State} {t w r : Nat}
    {value : Int} (h : Counted vals s t w r)
    (hread : s.read = .done (value, s')) :
    r < 2 ^ 31 ∧ value = picked vals (if age Sem.numSlots w r < w
        then some (t - 1 - age Sem.numSlots w r) else none)
      ∧ Counted vals s' t w (r + 1) := by
  obtain ⟨p, memory, c, hp, hmem, hslot, rfl, hmem', hreader, hwriter⟩ :=
    read_eq_done hread
  rw [h.reader p hp] at hslot
  obtain ⟨hr, rfl⟩ := slot_of_counter h.reads hslot
  have hfilled := h.filled memory hmem
  have hle := h.le
  refine ⟨hr, ?_, hle, h.writes, hr, ?_, ?_, ?_⟩
  · rw [filled_age hfilled]
    split
    next hage =>
      have hj : t - w + (w - 1 - age Sem.numSlots w r)
          = t - 1 - age Sem.numSlots w r := by omega
      rw [hj]
      rfl
    next => rfl
  · rw [hwriter]
    exact h.writer
  · rw [hreader]
    intro p' hp'
    rw [← Option.some.inj hp', h.reader p hp, Wrap.ofNat_add_one]
  · rw [hmem']
    intro memory' hm
    rw [← Option.some.inj hm]
    exact hfilled

/-- A `Write` fills the next slot of its life. -/
theorem Counted.write {vals : Nat → Int} {s s' : State} {t w r : Nat}
    (h : Counted vals s t w r) (hwrite : s.write (vals t) = .done s') :
    w < 2 ^ 31 ∧ Counted vals s' (t + 1) (w + 1) r := by
  obtain ⟨p, memory, c, hp, hmem, hslot, hmem', hwriter, hreader⟩ :=
    write_eq_done hwrite
  rw [h.writer p hp] at hslot
  obtain ⟨hw, rfl⟩ := slot_of_counter h.writes hslot
  have hle := h.le
  refine ⟨hw, Nat.succ_le_succ hle, hw, h.reads, ?_, ?_, ?_⟩
  · rw [hwriter]
    intro p' hp'
    rw [← Option.some.inj hp', h.writer p hp, Wrap.ofNat_add_one]
  · rw [hreader]
    exact h.reader
  · rw [hmem', Nat.succ_sub_succ]
    intro memory' hm
    rw [← Option.some.inj hm]
    have hval : vals t = vals (t - w + w) := by rw [Nat.sub_add_cancel hle]
    rw [hval]
    exact filled_store (h.filled memory hmem)

theorem counted_init (vals : Nat → Int) : Counted vals .clean 0 0 0 where
  le := Nat.le_refl 0
  writes := Nat.zero_le _
  reads := Nat.zero_le _
  writer p h := by cases h
  reader p h := by cases h
  filled memory h := by cases h

/-- A writer starts over with a cleared memory. -/
theorem Counted.startWriter {vals : Nat → Int} {s s' : State}
    {t w r : Nat} (h : Counted vals s t w r)
    (hstart : s.startWriter = some s') : Counted vals s' t 0 r := by
  unfold State.startWriter at hstart
  split at hstart
  next => cases hstart
  next =>
    obtain rfl := Option.some.inj hstart
    refine ⟨Nat.zero_le t, Nat.zero_le _, h.reads, ?_, h.reader, ?_⟩
    · intro p hp
      rw [← Option.some.inj hp]
      rfl
    · intro memory hm
      rw [← Option.some.inj hm]
      exact filled_zero _ 0

/-- A reader starts at slot 0, or exits. -/
theorem Counted.startReader {vals : Nat → Int} {s s' : State}
    {t w r : Nat} (h : Counted vals s t w r)
    (hstart : s.startReader = some s') : Counted vals s' t w 0 := by
  unfold State.startReader at hstart
  split at hstart
  next => cases hstart
  next hnone =>
    split at hstart
    next =>
      obtain rfl := Option.some.inj hstart
      refine ⟨h.le, h.writes, Nat.zero_le _, h.writer, ?_, h.filled⟩
      intro p hp
      rw [← Option.some.inj hp]
      rfl
    next =>
      obtain rfl := Option.some.inj hstart
      refine ⟨h.le, h.writes, Nat.zero_le _, h.writer, ?_, h.filled⟩
      intro p hp
      rw [hnone] at hp
      cases hp

theorem Counted.endWriter {vals : Nat → Int} {s s' : State} {t w r : Nat}
    (h : Counted vals s t w r) (hend : s.endWriter = some s') :
    Counted vals s' t w r := by
  unfold State.endWriter at hend
  split at hend
  next =>
    obtain rfl := Option.some.inj hend
    refine ⟨h.le, h.writes, h.reads, ?_, h.reader, h.filled⟩
    intro p hp
    cases hp
  next => cases hend

theorem Counted.endReader {vals : Nat → Int} {s s' : State} {t w r : Nat}
    (h : Counted vals s t w r) (hend : s.endReader = some s') :
    Counted vals s' t w r := by
  unfold State.endReader at hend
  split at hend
  next =>
    obtain rfl := Option.some.inj hend
    refine ⟨h.le, h.writes, h.reads, h.writer, ?_, h.filled⟩
    intro p hp
    cases hp
  next => cases hend

-- =============================================================== the behaviour

/-- A `Write` that is done, as a step. -/
private theorem write_step {vals : Nat → Int} {s : State} {t : Nat}
    {o : Option (State × Nat)}
    (h : (lives vals).step (some (s, t)) .write = some o) :
    s.write (vals t) = .undefined ∧ o = none
      ∨ ∃ s', s.write (vals t) = .done s' ∧ o = some (s', t + 1) := by
  rcases Call.step_eq_some h with ⟨hcall, rfl⟩ | ⟨sn, hcall, rfl⟩
  · exact .inl ⟨Call.map_eq_undefined hcall, rfl⟩
  · obtain ⟨s', hdone, rfl⟩ := Call.map_eq_done hcall
    exact .inr ⟨s', hdone, rfl⟩

/-- A `Read` that is done, as a step. -/
private theorem read_step {vals : Nat → Int} {s : State} {t : Nat}
    {o : Option (State × Nat)}
    (h : (lives vals).step (some (s, t)) .read = some o) :
    s.read = .undefined ∧ o = none
      ∨ ∃ value s', s.read = .done (value, s') ∧ o = some (s', t) := by
  rcases Call.step_eq_some h with ⟨hcall, rfl⟩ | ⟨sn, hcall, rfl⟩
  · exact .inl ⟨Call.map_eq_undefined hcall, rfl⟩
  · obtain ⟨⟨value, s'⟩, hdone, rfl⟩ := Call.map_eq_done hcall
    exact .inr ⟨value, s', hdone, rfl⟩

/-- Nothing is known of a system again. -/
theorem run_none (vals : Nat → Int) (events : List Event) :
    (lives vals).run none events = some none := by
  induction events with
  | nil => rfl
  | cons event rest ih => exact ih

/-- The behaviour is defined exactly as long as every process calls within
the bound. -/
theorem defined_iff {vals : Nat → Int} {events : List Event} {s : State}
    {t w r : Nat} {o : Option (State × Nat)} (h : Counted vals s t w r)
    (hrun : (lives vals).run (some (s, t)) events = some o) :
    o ≠ none ↔ Within w r events := by
  induction events generalizing s t w r with
  | nil =>
      obtain rfl := Option.some.inj hrun
      exact iff_of_true (Option.some_ne_none _) trivial
  | cons event rest ih =>
      obtain ⟨o₁, hstep, hrest⟩ := System.run_cons_eq_some.mp hrun
      cases event with
      | startWriter =>
          obtain ⟨s₁, hs, rfl⟩ := Option.map_eq_some_iff.mp hstep
          exact ih (h.startWriter hs) hrest
      | startReader =>
          obtain ⟨s₁, hs, rfl⟩ := Option.map_eq_some_iff.mp hstep
          exact ih (h.startReader hs) hrest
      | endWriter =>
          obtain ⟨s₁, hs, rfl⟩ := Option.map_eq_some_iff.mp hstep
          exact ih (h.endWriter hs) hrest
      | endReader =>
          obtain ⟨s₁, hs, rfl⟩ := Option.map_eq_some_iff.mp hstep
          exact ih (h.endReader hs) hrest
      | write =>
          rcases write_step hstep with ⟨hcall, rfl⟩ | ⟨s₁, hcall, rfl⟩
          · rw [run_none] at hrest
            obtain ⟨p, hp, hnone⟩ := write_eq_undefined hcall
            rw [h.writer p hp, Sem.slotOf_ofNat h.writes] at hnone
            refine iff_of_false (fun hne => hne (Option.some.inj hrest).symm)
              fun hwithin => ?_
            rw [if_pos hwithin.1] at hnone
            cases hnone
          · obtain ⟨hw, h₁⟩ := h.write hcall
            exact (ih h₁ hrest).trans (and_iff_right hw).symm
      | read =>
          rcases read_step hstep with ⟨hcall, rfl⟩ | ⟨value, s₁, hcall, rfl⟩
          · rw [run_none] at hrest
            obtain ⟨p, hp, hnone⟩ := read_eq_undefined hcall
            rw [h.reader p hp, Sem.slotOf_ofNat h.reads] at hnone
            refine iff_of_false (fun hne => hne (Option.some.inj hrest).symm)
              fun hwithin => ?_
            rw [if_pos hwithin.1] at hnone
            cases hnone
          · obtain ⟨hr, -, h₁⟩ := h.read hcall
            exact (ih h₁ hrest).trans (and_iff_right hr).symm

/-- A start or an end returns nothing and is no `Write`. -/
private theorem trace_quiet {vals : Nat → Int} {event : Event}
    {rest : List Event} {s s₁ : State} {t : Nat} {picks : List (Option Nat)}
    (hstep : (lives vals).step (some (s, t)) event = some (some (s₁, t)))
    (hret : returns (some (s, t)) event = []) (hne : event ≠ .write)
    (hrest : (lives vals).trace returns (some (s₁, t)) rest
        = picks.map (picked vals)
      ∧ ∀ j, some j ∈ picks → j < t + rest.count .write) :
    (lives vals).trace returns (some (s, t)) (event :: rest)
        = picks.map (picked vals)
      ∧ ∀ j, some j ∈ picks → j < t + (event :: rest).count .write := by
  rw [List.count_cons_of_ne hne]
  refine ⟨?_, hrest.2⟩
  rw [System.trace_cons hstep, hret]
  exact hrest.1

/-- The values a sequence of events returns are those of the `Write`s
picked, and these are made by its end. -/
theorem trace_eq_picks {vals : Nat → Int} {events : List Event}
    {s : State} {t w r : Nat} {sn : State × Nat}
    (h : Counted vals s t w r)
    (hrun : (lives vals).run (some (s, t)) events = some (some sn)) :
    (lives vals).trace returns (some (s, t)) events
        = (picksFrom t w r events).map (picked vals)
      ∧ ∀ j, some j ∈ picksFrom t w r events →
          j < t + events.count .write := by
  induction events generalizing s t w r with
  | nil => simp [System.trace, picksFrom]
  | cons event rest ih =>
      obtain ⟨o₁, hstep, hrest⟩ := System.run_cons_eq_some.mp hrun
      cases event with
      | startWriter =>
          obtain ⟨s₁, hs, rfl⟩ := Option.map_eq_some_iff.mp hstep
          exact trace_quiet hstep rfl (by decide) (ih (h.startWriter hs) hrest)
      | startReader =>
          obtain ⟨s₁, hs, rfl⟩ := Option.map_eq_some_iff.mp hstep
          exact trace_quiet hstep rfl (by decide) (ih (h.startReader hs) hrest)
      | endWriter =>
          obtain ⟨s₁, hs, rfl⟩ := Option.map_eq_some_iff.mp hstep
          exact trace_quiet hstep rfl (by decide) (ih (h.endWriter hs) hrest)
      | endReader =>
          obtain ⟨s₁, hs, rfl⟩ := Option.map_eq_some_iff.mp hstep
          exact trace_quiet hstep rfl (by decide) (ih (h.endReader hs) hrest)
      | write =>
          rcases write_step hstep with ⟨-, rfl⟩ | ⟨s₁, hs, rfl⟩
          · rw [run_none] at hrest
            cases hrest
          obtain ⟨htrace, hlt⟩ := ih (h.write hs).2 hrest
          rw [System.trace_cons hstep, htrace]
          refine ⟨rfl, fun j hj => ?_⟩
          have hj' := hlt j hj
          rw [List.count_cons_self]
          omega
      | read =>
          rcases read_step hstep with ⟨-, rfl⟩ | ⟨value, s₁, hs, rfl⟩
          · rw [run_none] at hrest
            cases hrest
          obtain ⟨-, hvalue, h₁⟩ := h.read hs
          obtain ⟨htrace, hlt⟩ := ih h₁ hrest
          have hret : returns (some (s, t)) .read = [value] := by
            simp [returns, hs]
          rw [System.trace_cons hstep, htrace]
          refine ⟨?_, fun j hj => ?_⟩
          · rw [hret, hvalue]
            rfl
          · have hcount : (Event.read :: rest).count .write
                = rest.count .write := List.count_cons_of_ne (by decide)
            rw [hcount]
            rcases List.mem_cons.mp hj with hj | hj
            · split at hj
              next hage =>
                have hle := h.le
                have hj' := Option.some.inj hj
                omega
              next => cases hj
            · exact hlt j hj

-- =============================================================== the sequences

/-- Picks that all pick something are a list of `Write`s. -/
private theorem exists_map_some {picks : List (Option Nat)}
    (h : none ∉ picks) : ∃ js : List Nat, picks = js.map some := by
  induction picks with
  | nil => exact ⟨[], rfl⟩
  | cons pick rest ih =>
      obtain ⟨js, hjs⟩ := ih fun hm => h (List.mem_cons_of_mem _ hm)
      cases pick with
      | none => exact absurd List.mem_cons_self h
      | some j => exact ⟨j :: js, by rw [hjs]; rfl⟩

/-- Within the bound, whatever nonzero values are written, the values read
are an order-preserving selection of them exactly when every `Read` is
fresh. -/
theorem selects_iff_fresh {events : List Event}
    (hpicks : ∀ vals, returned vals events
        = (picksFrom 0 0 0 events).map (picked vals)
      ∧ ∀ j, some j ∈ picksFrom 0 0 0 events →
          j < 0 + events.count .write) :
    (∀ vals, (∀ i, vals i ≠ 0) → (returned vals events).Sublist
        (firsts vals (events.count .write)))
      ↔ Fresh 0 0 none events := by
  rw [fresh_iff events 0 0 0 none (Nat.le_refl 0) (by simp)]
  constructor
  · intro hsel
    -- positive and growing values tell the writes and the cleared slots apart
    have hmono : StrictMono fun i : Nat => (i : Int) + 1 :=
      fun _ _ hab => Int.add_lt_add_right (Int.ofNat_lt.mpr hab) 1
    have hsub := hsel (fun i => (i : Int) + 1) fun i => by omega
    rw [(hpicks _).1] at hsub
    have hsome : none ∉ picksFrom 0 0 0 events := fun hm => by
      have hzero := hsub.subset (List.mem_map_of_mem hm)
      obtain ⟨i, -, hi⟩ := List.mem_map.mp hzero
      have hi' : (i : Int) + 1 = 0 := hi
      omega
    obtain ⟨js, hjs⟩ := exists_map_some hsome
    refine ⟨js, hjs, ?_⟩
    rw [hjs, List.map_map] at hsub
    exact List.isChain_iff_pairwise.mpr (increasing_of_sublist hmono hsub)
  · rintro ⟨js, hjs, hinc⟩ vals -
    obtain ⟨heq, hlt⟩ := hpicks vals
    rw [heq, hjs, List.map_map]
    refine sublist_of_increasing vals (List.isChain_iff_pairwise.mp hinc)
      fun j hj => ?_
    have hj' := hlt j (by rw [hjs]; exact List.mem_map_of_mem hj)
    omega

/-- For a sequence of events in which every call can pass: whatever
nonzero values are written, no call leaves the ring and the values read
are an order-preserving selection of those written, exactly when no
process calls more than `2 ^ 31` times and every `Read` is fresh. -/
theorem restart_safe_iff {events : List Event}
    (henabled : ∀ vals,
      ((lives vals).run (lives vals).init events).isSome = true) :
    (∀ vals, (∀ i, vals i ≠ 0) → Defined vals events
        ∧ (returned vals events).Sublist
          (firsts vals (events.count .write)))
      ↔ Within 0 0 events ∧ Fresh 0 0 none events := by
  have hdefined : ∀ vals, Defined vals events ↔ Within 0 0 events := by
    intro vals
    obtain ⟨o, hrun⟩ := Option.isSome_iff_exists.mp (henabled vals)
    rw [← defined_iff (counted_init vals) hrun]
    unfold Defined
    rw [hrun]
    exact not_congr Option.some_inj
  have hpicks : Within 0 0 events → ∀ vals, returned vals events
        = (picksFrom 0 0 0 events).map (picked vals)
      ∧ ∀ j, some j ∈ picksFrom 0 0 0 events →
          j < 0 + events.count .write := by
    intro hwithin vals
    obtain ⟨o, hrun⟩ := Option.isSome_iff_exists.mp (henabled vals)
    have hne := (defined_iff (counted_init vals) hrun).mpr hwithin
    obtain ⟨sn, rfl⟩ := Option.ne_none_iff_exists'.mp hne
    exact trace_eq_picks (counted_init vals) hrun
  constructor
  · intro hsafe
    have hwithin := (hdefined fun _ => 1).mp
      (hsafe (fun _ => 1) fun _ => by decide).1
    exact ⟨hwithin, (selects_iff_fresh (hpicks hwithin)).mp
      fun vals hvals => (hsafe vals hvals).2⟩
  · rintro ⟨hwithin, hfresh⟩ vals hvals
    exact ⟨(hdefined vals).mpr hwithin,
      (selects_iff_fresh (hpicks hwithin)).mpr hfresh vals hvals⟩

/-- Both processes restart together, after everything written was
read. -/
def cleanRestart : List Event :=
  [.startWriter, .startReader, .write, .write, .read, .read, .endWriter,
    .endReader, .startWriter, .startReader, .write, .read]

/-- The theorem at that sequence. -/
theorem restart_safe_clean :
    Within 0 0 cleanRestart ∧ Fresh 0 0 none cleanRestart
      ∧ ∀ vals, (∀ i, vals i ≠ 0) → Defined vals cleanRestart
        ∧ (returned vals cleanRestart).Sublist (firsts vals 3) := by
  have henabled : ∀ vals,
      ((lives vals).run (lives vals).init cleanRestart).isSome = true :=
    fun _ => rfl
  have hwithin : Within 0 0 cleanRestart := by decide
  have hfresh : Fresh 0 0 none cleanRestart := by decide
  exact ⟨hwithin, hfresh, (restart_safe_iff henabled).mpr ⟨hwithin, hfresh⟩⟩

/-- The reader alone restarts, after everything written was read. -/
def readerRestart : List Event :=
  [.startWriter, .startReader, .write, .read, .endReader, .startReader,
    .write, .read]

/-- Its second process reads slot 0 again. -/
theorem value_read_twice :
    ¬ ∀ events, (∀ vals,
        ((lives vals).run (lives vals).init events).isSome = true) →
      ∀ vals, (∀ i, vals i ≠ 0) → (returned vals events).Sublist
        (firsts vals (events.count .write)) := by
  intro hall
  have hsel := hall readerRestart (fun _ => rfl) (fun i => (i : Int) + 1)
    fun i => by omega
  have hread : returned (fun i => (i : Int) + 1) readerRestart = [1, 1] := by
    decide
  rw [hread] at hsel
  exact absurd hsel (by decide)

end DailyStudy.Named
