/-
When the writers of the unnamed-semaphore ring overwrite unread values.

# The argument

`sem_write + sem_read` is `NUM_SLOTS` from the first `sem_init` on: a
call moves one token from one semaphore to the other, and every writer
start stores both anew. What the tokens say about the slots is lost with
a second start: the tokens of the unread values are gone, and the new
process counts its slots from 0. Which slots are unread is then a matter
of the calls alone. The reader visits the slots in order
(`Interleave.InOrder`), so of the `n` `Read`s since a slot was last
stored into, one was on that slot exactly when the slot's age among all
`Read`s is below `n` (`Interleave.not_unread_iff`).

The starts and calls are counted beside the processes (`counting`), and
the condition speaks of the counts (`Passes`). They are what the counters
show until one of them turns, when the next call leaves the ring.
-/
import DailyStudy.Unnamed.Basic

namespace DailyStudy.Unnamed

open Interleave
open Sem (Private)

variable {P : Type}

-- ================================================================ statements

/-- The semaphores, once they are there, add up to `NUM_SLOTS`. -/
def TokensKept (s : State P) : Prop :=
  ∀ m, s.segment = some m → m.semWrite + m.semRead = Sem.numSlots

/-- No call was undefined, the tokens are kept, and no store hit an unread
slot. -/
def Safe (sl : Option (State P) × List (Access Sem.numSlots)) : Prop :=
  ∃ s, sl.1 = some s ∧ TokensKept s ∧ NoOverwrite sl.2

/-- What is counted of a sequence of starts and calls: the `Write`s of
each process, the `Read`s, and for each remainder modulo `NUM_SLOTS` the
`Read`s since the last `Write` whose number had it (none: no `Write`'s
number had it). -/
structure Counts (P : Type) where
  writes : P → Nat
  reads : Nat
  since : Fin Sem.numSlots → Option Nat

variable [DecidableEq P]

/-- One more event. -/
def Counts.next (n : Counts P) : Event P → Counts P
  | .startWriter p => { n with writes := Function.update n.writes p 0 }
  | .startReader => n
  | .write p _ =>
      { n with
        writes := Function.update n.writes p (n.writes p + 1)
        since := Function.update n.since (slot _ (n.writes p)) (some 0) }
  | .read =>
      { n with
        reads := n.reads + 1
        since := fun c => (n.since c).map (· + 1) }

/-- The counts of the events so far. -/
def counting (P : Type) [DecidableEq P] : System (Counts P) (Event P) where
  init := { writes := fun _ => 0, reads := 0, since := fun _ => none }
  step n a := some (n.next a)

/-- A call is one of the first `2 ^ 31` of its process, and a `Write` with
the number `w` comes after `r` `Read`s of which more than
`(r - 1 - w) mod NUM_SLOTS` were made since the last `Write` with a number
congruent to `w`, if there was one. -/
def Passes (n : Counts P) : Event P → Prop
  | .write p _ =>
      n.writes p < 2 ^ 31
        ∧ ∀ k ∈ n.since (slot Sem.numSlots (n.writes p)),
          age Sem.numSlots n.reads (n.writes p) < k
  | .read => n.reads < 2 ^ 31
  | _ => True

instance (n : Counts P) : ∀ a, Decidable (Passes n a)
  | .write p _ =>
      inferInstanceAs (Decidable (n.writes p < 2 ^ 31
        ∧ ∀ k ∈ n.since (slot Sem.numSlots (n.writes p)), _ < k))
  | .read => inferInstanceAs (Decidable (n.reads < 2 ^ 31))
  | .startWriter _ | .startReader => .isTrue trivial

-- ============================================================ the invariant

/-- What every event keeps, as long as the condition is met. -/
structure Intact (s : State P) (l : List (Access Sem.numSlots))
    (n : Counts P) : Prop where
  tokens : TokensKept s
  clean : NoOverwrite l
  order : InOrder l n.reads
  since : ∀ c, loadsSince l c = n.since c
  writer : ∀ p q, s.writer p = some q →
    q.nextWriteSlot = .ofNat 32 (n.writes p)
  reader : ∀ q, s.reader = some q → q.nextReadSlot = .ofNat 32 n.reads
  unstarted : s.reader = none → n.reads = 0
  writes : ∀ p, n.writes p ≤ 2 ^ 31
  reads : n.reads ≤ 2 ^ 31

theorem intact_init (s : State P) (hseg : s.segment = none)
    (hwriter : ∀ p, s.writer p = none) (hreader : s.reader = none) :
    Intact s [] (counting P).init where
  tokens m h := by
    rw [hseg] at h
    cases h
  clean := noOverwrite_nil
  order := .nil
  since c := rfl
  writer p q h := by
    rw [hwriter p] at h
    cases h
  reader q h := by
    rw [hreader] at h
    cases h
  unstarted _ := rfl
  writes p := Nat.zero_le _
  reads := Nat.zero_le _

/-- One process' counter and count change together. -/
private theorem writer_update {f : P → Option Private} {g : P → Nat} {p : P}
    {q : Private} {w : Nat}
    (h : ∀ p q, f p = some q → q.nextWriteSlot = .ofNat 32 (g p))
    (hq : q.nextWriteSlot = .ofNat 32 w) :
    ∀ p' q', Function.update f p (some q) p' = some q' →
      q'.nextWriteSlot = .ofNat 32 (Function.update g p w p') := by
  intro p' q' hq'
  by_cases hp : p' = p
  · subst hp
    rw [Function.update_self] at hq'
    rw [Function.update_self, ← Option.some.inj hq', hq]
  · rw [Function.update_of_ne hp] at hq' ⊢
    exact h p' q' hq'

private theorem writes_update {g : P → Nat} {p : P} {w b : Nat}
    (h : ∀ p, g p ≤ b) (hw : w ≤ b) (p' : P) :
    Function.update g p w p' ≤ b := by
  by_cases hp : p' = p
  · rw [hp, Function.update_self]
    exact hw
  · rw [Function.update_of_ne hp]
    exact h p'

omit [DecidableEq P] in
/-- The tokens, after an event that leaves a segment with its sum. -/
private theorem tokens_of_sum {s : State P} {m : SharedData}
    (hseg : s.segment = some m)
    (hsum : m.semWrite + m.semRead = Sem.numSlots) : TokensKept s := by
  intro m' hm'
  rw [← Option.some.inj (hseg.symm.trans hm')]
  exact hsum

theorem Intact.startWriter {s s' : State P} {p : P}
    {l : List (Access Sem.numSlots)} {n : Counts P} (h : Intact s l n)
    (hm : Happens s (.startWriter p) (some s') []) :
    Intact s' l (n.next (.startWriter p)) := by
  cases hm with
  | startWriter hdead =>
      exact { h with
        tokens := tokens_of_sum rfl rfl
        writer := writer_update h.writer rfl
        writes := writes_update h.writes (Nat.zero_le _) }

theorem Intact.startReader {s s' : State P}
    {l : List (Access Sem.numSlots)} {n : Counts P} (h : Intact s l n)
    (hm : Happens s .startReader (some s') []) : Intact s' l n := by
  cases hm with
  | startReader hdead hseg =>
      refine { h with
        reader := ?_
        unstarted := fun hnone => by cases hnone }
      intro q hq
      rw [← Option.some.inj hq, h.unstarted hdead]
      rfl
  | exitReader hdead hseg => exact h

omit [DecidableEq P] in
/-- A `Write` overwrites nothing exactly when the reader has passed its
slot. -/
theorem Intact.clean_iff {s : State P} {l : List (Access Sem.numSlots)}
    {n : Counts P} (h : Intact s l n) (w : Nat) :
    NoOverwrite (l ++ [.stored (slot Sem.numSlots w)])
      ↔ ∀ k ∈ n.since (slot Sem.numSlots w),
        age Sem.numSlots n.reads w < k := by
  rw [noOverwrite_append, and_iff_right h.clean, ← h.since,
    ← not_unread_iff h.order]
  constructor
  · exact fun hunread => hunread _ rfl
  · intro hunread c hc
    cases hc
    exact hunread

theorem Intact.write {s s' : State P} {p : P} {value : Int}
    {l es : List (Access Sem.numSlots)} {n : Counts P} (h : Intact s l n)
    (hpasses : Passes n (.write p value))
    (hm : Happens s (.write p value) (some s') es) :
    Intact s' (l ++ es) (n.next (.write p value)) := by
  obtain ⟨hw, hpassed⟩ := hpasses
  cases hm with
  | @write _ _ q m c hlive hseg hsem hslot =>
      rw [h.writer p q hlive, Sem.slotOf_ofNat (h.writes p),
        if_pos hw] at hslot
      cases hslot
      refine
        { tokens := ?_
          clean := (h.clean_iff _).mpr hpassed
          order := h.order.stored _
          since := ?_
          writer := writer_update h.writer ?_
          reader := h.reader
          unstarted := h.unstarted
          writes := writes_update h.writes hw
          reads := h.reads }
      · have hsum := h.tokens m hseg
        refine tokens_of_sum rfl ?_
        show m.semWrite - 1 + (m.semRead + 1) = Sem.numSlots
        omega
      · intro c
        show loadsSince _ c = Function.update n.since _ (some 0) c
        rw [loadsSince_stored]
        by_cases hc : slot Sem.numSlots (n.writes p) = c
        · rw [if_pos hc, ← hc, Function.update_self]
        · rw [if_neg hc, Function.update_of_ne (Ne.symm hc)]
          exact h.since c
      · rw [h.writer p q hlive, Wrap.ofNat_add_one]

theorem Intact.read {s s' : State P} {l es : List (Access Sem.numSlots)}
    {n : Counts P} (h : Intact s l n) (hr : n.reads < 2 ^ 31)
    (hm : Happens s .read (some s') es) :
    Intact s' (l ++ es) (n.next .read) := by
  cases hm with
  | @read q m c hlive hseg hsem hslot =>
      rw [h.reader q hlive, Sem.slotOf_ofNat h.reads, if_pos hr] at hslot
      cases hslot
      refine
        { tokens := ?_
          clean := noOverwrite_append.mpr
            ⟨h.clean, fun c hc => by cases hc⟩
          order := h.order.loaded
          since := ?_
          writer := h.writer
          reader := ?_
          unstarted := fun hnone => by cases hnone
          writes := h.writes
          reads := hr }
      · have hsum := h.tokens m hseg
        refine tokens_of_sum rfl ?_
        show m.semWrite + 1 + (m.semRead - 1) = Sem.numSlots
        omega
      · intro c
        rw [loadsSince_loaded, h.since]
        rfl
      · intro q' hq'
        rw [← Option.some.inj hq', h.reader q hlive, Wrap.ofNat_add_one]
        rfl

/-- An event that meets the condition is defined and keeps all this, -/
theorem intact_happens {s : State P} {o : Option (State P)} {a : Event P}
    {l es : List (Access Sem.numSlots)} {n : Counts P} (h : Intact s l n)
    (hpasses : Passes n a) (hm : Happens s a o es) :
    ∃ s', o = some s' ∧ Intact s' (l ++ es) (n.next a) := by
  cases hm with
  | startWriter hdead =>
      rw [List.append_nil]
      exact ⟨_, rfl, h.startWriter (.startWriter hdead)⟩
  | startReader hdead hseg =>
      rw [List.append_nil]
      exact ⟨_, rfl, h.startReader (.startReader hdead hseg)⟩
  | exitReader hdead hseg =>
      rw [List.append_nil]
      exact ⟨_, rfl, h.startReader (.exitReader hdead hseg)⟩
  | write hlive hseg hsem hslot =>
      exact ⟨_, rfl, h.write hpasses (.write hlive hseg hsem hslot)⟩
  | @writeOutside p _ q hlive hslot =>
      rw [h.writer p q hlive, Sem.slotOf_ofNat (h.writes p),
        if_pos hpasses.1] at hslot
      cases hslot
  | read hlive hseg hsem hslot =>
      exact ⟨_, rfl, h.read hpasses (.read hlive hseg hsem hslot)⟩
  | @readOutside q hlive hslot =>
      have hr : n.reads < 2 ^ 31 := hpasses
      rw [h.reader q hlive, Sem.slotOf_ofNat h.reads, if_pos hr] at hslot
      cases hslot

/-- and one that does not is undefined, or hits an unread slot. -/
theorem not_safe_happens {s : State P} {o : Option (State P)} {a : Event P}
    {l es : List (Access Sem.numSlots)} {n : Counts P} (h : Intact s l n)
    (hnot : ¬ Passes n a) (hm : Happens s a o es) : ¬ Safe (o, l ++ es) := by
  rintro ⟨s', hsome, -, hclean⟩
  cases hm with
  | startWriter _ => exact hnot trivial
  | startReader _ _ => exact hnot trivial
  | exitReader _ _ => exact hnot trivial
  | @write p value q m c hlive hseg hsem hslot =>
      rw [h.writer p q hlive, Sem.slotOf_ofNat (h.writes p)] at hslot
      split at hslot
      next hw =>
        cases hslot
        exact hnot ⟨hw, (h.clean_iff _).mp hclean⟩
      next => cases hslot
  | writeOutside _ _ => cases hsome
  | @read q m c hlive hseg hsem hslot =>
      rw [h.reader q hlive, Sem.slotOf_ofNat h.reads] at hslot
      split at hslot
      next hr => exact hnot hr
      next => cases hslot
  | readOutside _ _ => cases hsome

-- ==================================================================== the runs

/-- Along a run, no call is undefined, the tokens are kept and no store
hits an unread slot in every state, exactly when every call is one of the
first `2 ^ 31` of its process and the counts let every `Write` pass. -/
theorem initialise_once_iff {acts : List (Event P)}
    {t : Option (State P) × List (Access Sem.numSlots)}
    (hrun : (logged P).run (logged P).init acts = some t) :
    (logged P).Always Safe (logged P).init acts
      ↔ (counting P).Meets Passes (counting P).init acts := by
  apply System.always_iff_meets_beside
    (I := fun sl n => ∃ s, sl.1 = some s ∧ Intact s sl.2 n)
  · exact fun ⟨s, hs, h⟩ => ⟨s, hs, h.tokens, h.clean⟩
  · rintro ⟨_, l⟩ n a ⟨o, l'⟩ ⟨s, rfl, h⟩ hpasses hstep
    obtain ⟨hs, rfl⟩ := System.withLog_step.mp hstep
    exact ⟨n.next a, rfl, intact_happens h hpasses (step_happens hs)⟩
  · rintro ⟨_, l⟩ n a ⟨o, l'⟩ ⟨s, rfl, h⟩ hnot hstep
    obtain ⟨hs, rfl⟩ := System.withLog_step.mp hstep
    exact not_safe_happens h hnot (step_happens hs)
  · exact ⟨_, rfl, intact_init _ rfl (fun _ => rfl) rfl⟩
  · exact hrun

/-- A second writer starts when everything is read, and the reader is
past its slots when it writes. -/
def drainedStart : List (Event Bool) :=
  [.startWriter false, .startReader, .write false 7, .write false 8, .read,
    .read, .startWriter true, .write true 9, .read]

/-- The theorem at that run. -/
theorem initialise_once_drained :
    ((logged Bool).run (logged Bool).init drainedStart).isSome = true
      ∧ (counting Bool).Meets Passes (counting Bool).init drainedStart
      ∧ (logged Bool).Always Safe (logged Bool).init drainedStart := by
  have hdone : ((logged Bool).run (logged Bool).init
      drainedStart).isSome = true := by decide
  have hpasses : (counting Bool).Meets Passes (counting Bool).init
      drainedStart := by decide
  obtain ⟨t, hrun⟩ := Option.isSome_iff_exists.mp hdone
  exact ⟨hdone, hpasses, (initialise_once_iff hrun).mpr hpasses⟩

/-- A second writer starts with a value unread. -/
def lateStart : List (Event Bool) :=
  [.startWriter false, .startReader, .write false 7, .startWriter true,
    .write true 8]

/-- Its first `Write` stores over that value. -/
theorem unread_overwritten :
    ¬ ∀ sl, (logged Bool).Reachable sl → Safe sl := by
  intro hall
  obtain ⟨⟨o, l⟩, hrun, hl⟩ := Option.map_eq_some_iff.mp
    (by decide : ((logged Bool).run (logged Bool).init lateStart).map
        Prod.snd
      = some [.stored (slot _ 0), .stored (slot _ 0)])
  have hl' : l = _ := hl
  subst hl'
  obtain ⟨s, -, -, hclean⟩ := hall _ (System.reachable_iff_run.mpr ⟨_, hrun⟩)
  have hsecond : unread [.stored (slot Sem.numSlots 0)] (slot _ 0) = false :=
    hclean 1 _ rfl
  exact absurd hsecond (by decide)

end DailyStudy.Unnamed
