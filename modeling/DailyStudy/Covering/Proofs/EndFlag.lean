/-
When the end flag stops the reader early.

# The argument

The flag takes the ticket after all others, `n`, and the slot of `n`;
nothing is stored after it. When it is stored the reader has loaded some
tickets `0 .. L - 1`, none of which held the flag. From then on the
flag is in exactly one slot, and the reader, which decides on the content
of its slot and not on its ticket, stops at the first ticket from `L` on
that shares the slot of `n`. That is `n` itself exactly when the tickets
from `L` to `n` are less than one lap, that is when fewer than
`NUM_SLOTS` published values were still unread when the flag was stored.

`Before` and `After` are the two halves of the invariant. The accounts
of `Tokens` bound `L` by `n` and the reader's tickets by the writer's.
-/
import DailyStudy.Covering.Proofs.Tokens
import DailyStudy.Covering.Stream
import Mathlib.Data.Fintype.Option

namespace DailyStudy.Covering

open Interleave

-- ============================================================ the invariant

/-- The value a `Write` has still to store. -/
def WritePc.pending : WritePc → Option Int
  | .loop value _ | .claim value | .store value _ => some value
  | _ => none

variable {W : Type}

/-- The end flag is not stored yet, and nothing in or near the ring looks
like it. -/
structure Before (p : Process W) : Prop where
  clean : ∀ c, p.ring.mem.data c ≠ endFlag
  values : ∀ w v, (p.ring.writer (some w)).pending = some v → v ≠ endFlag
  unseen : p.ring.reader ≠ .test endFlag
  continues : p.ring.shouldContinue = true
  callsLater : p.main ≠ .destroying → p.ring.writer none = .idle
  othersDone : p.main ≠ .running → ∀ w, p.ring.writer (some w) = .idle
  flagging : p.main = .destroying →
    (p.ring.writer none).pending = some endFlag
  ticket : ∀ v t, p.ring.writer none = .store v t →
    p.ring.mem.nextWriteSlot = t + 1

/-- The reader has seen the flag: the value it loaded last, or the
`should_continue` it set. -/
def Stopping (s : State (Option W)) : Prop :=
  s.shouldContinue = false ∨ s.reader = .test endFlag

/-- `t` is the first ticket from `L` on that shares the slot of `n`. -/
def FirstOn (n L t : Nat) : Prop :=
  L ≤ t ∧ slot numSlots t = slot numSlots n
    ∧ ∀ u, L ≤ u → u < t → slot numSlots u ≠ slot numSlots n

/-- The end flag is stored, with ticket `n`; the reader had loaded `L`
slots then. -/
structure After (p : Process W) (n L : Nat) : Prop where
  main : p.main = .destroying
  quiet : ∀ w, (p.ring.writer w).pending = none
  last : p.ring.mem.nextWriteSlot = n + 1
  flag : p.ring.mem.data (slot numSlots n) = endFlag
  clean : ∀ c, c ≠ slot numSlots n → p.ring.mem.data c ≠ endFlag
  start_le : L ≤ n
  started : L ≤ p.ring.loaded
  stopped : p.ring.shouldContinue = false →
    p.ring.reader = .idle ∨ ∃ v, p.ring.reader = .release v
  searching : ¬ Stopping p.ring → ∀ t, L ≤ t → t < p.ring.loaded →
    slot numSlots t ≠ slot numSlots n
  found : Stopping p.ring →
    ∃ t, p.ring.mem.nextReadSlot = t + 1 ∧ FirstOn n L t

/-- The first ticket from `L` on is `n` exactly when `n` is less than a
lap away. -/
theorem FirstOn.eq_iff {n L t : Nat} (h : FirstOn n L t) (hL : L ≤ n)
    (ht : t ≤ n) : t = n ↔ n - L < numSlots := by
  obtain ⟨hLt, hslot, hfirst⟩ := h
  constructor
  · intro heq
    subst heq
    by_contra hlap
    -- a lap before it the slot is the same
    have hpos : 0 < numSlots := by decide
    refine hfirst (t - numSlots) (by omega) (by omega) ?_
    rw [slot_eq_iff]
    exact (Nat.mod_eq_sub_mod (by omega)).symm
  · intro hlap
    exact slot_inj L hLt (by omega) hL (by omega) hslot

-- =============================================== before the flag is stored

variable [DecidableEq W]

/-- A writer moves on inside its `Write` and the ring stays clean. -/
private theorem Before.writer_moves {p p' : Process W} (hb : Before p)
    {w : Option W} {old new : WritePc} (hpc : p.ring.writer w = old)
    (hne : old ≠ .idle)
    (hw : p'.ring.writer = Function.update p.ring.writer w new)
    (hpend : ∀ v, new.pending = some v → old.pending = some v)
    (hmine : w = none → new.pending = old.pending)
    (hmain : p'.main = p.main) (hr : p'.ring.reader = p.ring.reader)
    (hc : p'.ring.shouldContinue = p.ring.shouldContinue)
    (hclean : ∀ c, p'.ring.mem.data c ≠ endFlag)
    (hticket : ∀ v t, p'.ring.writer none = .store v t →
      p'.ring.mem.nextWriteSlot = t + 1) : Before p' where
  clean := hclean
  values w' v := by
    rw [hw]
    by_cases hw' : some w' = w
    · rw [hw', Function.update_self]
      intro hv
      refine hb.values w' v ?_
      rw [hw', hpc]
      exact hpend v hv
    · rw [Function.update_of_ne hw']
      exact hb.values w' v
  unseen := by rw [hr]; exact hb.unseen
  continues := by rw [hc]; exact hb.continues
  callsLater := by
    rw [hmain, hw]
    intro hm
    have hidle := hb.callsLater hm
    by_cases hw' : none = w
    · rw [hw', hpc] at hidle
      exact absurd hidle hne
    · rw [Function.update_of_ne hw']
      exact hidle
  othersDone := by
    rw [hmain, hw]
    intro hm w'
    have hidle := hb.othersDone hm w'
    by_cases hw' : some w' = w
    · rw [hw', hpc] at hidle
      exact absurd hidle hne
    · rw [Function.update_of_ne hw']
      exact hidle
  flagging := by
    rw [hmain, hw]
    intro hm
    have hflag := hb.flagging hm
    by_cases hw' : none = w
    · rw [hw', Function.update_self, hmine hw'.symm, ← hpc, ← hw']
      exact hflag
    · rw [Function.update_of_ne hw']
      exact hflag
  ticket := hticket

omit [DecidableEq W] in
/-- The reader moves and does not find the flag. -/
private theorem Before.reader_moves {p p' : Process W} (hb : Before p)
    (hw : p'.ring.writer = p.ring.writer) (hmain : p'.main = p.main)
    (hdata : p'.ring.mem.data = p.ring.mem.data)
    (hwrite : p'.ring.mem.nextWriteSlot = p.ring.mem.nextWriteSlot)
    (hr : p'.ring.reader ≠ .test endFlag)
    (hc : p'.ring.shouldContinue = true) : Before p' where
  clean := by rw [hdata]; exact hb.clean
  values := by rw [hw]; exact hb.values
  unseen := hr
  continues := hc
  callsLater := by rw [hmain, hw]; exact hb.callsLater
  othersDone := by rw [hmain, hw]; exact hb.othersDone
  flagging := by rw [hmain, hw]; exact hb.flagging
  ticket := by rw [hw, hwrite]; exact hb.ticket

/-- A writer moves and is not then at its store: the main thread's ticket
is where it was. -/
private theorem Before.ticket_moves {p : Process W} (hb : Before p)
    (w : Option W) (new : WritePc) (hnew : ∀ v t, new ≠ .store v t) :
    ∀ v t, Function.update p.ring.writer w new none = .store v t →
      p.ring.mem.nextWriteSlot = t + 1 := fun v t h =>
  hb.ticket v t (of_update_eq h (hnew v t)).2

omit [DecidableEq W] in
/-- A writer thread is inside a call: the main thread is not. -/
private theorem Before.main_idle {p : Process W} (hb : Before p) {w : W}
    (hne : p.ring.writer (some w) ≠ .idle) : p.ring.writer none = .idle := by
  refine hb.callsLater fun hmain => hne (hb.othersDone ?_ w)
  rw [hmain]
  decide

/-- The main thread stores the flag. -/
private theorem Before.flag_stored [Fintype W] {p : Process W}
    (hb : Before p) (htok : Tokens p.ring) {v : Int} {t : Nat}
    (hpc : p.ring.writer none = .store v t) :
    After ⟨{ p.ring with
      mem := { p.ring.mem with
        data := Function.update p.ring.mem.data (slot numSlots t) v }
      writer := Function.update p.ring.writer none .post }, p.main⟩
      t p.ring.loaded := by
  have hmain : p.main = .destroying := by
    by_contra hm
    have hidle := hb.callsLater hm
    rw [hpc] at hidle
    cases hidle
  have hflag : v = endFlag := by
    have hf := hb.flagging hmain
    rw [hpc] at hf
    exact Option.some.inj hf
  have hlast := hb.ticket v t hpc
  -- the flag's own ticket is owed, so the reader is behind it
  have hread : p.ring.mem.nextReadSlot ≤ t := by
    have hbal := htok.balance
    have howes : 0 < census WritePc.owes p.ring.writer :=
      census_pos (i := none) (by rw [hpc]; rfl)
    omega
  have hloaded : p.ring.loaded ≤ p.ring.mem.nextReadSlot := by
    unfold State.loaded
    split
    next t' ht => rw [htok.loading t' ht]; omega
    next => exact Nat.le_refl _
  have hsearch : ¬ Stopping p.ring := fun hstop => by
    rcases hstop with hstop | hstop
    · rw [hb.continues] at hstop
      cases hstop
    · exact hb.unseen hstop
  constructor
  case main => exact hmain
  case quiet =>
    intro w
    cases w with
    | none =>
        show (Function.update p.ring.writer none .post none).pending = none
        rw [Function.update_self]
        rfl
    | some w =>
        show (Function.update p.ring.writer none .post (some w)).pending
          = none
        rw [Function.update_of_ne (by simp),
          hb.othersDone (by rw [hmain]; decide) w]
        rfl
  case last => exact hlast
  case flag =>
    show Function.update p.ring.mem.data (slot numSlots t) v _ = endFlag
    rw [Function.update_self, hflag]
  case clean =>
    intro c hc
    show Function.update p.ring.mem.data (slot numSlots t) v c ≠ endFlag
    rw [Function.update_of_ne hc]
    exact hb.clean c
  case start_le => exact Nat.le_trans hloaded hread
  case started => exact Nat.le_refl _
  case stopped =>
    intro hstop
    exact absurd (.inl hstop) hsearch
  case searching =>
    intro _ u hu hu'
    exact absurd hu' (Nat.not_lt.mpr hu)
  case found =>
    intro hstop
    exact absurd hstop hsearch

omit [DecidableEq W] in
/-- Only the main thread at its store is observed. -/
private theorem flagObs_write {p : Process W} {w : Option W} {pc : WritePc}
    (hpc : p.ring.writer w = pc) (hno : ∀ v t, pc ≠ .store v t) :
    flagObs p (.ring (.write w)) = [] := by
  cases w with
  | some w => rfl
  | none =>
      unfold flagObs
      rw [hpc]
      cases pc with
      | store v t => exact absurd rfl (hno v t)
      | _ => rfl

/-- A writer moves on, not to its store and not from it: what it has to
store stays, and nothing is observed. -/
private theorem Before.passes {p : Process W} (hb : Before p)
    {w : Option W} {old new : WritePc} {m : SharedData}
    (hpc : p.ring.writer w = old) (hidle : old ≠ .idle)
    (hold : ∀ v t, old ≠ .store v t) (hnew : ∀ v t, new ≠ .store v t)
    (hpend : new.pending = old.pending) (hdata : m.data = p.ring.mem.data)
    (hwrite : m.nextWriteSlot = p.ring.mem.nextWriteSlot) :
    flagObs p (.ring (.write w)) = [] ∧ Before ⟨{ p.ring with
      mem := m, writer := Function.update p.ring.writer w new }, p.main⟩ := by
  refine ⟨flagObs_write hpc hold, ?_⟩
  apply hb.writer_moves hpc hidle rfl
  · intro v hv
    rw [← hpend]
    exact hv
  · exact fun _ => hpend
  · rfl
  · rfl
  · rfl
  · intro c
    show m.data c ≠ endFlag
    rw [hdata]
    exact hb.clean c
  · intro v t hstore
    show m.nextWriteSlot = t + 1
    rw [hwrite]
    exact hb.ticket_moves w new hnew v t hstore

/-- A call of `Write` the programs make, before the flag is stored. -/
private theorem Before.call_moves {p : Process W} (hb : Before p)
    {w : Option W} {v : Int} (hguard : permits p (.callWrite w v))
    (hpc : p.ring.writer w = .idle) :
    Before ⟨{ p.ring with
      writer := Function.update p.ring.writer w (.loop v .loadWrite) },
      p.main.after (.callWrite w v)⟩ := by
  cases w with
  | none =>
      obtain ⟨hjoined, rfl⟩ := hguard
      have hothers := hb.othersDone (by rw [hjoined]; decide)
      constructor
      case clean => exact hb.clean
      case values =>
        intro w v'
        show (Function.update p.ring.writer none (.loop endFlag .loadWrite)
          (some w)).pending = _ → _
        rw [Function.update_of_ne (by simp)]
        exact hb.values w v'
      case unseen => exact hb.unseen
      case continues => exact hb.continues
      case callsLater =>
        intro hm
        exact absurd rfl hm
      case othersDone =>
        intro _ w
        show Function.update p.ring.writer none (.loop endFlag .loadWrite)
          (some w) = _
        rw [Function.update_of_ne (by simp)]
        exact hothers w
      case flagging =>
        intro _
        show (Function.update p.ring.writer none _ none).pending = _
        rw [Function.update_self]
        rfl
      case ticket =>
        exact hb.ticket_moves none (.loop endFlag .loadWrite) (by simp)
  | some w =>
      obtain ⟨hrunning, hv⟩ := hguard
      constructor
      case clean => exact hb.clean
      case values =>
        intro w' v'
        show (Function.update p.ring.writer (some w) _ (some w')).pending
          = _ → _
        by_cases hw : some w' = some w
        · rw [hw, Function.update_self]
          intro hv'
          exact Option.some.inj hv' ▸ hv
        · rw [Function.update_of_ne hw]
          exact hb.values w' v'
      case unseen => exact hb.unseen
      case continues => exact hb.continues
      case callsLater =>
        intro hm
        show Function.update p.ring.writer (some w) (.loop v .loadWrite) none
          = _
        rw [Function.update_of_ne (by simp)]
        exact hb.callsLater hm
      case othersDone =>
        intro hm
        exact absurd hrunning hm
      case flagging =>
        intro hm
        have hm' : p.main = .destroying := hm
        rw [hrunning] at hm'
        cases hm'
      case ticket =>
        exact hb.ticket_moves (some w) (.loop v .loadWrite) (by simp)

/-- Until the flag is stored, every step keeps it so or stores it. -/
theorem before_moves [Fintype W] {p : Process W} {a : Act (Option W)}
    {s' : State (Option W)} (hb : Before p) (htok : Tokens p.ring)
    (hguard : permits p a) (hm : Moves p.ring a s') :
    (flagObs p (.ring a) = [] ∧ Before ⟨s', p.main.after a⟩)
      ∨ ∃ n L, flagObs p (.ring a) = [n - L]
        ∧ After ⟨s', p.main.after a⟩ n L := by
  cases hm with
  | callWrite hpc => exact .inl ⟨rfl, hb.call_moves hguard hpc⟩
  | spinWrite hpc _ =>
      exact .inl
        (hb.passes hpc (by simp) (by simp) (by simp) rfl rfl rfl)
  | slipWrite hpc _ =>
      exact .inl
        (hb.passes hpc (by simp) (by simp) (by simp) rfl rfl rfl)
  | lockWrite hpc _ =>
      exact .inl
        (hb.passes hpc (by simp) (by simp) (by simp) rfl rfl rfl)
  | @claimWrite w v hpc =>
      refine .inl ⟨flagObs_write hpc (by simp), hb.writer_moves hpc (by simp)
        rfl (fun _ h => h) (fun _ => rfl) rfl rfl rfl hb.clean ?_⟩
      intro v' t' hst
      cases w with
      | none =>
          have hst' : Function.update p.ring.writer none
              (.store v p.ring.mem.nextWriteSlot) none = .store v' t' := hst
          rw [Function.update_self] at hst'
          injection hst' with _ ht
          exact congrArg (· + 1) ht
      | some w =>
          have hidle := hb.main_idle (w := w) (by simp [hpc])
          have hst' : Function.update p.ring.writer (some w)
              (.store v p.ring.mem.nextWriteSlot) none = .store v' t' := hst
          rw [Function.update_of_ne (by simp), hidle] at hst'
          cases hst'
  | @store w v t hpc =>
      cases w with
      | none =>
          refine .inr ⟨t, p.ring.loaded, ?_, hb.flag_stored htok hpc⟩
          simp [flagObs, hpc]
      | some w =>
          refine .inl ⟨rfl, hb.writer_moves hpc (by simp) rfl
            (fun _ h => by cases h) (fun h => by cases h) rfl rfl rfl ?_
            (hb.ticket_moves (some w) .post (by simp))⟩
          intro c
          show Function.update p.ring.mem.data (slot numSlots t) v c ≠ _
          by_cases hc : c = slot numSlots t
          · rw [hc, Function.update_self]
            exact hb.values w v (by rw [hpc]; rfl)
          · rw [Function.update_of_ne hc]
            exact hb.clean c
  | postWrite hpc =>
      exact .inl
        (hb.passes hpc (by simp) (by simp) (by simp) rfl rfl rfl)
  | releaseWrite hpc =>
      exact .inl
        (hb.passes hpc (by simp) (by simp) (by simp) rfl rfl rfl)
  | callRead _ =>
      exact .inl ⟨rfl, hb.reader_moves rfl rfl rfl rfl (by simp)
        hb.continues⟩
  | waitRead _ _ =>
      exact .inl ⟨rfl, hb.reader_moves rfl rfl rfl rfl (by simp)
        hb.continues⟩
  | spinRead _ _ =>
      exact .inl ⟨rfl, hb.reader_moves rfl rfl rfl rfl (by simp)
        hb.continues⟩
  | slipRead _ _ =>
      exact .inl ⟨rfl, hb.reader_moves rfl rfl rfl rfl (by simp)
        hb.continues⟩
  | lockRead _ _ =>
      exact .inl ⟨rfl, hb.reader_moves rfl rfl rfl rfl (by simp)
        hb.continues⟩
  | claimRead _ =>
      exact .inl ⟨rfl, hb.reader_moves rfl rfl rfl rfl (by simp)
        hb.continues⟩
  | load _ =>
      refine .inl ⟨rfl, hb.reader_moves rfl rfl rfl rfl ?_ hb.continues⟩
      intro htest
      injection htest with hv
      exact hb.clean _ hv
  | @test v hpc =>
      have hv : v ≠ endFlag := fun hv => hb.unseen (hv ▸ hpc)
      refine .inl ⟨rfl, hb.reader_moves rfl rfl rfl rfl (by simp) ?_⟩
      show (if v = endFlag then false else p.ring.shouldContinue) = true
      rw [if_neg hv]
      exact hb.continues
  | releaseRead _ =>
      exact .inl ⟨rfl, hb.reader_moves rfl rfl rfl rfl (by simp)
        hb.continues⟩

-- ================================================ after the flag is stored

omit [DecidableEq W] in
/-- Steps that load nothing and end nothing. -/
private theorem After.congr {p p' : Process W} {n L : Nat}
    (ha : After p n L) (hmain : p'.main = p.main)
    (hquiet : ∀ w, (p'.ring.writer w).pending = none)
    (hdata : p'.ring.mem.data = p.ring.mem.data)
    (hwrite : p'.ring.mem.nextWriteSlot = p.ring.mem.nextWriteSlot)
    (hload : p'.ring.loaded = p.ring.loaded)
    (hstopped : p'.ring.shouldContinue = false →
      p'.ring.reader = .idle ∨ ∃ v, p'.ring.reader = .release v)
    (hstop : Stopping p'.ring ↔ Stopping p.ring)
    (hread : Stopping p.ring →
      p'.ring.mem.nextReadSlot = p.ring.mem.nextReadSlot) :
    After p' n L := by
  constructor
  case main => rw [hmain]; exact ha.main
  case quiet => exact hquiet
  case last => rw [hwrite]; exact ha.last
  case flag => rw [hdata]; exact ha.flag
  case clean => rw [hdata]; exact ha.clean
  case start_le => exact ha.start_le
  case started => rw [hload]; exact ha.started
  case stopped => exact hstopped
  case searching => rw [hstop, hload]; exact ha.searching
  case found =>
    rw [hstop]
    intro h
    rw [hread h]
    exact ha.found h

omit [DecidableEq W] in
theorem not_stopping {s : State (Option W)} (hgo : s.shouldContinue = true)
    (hr : s.reader ≠ .test endFlag) : ¬ Stopping s := by
  intro h
  rcases h with h | h
  · rw [hgo] at h
    cases h
  · exact hr h

omit [DecidableEq W] in
theorem loaded_of_ne {s : State (Option W)} (h : ∀ t, s.reader ≠ .load t) :
    s.loaded = s.mem.nextReadSlot := by
  unfold State.loaded
  split
  next t ht => exact absurd ht (h t)
  next => rfl

omit [DecidableEq W] in
/-- The reader inside a call, before its test, still continues. -/
private theorem After.continues {p : Process W} {n L : Nat}
    (ha : After p n L) {pc : ReadPc} (hpc : p.ring.reader = pc)
    (hidle : pc ≠ .idle) (hrel : ∀ v, pc ≠ .release v) :
    p.ring.shouldContinue = true := by
  cases hc : p.ring.shouldContinue with
  | true => rfl
  | false =>
      rcases ha.stopped hc with h | ⟨v, h⟩
      · exact absurd (hpc.symm.trans h) hidle
      · exact absurd (hpc.symm.trans h) (hrel v)

omit [DecidableEq W] in
/-- The reader moves on its way to the next slot and loads nothing. -/
private theorem After.reader_moves {p p' : Process W} {n L : Nat}
    (ha : After p n L) (hno : ∀ t, p.ring.reader ≠ .load t)
    (hload : p'.ring.loaded = p.ring.mem.nextReadSlot)
    (hgo : p.ring.shouldContinue = true)
    (hr : p.ring.reader ≠ .test endFlag)
    (hgo' : p'.ring.shouldContinue = true)
    (hr' : p'.ring.reader ≠ .test endFlag)
    (hw : p'.ring.writer = p.ring.writer) (hmain : p'.main = p.main)
    (hdata : p'.ring.mem.data = p.ring.mem.data)
    (hwrite : p'.ring.mem.nextWriteSlot = p.ring.mem.nextWriteSlot) :
    After p' n L := by
  have hstop := not_stopping hgo hr
  refine ha.congr hmain (by rw [hw]; exact ha.quiet) hdata hwrite ?_ ?_ ?_ ?_
  · rw [hload, loaded_of_ne hno]
  · intro h
    rw [hgo'] at h
    cases h
  · exact iff_of_false (not_stopping hgo' hr') hstop
  · exact fun h => absurd h hstop

omit [DecidableEq W] in
/-- The reader loads a slot: the search goes on, or it ends here. -/
private theorem After.load_moves [Fintype W] {p : Process W} {n L : Nat}
    (ha : After p n L) (htok : Tokens p.ring) {t : Nat}
    (hpc : p.ring.reader = .load t) :
    After ⟨{ p.ring with
      reader := .test (p.ring.mem.data (slot numSlots t)) }, p.main⟩ n L := by
  have hgo := ha.continues hpc (by simp) (by simp)
  have hnext := htok.loading t hpc
  have hload : p.ring.loaded = t := by
    unfold State.loaded
    rw [hpc]
  have hsearch := ha.searching fun h => h.elim
    (fun h => by simp [hgo] at h) (fun h => by simp [hpc] at h)
  have hstart := ha.started
  rw [hload] at hsearch hstart
  constructor
  case main => exact ha.main
  case quiet => exact ha.quiet
  case last => exact ha.last
  case flag => exact ha.flag
  case clean => exact ha.clean
  case start_le => exact ha.start_le
  case started =>
    show L ≤ p.ring.mem.nextReadSlot
    omega
  case stopped =>
    intro h
    rw [show p.ring.shouldContinue = false from h] at hgo
    cases hgo
  case searching =>
    intro hstop u hu hu'
    have hu'' : u < p.ring.mem.nextReadSlot := hu'
    rcases Nat.lt_or_ge u t with hlt | hge
    · exact hsearch u hu hlt
    · obtain rfl : u = t := by omega
      intro hslot
      refine hstop (.inr ?_)
      show ReadPc.test (p.ring.mem.data (slot numSlots u)) = _
      rw [hslot, ha.flag]
  case found =>
    intro hstop
    refine ⟨t, hnext, hstart, ?_, hsearch⟩
    by_contra hslot
    rcases hstop with h | h
    · rw [show p.ring.shouldContinue = false from h] at hgo
      cases hgo
    · injection h with hv
      exact ha.clean _ hslot hv

/-- A writer moves and has nothing left to store. -/
private theorem After.quiet_moves {p : Process W} {n L : Nat}
    (ha : After p n L) {w : Option W} {new : WritePc}
    (hnew : new.pending = none) (w' : Option W) :
    (Function.update p.ring.writer w new w').pending = none := by
  by_cases hw : w' = w
  · rw [hw, Function.update_self]
    exact hnew
  · rw [Function.update_of_ne hw]
    exact ha.quiet w'

/-- Once the flag is stored, every step keeps the search. -/
theorem after_moves [Fintype W] {p : Process W} {a : Act (Option W)}
    {s' : State (Option W)} {n L : Nat} (ha : After p n L)
    (htok : Tokens p.ring) (hguard : permits p a) (hm : Moves p.ring a s') :
    flagObs p (.ring a) = [] ∧ After ⟨s', p.main.after a⟩ n L := by
  -- nobody has anything left to store, so no writer is before its post
  have hdone : ∀ {w pc v}, p.ring.writer w = pc → pc.pending ≠ some v :=
    fun {w pc v} hpc h => by
      have hq := ha.quiet w
      rw [hpc, h] at hq
      cases hq
  cases hm with
  | @callWrite w v hpc =>
      exfalso
      have hmain := ha.main
      cases w with
      | none =>
          rw [hguard.1] at hmain
          cases hmain
      | some w =>
          rw [hguard.1] at hmain
          cases hmain
  | spinWrite hpc _ => exact absurd rfl (hdone hpc)
  | slipWrite hpc _ => exact absurd rfl (hdone hpc)
  | lockWrite hpc _ => exact absurd rfl (hdone hpc)
  | claimWrite hpc => exact absurd rfl (hdone hpc)
  | store hpc => exact absurd rfl (hdone hpc)
  | postWrite hpc =>
      exact ⟨flagObs_write hpc (by simp), ha.congr rfl (ha.quiet_moves rfl)
        rfl rfl rfl ha.stopped Iff.rfl fun _ => rfl⟩
  | releaseWrite hpc =>
      exact ⟨flagObs_write hpc (by simp), ha.congr rfl (ha.quiet_moves rfl)
        rfl rfl rfl ha.stopped Iff.rfl fun _ => rfl⟩
  | callRead hpc =>
      exact ⟨rfl, ha.reader_moves (by simp [hpc]) rfl hguard (by simp [hpc])
        hguard (by simp) rfl rfl rfl rfl⟩
  | waitRead hpc _ =>
      have hgo := ha.continues hpc (by simp) (by simp)
      exact ⟨rfl, ha.reader_moves (by simp [hpc]) rfl hgo (by simp [hpc])
        hgo (by simp) rfl rfl rfl rfl⟩
  | spinRead hpc _ =>
      have hgo := ha.continues hpc (by simp) (by simp)
      exact ⟨rfl, ha.reader_moves (by simp [hpc]) rfl hgo (by simp [hpc])
        hgo (by simp) rfl rfl rfl rfl⟩
  | slipRead hpc _ =>
      have hgo := ha.continues hpc (by simp) (by simp)
      exact ⟨rfl, ha.reader_moves (by simp [hpc]) rfl hgo (by simp [hpc])
        hgo (by simp) rfl rfl rfl rfl⟩
  | lockRead hpc _ =>
      have hgo := ha.continues hpc (by simp) (by simp)
      exact ⟨rfl, ha.reader_moves (by simp [hpc]) rfl hgo (by simp [hpc])
        hgo (by simp) rfl rfl rfl rfl⟩
  | claimRead hpc =>
      have hgo := ha.continues hpc (by simp) (by simp)
      exact ⟨rfl, ha.reader_moves (by simp [hpc]) rfl hgo (by simp [hpc])
        hgo (by simp) rfl rfl rfl rfl⟩
  | load hpc => exact ⟨rfl, ha.load_moves htok hpc⟩
  | @test v hpc =>
      have hgo := ha.continues hpc (by simp) (by simp)
      have hload : p.ring.loaded = _ := loaded_of_ne (by simp [hpc])
      refine ⟨rfl, ha.congr rfl ha.quiet rfl rfl ?_ ?_ ?_ fun _ => rfl⟩
      · exact hload.symm
      · exact fun _ => .inr ⟨v, rfl⟩
      · -- the flag seen is the flag announced
        unfold Stopping
        simp [hpc, hgo]
  | @releaseRead v hpc =>
      have hload : p.ring.loaded = _ := loaded_of_ne (by simp [hpc])
      refine ⟨rfl, ha.congr rfl ha.quiet rfl rfl ?_ ?_ ?_ fun _ => rfl⟩
      · exact hload.symm
      · exact fun _ => .inl rfl
      · unfold Stopping
        simp [hpc]

-- ============================================================ the whole stream

variable [Fintype W]

/-- Before or after the flag, as the log says. -/
structure Streaming (p : Process W) (l : List Nat) : Prop where
  tokens : Tokens p.ring
  half : (l = [] ∧ Before p) ∨ ∃ n L, l = [n - L] ∧ After p n L

theorem streaming_init : Streaming (stream W).init [] where
  tokens := tokens_init
  half := by
    refine .inl ⟨rfl, ?_⟩
    constructor
    case clean =>
      intro c
      show (0 : Int) ≠ endFlag
      decide
    case values => intro w v h; cases h
    case unseen => intro h; cases h
    case continues => rfl
    case callsLater => exact fun _ => rfl
    case othersDone => exact fun _ _ => rfl
    case flagging => intro h; cases h
    case ticket => intro v t h; cases h

theorem streaming_moves {p p' : Process W} {l : List Nat}
    {a : StreamAct W} (h : Streaming p l) (hm : StreamMoves p a p') :
    Streaming p' (l ++ flagObs p a) := by
  obtain ⟨htok, hhalf⟩ := h
  cases hm with
  | @ring a s' hguard hm =>
      refine ⟨tokens_moves htok hm, ?_⟩
      rcases hhalf with ⟨rfl, hb⟩ | ⟨n, L, rfl, ha⟩
      · rcases before_moves hb htok hguard hm with ⟨hobs, hb'⟩ | ⟨n, L, hobs, ha⟩
        · exact .inl ⟨hobs, hb'⟩
        · exact .inr ⟨n, L, hobs, ha⟩
      · obtain ⟨hobs, ha'⟩ := after_moves ha htok hguard hm
        exact .inr ⟨n, L, by rw [hobs, List.append_nil], ha'⟩
  | join hrun hidle =>
      refine ⟨htok, ?_⟩
      rcases hhalf with ⟨rfl, hb⟩ | ⟨n, L, rfl, ha⟩
      · have hmain := hb.callsLater (by rw [hrun]; decide)
        refine .inl ⟨rfl, ?_⟩
        constructor
        case clean => exact hb.clean
        case values => exact hb.values
        case unseen => exact hb.unseen
        case continues => exact hb.continues
        case callsLater => exact fun _ => hmain
        case othersDone => exact fun _ => hidle
        case flagging => intro h; cases h
        case ticket => exact hb.ticket
      · have hdestroying := ha.main
        rw [hrun] at hdestroying
        cases hdestroying

/-- Whenever the reader has been told to stop, the end flag was stored,
once; and the reader has then read everything exactly when fewer than
`NUM_SLOTS` published values were unread at that store. -/
theorem stops_drained_iff {p : Process W} {l : List Nat}
    (h : ((stream W).withLog flagObs).Reachable (p, l))
    (hstop : p.ring.shouldContinue = false) :
    ∃ unread, l = [unread]
      ∧ (p.ring.mem.nextReadSlot = p.ring.mem.nextWriteSlot
        ↔ unread < numSlots) := by
  have hi : Streaming p l := by
    refine h.invariant (I := fun pl => Streaming pl.1 pl.2)
      streaming_init ?_
    rintro ⟨p, l⟩ a ⟨p', l'⟩ - hs hstep
    obtain ⟨hstep', rfl⟩ := System.withLog_step.mp hstep
    exact streaming_moves hs (streamStep_moves hstep')
  obtain ⟨htok, hhalf⟩ := hi
  rcases hhalf with ⟨-, hb⟩ | ⟨n, L, rfl, ha⟩
  · have hgo := hb.continues
    rw [hstop] at hgo
    cases hgo
  · obtain ⟨t, hnext, hfirst⟩ := ha.found (.inl hstop)
    have hlast := ha.last
    have hle := htok.read_le
    refine ⟨n - L, rfl, ?_⟩
    rw [hnext, hlast, ← hfirst.eq_iff ha.start_le (by omega)]
    omega

/-- A thread's call of `Write` and the steps of its body. -/
def writeActs (w : Option Unit) (value : Int) (steps : Nat) :
    List (StreamAct Unit) :=
  .ring (.callWrite w value) :: List.replicate steps (.ring (.write w))

/-- A call of `Read` and the steps of its body. -/
def readActs (steps : Nat) : List (StreamAct Unit) :=
  .ring .callRead :: List.replicate steps (.ring .read)

/-- One value, the end flag, and two `Read`s. -/
def shortStream : List (StreamAct Unit) :=
  writeActs (some ()) 7 7 ++ [.join] ++ writeActs none endFlag 6
    ++ readActs 7 ++ readActs 6

/-- The theorem at the end of that stream. -/
theorem stops_drained_short :
    ∃ p, ((stream Unit).withLog flagObs).run
        ((stream Unit).withLog flagObs).init shortStream = some (p, [1])
      ∧ p.ring.mem.nextReadSlot = p.ring.mem.nextWriteSlot := by
  obtain ⟨⟨p, l⟩, hrun, hp⟩ := Option.map_eq_some_iff.mp
    (by decide : (((stream Unit).withLog flagObs).run
        ((stream Unit).withLog flagObs).init shortStream).map
        (fun pl => (pl.2, pl.1.ring.shouldContinue)) = some ([1], false))
  obtain ⟨rfl, hstop⟩ := Prod.ext_iff.mp hp
  obtain ⟨unread, hl, hiff⟩ :=
    stops_drained_iff (System.reachable_iff_run.mpr ⟨_, hrun⟩) hstop
  obtain rfl : 1 = unread := by injection hl
  exact ⟨p, hrun, hiff.mpr (by decide)⟩

/-- Fifty values, one whole lap, and then the end flag: it lands in the
slot of the first value. -/
def lappedStream : List (StreamAct Unit) :=
  writeActs (some ()) 7 7
    ++ (List.replicate 49 (writeActs (some ()) 7 6)).flatten ++ [.join]
    ++ writeActs none endFlag 7 ++ readActs 6

/-- There the first `Read` finds the flag, with all fifty values
unread. -/
theorem stops_early :
    ¬ ∀ p, (stream Unit).Reachable p → p.ring.shouldContinue = false →
      p.ring.mem.nextReadSlot = p.ring.mem.nextWriteSlot := by
  intro hall
  obtain ⟨p, hrun, hp⟩ := Option.map_eq_some_iff.mp
    (by decide +kernel : ((stream Unit).run (stream Unit).init
        lappedStream).map (fun p => (p.ring.shouldContinue,
          p.ring.mem.nextReadSlot, p.ring.mem.nextWriteSlot))
      = some (false, 1, 51))
  obtain ⟨hstop, hcounters⟩ := Prod.ext_iff.mp hp
  obtain ⟨hread, hwrite⟩ := Prod.ext_iff.mp hcounters
  have heq := hall p (System.reachable_iff_run.mpr ⟨_, hrun⟩) hstop
  rw [show p.ring.mem.nextReadSlot = 1 from hread,
    show p.ring.mem.nextWriteSlot = 51 from hwrite] at heq
  omega

end DailyStudy.Covering
