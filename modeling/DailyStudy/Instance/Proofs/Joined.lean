/-
What the singleton's `main` gets from joining its threads before it calls
`deleteInstance`.

# The deletions

`deleteInstance` has no lock, and needs none while it is alone: when it is
called only where nobody is in a call, and `GetInstance` only where nobody
deletes (`Joined`), the thread in `deleteInstance` is the only one in a
call (`Alone`). Then no step is disturbed and no object is lost, so that
beside `Safe` every object that was allocated is deleted, or pointed to,
or on its way to the pointer (`joined_safe`).

# The callers

Under the lock the pointer goes from null to an object only, and back by
`deleteInstance` only. So whatever is called when, from one reset to the
next all the callers that get an object get the same (`epochs`,
`callers_agree`).
-/
import DailyStudy.Instance.Proofs.Singleton

namespace DailyStudy.Instance

open Interleave

variable {T : Type}

-- =============================================================== the condition

/-- `deleteInstance` is called where nobody is in a call, `GetInstance`
where nobody deletes. -/
def Joined (s : State T) : Act T → Prop
  | .getInstance _ => ∀ u, (s.pc u).deleting = false
  | .deleteInstance _ => ∀ u, s.pc u = .idle
  | .move _ _ => True

instance decidableJoined [Fintype T] (s : State T) :
    ∀ a, Decidable (Joined s a)
  | .getInstance _ => inferInstanceAs (Decidable (∀ _, _ = _))
  | .deleteInstance _ => inferInstanceAs (Decidable (∀ _, _ = _))
  | .move _ _ => isTrue trivial

/-- The thread that deletes is the only one in a call, and it resets the
pointer to what it deleted. -/
structure Alone (s : State T) : Prop where
  others : ∀ t, (s.pc t).deleting = true → ∀ u, u ≠ t → s.pc u = .idle
  operand : ∀ t operand, s.pc t = .reset operand →
    operand = s.statics.singleInstance

variable [DecidableEq T]

theorem alone_init : Alone (singleton T).init where
  others _ h := by cases h
  operand _ _ h := by cases h

omit [DecidableEq T] in
/-- While a thread is in a call nobody else deletes. -/
private theorem Alone.not_deleting {s : State T} (h : Alone s) {t u : T}
    (hpc : s.pc t ≠ .idle) (hu : u ≠ t) : (s.pc u).deleting = false := by
  cases hdel : (s.pc u).deleting with
  | false => rfl
  | true => exact absurd (h.others u hdel t hu.symm) hpc

/-- A thread in a call moves on. -/
private theorem Alone.move {s s' : State T} (h : Alone s) {t : T}
    {old new : Pc} (hpc : s.pc t = old) (hin : old ≠ .idle)
    (hpc' : s'.pc = Function.update s.pc t new)
    (hdel : new.deleting = true → old.deleting = true)
    (hoperand : ∀ operand, new = .reset operand →
      operand = s'.statics.singleInstance) : Alone s' := by
  have hother : ∀ u, u ≠ t → (s.pc u).deleting = false := fun u hu =>
    h.not_deleting (by rw [hpc]; exact hin) hu
  refine ⟨?_, ?_⟩
  · intro u hu v hv
    rw [hpc'] at hu ⊢
    rcases view_cases Pc.deleting hu with ⟨rfl, hnew⟩ | ⟨hut, hold⟩
    · rw [Function.update_of_ne hv]
      exact h.others u (by rw [hpc]; exact hdel hnew) v hv
    · rw [hother u hut] at hold
      cases hold
  · intro u operand hu
    rw [hpc'] at hu
    rcases view_cases id hu with ⟨-, hnew⟩ | ⟨hut, hold⟩
    · exact hoperand operand hnew
    · have hfalse := hother u hut
      rw [show s.pc u = .reset operand from hold] at hfalse
      cases hfalse

theorem alone_moves {s s' : State T} {a : Act T} (h : Alone s)
    (ha : Joined s a) (hm : Moves s a s') : Alone s' := by
  cases hm with
  | @getInstance t hpc =>
      refine ⟨?_, ?_⟩
      · intro u hu
        rcases view_cases Pc.deleting hu with ⟨-, hnew⟩ | ⟨-, hold⟩
        · cases hnew
        · rw [ha u] at hold
          cases hold
      · intro u operand hu
        rcases view_cases id hu with ⟨-, hnew⟩ | ⟨-, hold⟩
        · cases hnew
        · exact h.operand u operand hold
  | @deleteInstance t hpc =>
      refine ⟨?_, ?_⟩
      · intro u hu v hv
        rcases view_cases Pc.deleting hu with ⟨rfl, -⟩ | ⟨-, hold⟩
        · show Function.update s.pc u .check v = .idle
          rw [Function.update_of_ne hv]
          exact ha v
        · rw [ha u] at hold
          cases hold
      · intro u operand hu
        rcases view_cases id hu with ⟨-, hnew⟩ | ⟨-, hold⟩
        · cases hnew
        · exact h.operand u operand hold
  | lock hpc _ => exact h.move hpc nofun rfl nofun nofun
  | absent hpc _ => exact h.move hpc nofun rfl nofun nofun
  | present hpc _ => exact h.move hpc nofun rfl nofun nofun
  | alloc hpc => exact h.move hpc nofun rfl nofun nofun
  | allocFails hpc => exact h.move hpc nofun rfl nofun nofun
  | assign hpc => exact h.move hpc nofun rfl nofun nofun
  | load hpc => exact h.move hpc nofun rfl nofun nofun
  | unlock hpc => exact h.move hpc nofun rfl nofun nofun
  | checkNull hpc _ => exact h.move hpc nofun rfl nofun nofun
  | check hpc _ => exact h.move hpc nofun rfl (fun _ => rfl) nofun
  | @deleteNull t _ hpc hnull =>
      refine h.move hpc nofun rfl (fun _ => rfl) ?_
      intro operand hnew
      cases hnew
      exact hnull.symm
  | @delete t _ x hpc hptr =>
      refine h.move hpc nofun rfl (fun _ => rfl) ?_
      intro operand hnew
      cases hnew
      exact hptr.symm
  | reset hpc => exact h.move hpc nofun rfl nofun nofun

omit [DecidableEq T] in
/-- Alone, a `delete` is undisturbed, and nothing is lost to disturb an
allocation. -/
theorem Alone.undisturbed {s : State T} (h : Alone s) (a : Act T) :
    Undisturbed (s, []) a := by
  cases a with
  | getInstance t => trivial
  | deleteInstance t => trivial
  | move t fails =>
      refine ⟨?_, fun _ _ => rfl⟩
      intro hpc u hu
      have hut : u ≠ t := by
        rintro rfl
        rw [hpc] at hu
        cases hu
      have hidle := h.others t (by rw [hpc]; rfl) u hut
      rw [hu] at hidle
      cases hidle

omit [DecidableEq T] in
/-- Alone, a reset overwrites what was deleted. -/
theorem Alone.losses {s : State T} (h : Alone s) (hl : Ledger s [])
    (a : Act T) : losses s a = [] := by
  cases a with
  | getInstance t => rfl
  | deleteInstance t => rfl
  | move t fails =>
      cases hpc : s.pc t with
      | reset operand =>
          refine List.eq_nil_iff_forall_not_mem.mpr fun x hx => ?_
          obtain ⟨hptr, hnew⟩ := (mem_losses_reset hpc fails).mp hx
          refine hnew (hl.gone t x ?_)
          rw [hpc]
          exact (h.operand t operand hpc).trans hptr
      | _ => simp only [Instance.losses, hpc]

-- =============================================================== the deletions

/-- What runs of joined calls keep. -/
structure Tidy (s : State T) : Prop where
  creation : Creation s
  ledger : Ledger s []
  alone : Alone s

theorem tidy_moves {s s' : State T} {a : Act T} (h : Tidy s)
    (ha : Joined s a) (hm : Moves s a s') : Tidy s' := by
  refine ⟨creation_moves h.creation hm, ?_, alone_moves h.alone ha hm⟩
  have hl := ledger_moves h.creation h.ledger (h.alone.undisturbed a) hm
  rw [h.alone.losses h.ledger a] at hl
  exact hl

/-- In every state of a run of joined calls the singleton is safe, and an
object that was allocated and not deleted is pointed to or on its way to
the pointer; so where nobody is in a call, the live object is the one
pointed to, if any. -/
theorem joined_safe {s : State T}
    (hs : (singleton T).ReachableVia Joined s) :
    Safe s
      ∧ (∀ x, s.statics.heap.Live x → s.statics.singleInstance = some x
        ∨ ∃ t, (s.pc t).hands = some x)
      ∧ ((∀ t, s.pc t = .idle) → ∀ x, s.statics.heap.Live x
        ↔ s.statics.singleInstance = some x) := by
  have htidy : Tidy s := by
    refine System.ReachableVia.invariant ?_ ?_ hs
    · exact ⟨creation_init, ledger_init, alone_init⟩
    · exact fun _ h ha hstep => tidy_moves h ha (step_moves hstep)
  have hlocated : ∀ x, s.statics.heap.Live x →
      s.statics.singleInstance = some x
        ∨ ∃ t, (s.pc t).hands = some x := by
    intro x hx
    rcases htidy.ledger.located x hx with hptr | hhands | hlost
    · exact .inl hptr
    · exact .inr hhands
    · cases hlost
  refine ⟨htidy.ledger.safe, hlocated, ?_⟩
  intro hidle x
  refine ⟨?_, ?_⟩
  · intro hx
    rcases hlocated x hx with hptr | ⟨t, ht⟩
    · exact hptr
    · rw [hidle t] at ht
      cases ht
  · intro hptr
    obtain ⟨hlt, hgone⟩ := htidy.ledger.pointed x hptr
    refine ⟨hlt, fun hdel => ?_⟩
    obtain ⟨t, ht⟩ := hgone hdel
    rw [hidle t] at ht
    cases ht

/-- Two threads get the object, and then one of them deletes it. -/
def joinedMain : List (Act Bool) :=
  create false
    ++ [.getInstance true, .move true false, .move true false,
      .move true false, .move true false,
      .deleteInstance false, .move false false, .move false false,
      .move false false]

/-- The theorem at the end of that run, where nothing is left. -/
theorem joined_safe_main :
    ∃ s, (singleton Bool).run (singleton Bool).init joinedMain = some s
      ∧ s.statics.singleInstance = none
      ∧ (Safe s
        ∧ (∀ x, s.statics.heap.Live x → s.statics.singleInstance = some x
          ∨ ∃ t, (s.pc t).hands = some x)
        ∧ ((∀ t, s.pc t = .idle) → ∀ x, s.statics.heap.Live x
          ↔ s.statics.singleInstance = some x)) := by
  have hend : ((singleton Bool).run (singleton Bool).init joinedMain).map
      (fun s => s.statics.singleInstance) = some none := by decide
  obtain ⟨s, hrun, hptr⟩ := Option.map_eq_some_iff.mp hend
  have hmeets : (singleton Bool).Meets Joined (singleton Bool).init
      joinedMain := by decide
  exact ⟨s, hrun, hptr,
    joined_safe (System.ReachableVia.init.run hmeets hrun)⟩

-- ================================================================= the callers

/-- What the callers see: an object, or that the pointer is reset. -/
inductive Answer
  | got (x : Nat)
  | dropped
  deriving DecidableEq, Repr

/-- The next step of a thread, to the callers. -/
def answers (s : State T) : Act T → List Answer
  | .move t _ =>
      match s.pc t, s.statics.singleInstance with
      | .load, some x => [.got x]
      | .reset _, _ => [.dropped]
      | _, _ => []
  | _ => []

/-- From one drop to the next, who gets an object gets the same. -/
def epochs : System (Option Nat) Answer where
  init := none
  step
    | none, .got x => some (some x)
    | some y, .got x => if x = y then some (some y) else none
    | _, .dropped => some none

/-- The object of the epoch, if somebody got it, is the one pointed to. -/
structure Epoch (s : State T) (current : Option Nat) : Prop where
  creation : Creation s
  current : ∀ x, current = some x → s.statics.singleInstance = some x

omit [DecidableEq T] in
/-- Steps that are neither a load nor a reset are no news. -/
theorem answers_of_ne {s : State T} {t : T} {pc : Pc} {fails : Bool}
    (hpc : s.pc t = pc) (hload : pc ≠ .load)
    (hreset : ∀ operand, pc ≠ .reset operand) :
    answers s (.move t fails) = [] := by
  subst hpc
  cases hpc : s.pc t with
  | load => exact absurd hpc hload
  | reset operand => exact absurd hpc (hreset operand)
  | _ => simp only [answers, hpc]

/-- Every step keeps the object of the epoch, or ends it. -/
theorem epoch_moves {s s' : State T} {a : Act T} {current : Option Nat}
    (h : Epoch s current) (hm : Moves s a s') :
    ∃ current', epochs.run current (answers s a) = some current'
      ∧ Epoch s' current' := by
  have hc := creation_moves h.creation hm
  have hquiet : answers s a = [] →
      s'.statics.singleInstance = s.statics.singleInstance →
      ∃ current', epochs.run current (answers s a) = some current'
        ∧ Epoch s' current' := by
    intro hnil hptr
    rw [hnil]
    refine ⟨current, rfl, hc, ?_⟩
    rw [hptr]
    exact h.current
  cases hm with
  | getInstance _ => exact hquiet rfl rfl
  | deleteInstance _ => exact hquiet rfl rfl
  | lock hpc _ => exact hquiet (answers_of_ne hpc nofun nofun) rfl
  | absent hpc _ => exact hquiet (answers_of_ne hpc nofun nofun) rfl
  | present hpc _ => exact hquiet (answers_of_ne hpc nofun nofun) rfl
  | alloc hpc => exact hquiet (answers_of_ne hpc nofun nofun) rfl
  | allocFails hpc => exact hquiet (answers_of_ne hpc nofun nofun) rfl
  | unlock hpc => exact hquiet (answers_of_ne hpc nofun nofun) rfl
  | checkNull hpc _ => exact hquiet (answers_of_ne hpc nofun nofun) rfl
  | check hpc _ => exact hquiet (answers_of_ne hpc nofun nofun) rfl
  | deleteNull hpc _ => exact hquiet (answers_of_ne hpc nofun nofun) rfl
  | delete hpc _ => exact hquiet (answers_of_ne hpc nofun nofun) rfl
  | @assign t fails value hpc =>
      -- the pointer was null, so nobody has an object of this epoch
      have hnull := h.creation.null t (by rw [hpc]; rfl)
      rw [answers_of_ne hpc nofun nofun]
      refine ⟨current, rfl, hc, ?_⟩
      intro x hx
      have hptr := h.current x hx
      rw [hnull] at hptr
      cases hptr
  | @load t fails hpc =>
      rcases Option.eq_none_or_eq_some s.statics.singleInstance with
        hptr | ⟨x, hptr⟩
      · refine hquiet ?_ rfl
        simp only [answers, hpc, hptr]
      · have hops : answers s (.move t fails) = [.got x] := by
          simp only [answers, hpc, hptr]
        rw [hops]
        refine ⟨some x, ?_, hc, fun y hy => hptr.trans hy⟩
        cases hcur : current with
        | none => rfl
        | some y =>
            have hy := (h.current y hcur).symm.trans hptr
            simp [System.run, epochs, Option.some.inj hy]
  | @reset t fails operand hpc =>
      have hops : answers s (.move t fails) = [.dropped] := by
        cases hptr : s.statics.singleInstance with
        | none => simp only [answers, hpc, hptr]
        | some x => simp only [answers, hpc, hptr]
      rw [hops]
      refine ⟨none, ?_, hc, fun x hx => by cases hx⟩
      cases current with
      | none => rfl
      | some y => rfl

theorem epoch_init : Epoch (singleton T).init none where
  creation := creation_init
  current _ h := by cases h

/-- The forward simulation of the epochs by the program. -/
theorem epoch_simulation :
    System.Simulation (singleton T) epochs answers Epoch where
  init := epoch_init
  step h hstep := epoch_moves h (step_moves hstep)

/-- After somebody got `x`, whoever gets an object before the next drop
gets `x`. -/
theorem epochs_law {between after : List Answer} {x y : Nat}
    {current : Option Nat}
    (hrun : epochs.run (some x) (between ++ .got y :: after) = some current)
    (hbetween : .dropped ∉ between) : x = y := by
  induction between with
  | nil =>
      obtain ⟨c, hstep, -⟩ := System.run_cons_eq_some.mp hrun
      by_cases hxy : y = x
      · exact hxy.symm
      · simp [epochs, hxy] at hstep
  | cons op between ih =>
      obtain ⟨c, hstep, hrest⟩ := System.run_cons_eq_some.mp hrun
      cases op with
      | dropped => exact absurd List.mem_cons_self hbetween
      | got z =>
          by_cases hz : z = x
          · simp only [epochs, if_pos hz, Option.some.injEq] at hstep
            subst hstep
            exact ih hrest fun h => hbetween (List.mem_cons_of_mem _ h)
          · simp [epochs, hz] at hstep

/-- In every interleaving of calls of both functions: between two resets
of the pointer all callers of `GetInstance` that get an object get the
same one. -/
theorem callers_agree {acts : List (Act T)} {s : State T}
    (hrun : (singleton T).run (singleton T).init acts = some s)
    {before between after : List Answer} {x y : Nat}
    (hanswers : (singleton T).trace answers (singleton T).init acts
      = before ++ .got x :: between ++ .got y :: after)
    (hbetween : .dropped ∉ between) : x = y := by
  obtain ⟨current, hepochs, -⟩ := epoch_simulation.run epoch_init hrun
  rw [hanswers, List.append_assoc] at hepochs
  obtain ⟨c, -, hgot⟩ := System.run_append_eq_some.mp hepochs
  obtain ⟨c', hstep, hrest⟩ := System.run_cons_eq_some.mp hgot
  have hc' : c' = some x := by
    cases c with
    | none => exact (Option.some.inj hstep).symm
    | some z =>
        by_cases hz : x = z
        · simp only [epochs, if_pos hz, Option.some.injEq] at hstep
          rw [← hstep, hz]
        · simp [epochs, hz] at hstep
  rw [hc'] at hrest
  exact epochs_law hrest hbetween

/-- The theorem at the run of `joinedMain`, where both threads get an
object before it is deleted. -/
theorem callers_agree_main :
    ∃ x y, (singleton Bool).trace answers (singleton Bool).init joinedMain
        = [] ++ .got x :: [] ++ .got y :: [.dropped]
      ∧ x = y := by
  have hanswers : (singleton Bool).trace answers (singleton Bool).init
      joinedMain = [] ++ .got 0 :: [] ++ .got 0 :: [.dropped] := by decide
  obtain ⟨s, hrun⟩ := Option.isSome_iff_exists.mp
    (by decide : ((singleton Bool).run (singleton Bool).init
      joinedMain).isSome = true)
  exact ⟨0, 0, hanswers, callers_agree hrun hanswers List.not_mem_nil⟩

end DailyStudy.Instance
