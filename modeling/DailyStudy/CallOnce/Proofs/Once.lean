/-
The string of co1.cc is a once cell, in every interleaving: it is assigned
once, and every copy is of what was assigned (`call_once_refines_once`).

# Two guards

Every call passes the guard of the static and then the flag. So while the
static is being constructed nobody has come to the flag, and while the
string is being assigned everybody has left the static's guard behind
(`Cell.ordered`): the two sections exclude each other as well as
themselves (`Cell.alone`), and between them the string is empty.
-/
import DailyStudy.CallOnce.Basic

namespace DailyStudy.CallOnce

open Interleave

variable {T : Type} [DecidableEq T]

-- ================================================================ observations

/-- The operation of the cell that the next step of a thread is: the
lambda assigns, or a caller copies. -/
def onceOps (s : State T) : Act T → List (OnceOp (Option String))
  | .call _ => []
  | .move t =>
      match s.thread t with
      | ⟨[], .assign⟩ => [.build (s.value.map fun _ => helloWorld)]
      | ⟨[], .copy⟩ => [.get s.value]
      | _ => []

-- ================================================================ the relation

/-- The thread constructs the string. -/
def Thread.constructing (th : Thread) : Bool :=
  match th.pc with
  | .construct | .release => true
  | _ => false

/-- The thread runs the lambda. -/
def Thread.assigning (th : Thread) : Bool :=
  match th.pc with
  | .assign | .returnOnce => true
  | _ => false

/-- What the guards, the string and the cell hold while a thread is at a
point. -/
def Agrees (s : State T) (cell : Option (Option String)) : Pc → Prop
  | .idle | .enterValue => True
  | .construct => s.value = none ∧ cell = none
  | .release => s.value = some "" ∧ cell = none
  | .callOnce => s.guard = .done
  | .assign => s.value = some "" ∧ cell = none
  | .returnOnce =>
      s.value = some helloWorld ∧ cell = some (some helloWorld)
  | .copy => s.flag = .done

/-- The string as a once cell. -/
structure Cell (s : State T) (cell : Option (Option String)) : Prop where
  constructs : Owns Thread.constructing s.guard.owner s.thread
  assigns : Owns Thread.assigning s.flag.owner s.thread
  ordered : s.flag ≠ .fresh → s.guard = .done
  threads : ∀ t, Agrees s cell (s.thread t).pc
  before : s.guard = .fresh → s.value = none ∧ cell = none
  between : s.guard = .done → s.flag = .fresh →
    s.value = some "" ∧ cell = none
  after : s.flag = .done →
    s.value = some helloWorld ∧ cell = some (some helloWorld)
  made : cell = none ∨ cell = some (some helloWorld)

variable {s s' : State T} {cell : Option (Option String)} {t : T}

theorem cell_init : Cell (program T).init none where
  constructs := owns_const rfl
  assigns := owns_const rfl
  ordered h := absurd rfl h
  threads _ := trivial
  before _ := ⟨rfl, rfl⟩
  between h := by cases h
  after h := by cases h
  made := .inl rfl

omit [DecidableEq T] in
/-- The thread inside the static's guard is its owner. -/
private theorem Cell.guard_running (h : Cell s cell)
    (hin : (s.thread t).constructing = true) : s.guard = .running t :=
  Guard.owner_eq_some.mp ((h.constructs t).mp hin)

omit [DecidableEq T] in
/-- The thread inside the flag is its owner. -/
private theorem Cell.flag_running (h : Cell s cell)
    (hin : (s.thread t).assigning = true) : s.flag = .running t :=
  Guard.owner_eq_some.mp ((h.assigns t).mp hin)

omit [DecidableEq T] in
/-- While the string is constructed the flag is untouched. -/
private theorem Cell.flag_fresh (h : Cell s cell)
    (hin : (s.thread t).constructing = true) : s.flag = .fresh := by
  by_contra hflag
  cases (h.guard_running hin).symm.trans (h.ordered hflag)

omit [DecidableEq T] in
/-- While the lambda runs the string's guard is passed. -/
private theorem Cell.guard_done (h : Cell s cell)
    (hin : (s.thread t).assigning = true) : s.guard = .done := by
  apply h.ordered
  rw [h.flag_running hin]
  intro hfresh
  cases hfresh

omit [DecidableEq T] in
/-- Whoever initializes is alone with it: nobody else constructs or
assigns. -/
theorem Cell.alone (h : Cell s cell) {u : T}
    (hin : ((s.thread t).constructing || (s.thread t).assigning) = true)
    (hu : u ≠ t) :
    (s.thread u).constructing = false ∧ (s.thread u).assigning = false := by
  rcases Bool.or_eq_true_iff.mp hin with hc | ha
  · refine ⟨?_, ?_⟩
    · exact Bool.eq_false_iff.mpr fun hc' => hu (h.constructs.unique hc' hc)
    · have hfree := h.assigns
      rw [h.flag_fresh hc] at hfree
      exact hfree.free u
  · refine ⟨?_, ?_⟩
    · have hfree := h.constructs
      rw [h.guard_done ha] at hfree
      exact hfree.free u
    · exact Bool.eq_false_iff.mpr fun ha' => hu (h.assigns.unique ha' ha)

omit [DecidableEq T] in
/-- Outside of both sections a point speaks of the guards only. -/
private theorem Agrees.outside {th : Thread} {s' : State T}
    {cell' : Option (Option String)} (h : Agrees s cell th.pc)
    (hc : th.constructing = false) (ha : th.assigning = false)
    (hguard : s'.guard = s.guard) (hflag : s'.flag = s.flag) :
    Agrees s' cell' th.pc := by
  obtain ⟨texts, pc⟩ := th
  cases pc with
  | idle => trivial
  | enterValue => trivial
  | construct => cases hc
  | release => cases hc
  | callOnce => exact hguard.trans h
  | assign => cases ha
  | returnOnce => cases ha
  | copy => exact hflag.trans h

omit [DecidableEq T] in
/-- A guard that moves on invalidates no point. -/
private theorem Agrees.later {s' : State T} {pc : Pc}
    (h : Agrees s cell pc) (hvalue : s'.value = s.value)
    (hguard : s.guard = .done → s'.guard = .done)
    (hflag : s.flag = .done → s'.flag = .done) : Agrees s' cell pc := by
  cases pc with
  | idle => trivial
  | enterValue => trivial
  | construct => exact ⟨hvalue.trans h.1, h.2⟩
  | release => exact ⟨hvalue.trans h.1, h.2⟩
  | callOnce => exact hguard h
  | assign => exact ⟨hvalue.trans h.1, h.2⟩
  | returnOnce => exact ⟨hvalue.trans h.1, h.2⟩
  | copy => exact hflag h

/-- The points after a step that leaves the string alone. -/
private theorem Cell.threads_later (h : Cell s cell) {s' : State T}
    {texts : List String} {pc : Pc}
    (hthread : s'.thread = Function.update s.thread t ⟨texts, pc⟩)
    (hpc : Agrees s' cell pc) (hvalue : s'.value = s.value)
    (hguard : s.guard = .done → s'.guard = .done)
    (hflag : s.flag = .done → s'.flag = .done) (u : T) :
    Agrees s' cell (s'.thread u).pc := by
  rw [hthread]
  by_cases hu : u = t
  · rw [hu, Function.update_self]
    exact hpc
  · rw [Function.update_of_ne hu]
    exact (h.threads u).later hvalue hguard hflag

/-- The points after a step of the thread that initializes. -/
private theorem Cell.threads_alone (h : Cell s cell) {s' : State T}
    {cell' : Option (Option String)} {texts : List String} {pc : Pc}
    (hin : ((s.thread t).constructing || (s.thread t).assigning) = true)
    (hthread : s'.thread = Function.update s.thread t ⟨texts, pc⟩)
    (hpc : Agrees s' cell' pc) (hguard : s'.guard = s.guard)
    (hflag : s'.flag = s.flag) (u : T) :
    Agrees s' cell' (s'.thread u).pc := by
  rw [hthread]
  by_cases hu : u = t
  · rw [hu, Function.update_self]
    exact hpc
  · rw [Function.update_of_ne hu]
    obtain ⟨hc, ha⟩ := h.alone hin hu
    exact (h.threads u).outside hc ha hguard hflag

-- =================================================================== the steps

/-- Every step of the threads is no step of the cell, or the one that
`onceOps` names. -/
theorem cell_moves {a : Act T} (h : Cell s cell) (hm : Moves s a s') :
    ∃ cell', (once (Option String)).run cell (onceOps s a) = some cell'
      ∧ Cell s' cell' := by
  cases hm with
  | @call t hpc =>
      refine ⟨cell, rfl, h.constructs.stay hpc rfl, h.assigns.stay hpc rfl,
        h.ordered, ?_, h.before, h.between, h.after, h.made⟩
      exact h.threads_later rfl trivial rfl id id
  | @print t text texts pc hpc =>
      have hops : onceOps s (.move t) = [] := by simp [onceOps, hpc]
      rw [hops]
      refine ⟨cell, rfl, h.constructs.stay hpc rfl, h.assigns.stay hpc rfl,
        h.ordered, ?_, h.before, h.between, h.after, h.made⟩
      have hagrees := h.threads t
      rw [hpc] at hagrees
      exact h.threads_later rfl (hagrees.later rfl id id) rfl id id
  | @start t hpc hguard =>
      have hops : onceOps s (.move t) = [] := by simp [onceOps, hpc]
      rw [hops]
      have hfree := h.constructs
      rw [hguard] at hfree
      have hflag : s.flag = .fresh := by
        by_contra hflag
        cases hguard.symm.trans (h.ordered hflag)
      refine ⟨cell, rfl, hfree.acquire rfl rfl, h.assigns.stay hpc rfl, ?_, ?_,
        ?_, ?_, h.after, h.made⟩
      · exact fun hne => absurd hflag hne
      · refine h.threads_later rfl (h.before hguard) rfl ?_ id
        intro hdone
        cases hguard.symm.trans hdone
      · intro hfresh
        cases hfresh
      · intro hdone
        cases hdone
  | @pass t hpc hguard =>
      have hops : onceOps s (.move t) = [] := by simp [onceOps, hpc]
      rw [hops]
      have howns := h.constructs
      rw [hguard] at howns
      refine ⟨cell, rfl, howns.stay hpc rfl, h.assigns.stay hpc rfl,
        fun _ => rfl, ?_, ?_, fun _ => h.between hguard, h.after,
        h.made⟩
      · exact h.threads_later rfl rfl rfl (fun _ => rfl) id
      · intro hfresh
        cases hfresh
  | @construct t hpc =>
      have hin : (s.thread t).constructing = true := by rw [hpc]; rfl
      have hagrees := h.threads t
      rw [hpc] at hagrees
      have hops : onceOps s (.move t) = [] := by simp [onceOps, hpc]
      rw [hops]
      refine ⟨cell, rfl, h.constructs.stay hpc rfl, h.assigns.stay hpc rfl,
        h.ordered, ?_, ?_, ?_, ?_, h.made⟩
      · refine h.threads_alone ?_ rfl ⟨rfl, hagrees.2⟩ rfl rfl
        rw [hin, Bool.true_or]
      · intro hfresh
        cases (h.guard_running hin).symm.trans hfresh
      · exact fun _ _ => ⟨rfl, hagrees.2⟩
      · intro hdone
        cases (h.flag_fresh hin).symm.trans hdone
  | @release t hpc =>
      have hin : (s.thread t).constructing = true := by rw [hpc]; rfl
      have hagrees := h.threads t
      rw [hpc] at hagrees
      have hops : onceOps s (.move t) = [] := by simp [onceOps, hpc]
      rw [hops]
      refine ⟨cell, rfl, h.constructs.release hpc rfl rfl,
        h.assigns.stay hpc rfl, fun _ => rfl, ?_, ?_, fun _ _ => hagrees,
        h.after, h.made⟩
      · exact h.threads_later rfl rfl rfl (fun _ => rfl) id
      · intro hfresh
        cases hfresh
  | @startOnce t hpc hflag =>
      have hagrees : s.guard = .done := by
        have hagrees := h.threads t
        rw [hpc] at hagrees
        exact hagrees
      have hops : onceOps s (.move t) = [] := by simp [onceOps, hpc]
      rw [hops]
      have hfree := h.assigns
      rw [hflag] at hfree
      refine ⟨cell, rfl, h.constructs.stay hpc rfl, hfree.acquire rfl rfl,
        fun _ => hagrees, ?_, h.before, ?_, ?_, h.made⟩
      · refine h.threads_later rfl (h.between hagrees hflag) rfl id ?_
        intro hdone
        cases hflag.symm.trans hdone
      · intro _ hfresh
        cases hfresh
      · intro hdone
        cases hdone
  | @passOnce t hpc hflag =>
      have hops : onceOps s (.move t) = [] := by simp [onceOps, hpc]
      rw [hops]
      have howns := h.assigns
      rw [hflag] at howns
      refine ⟨cell, rfl, h.constructs.stay hpc rfl, howns.stay hpc rfl, ?_,
        ?_, h.before, ?_, fun _ => h.after hflag, h.made⟩
      · intro _
        apply h.ordered
        rw [hflag]
        intro hfresh
        cases hfresh
      · exact h.threads_later rfl rfl rfl id fun _ => rfl
      · intro _ hfresh
        cases hfresh
  | @assign t hpc =>
      have hin : (s.thread t).assigning = true := by rw [hpc]; rfl
      obtain ⟨hvalue, hcell⟩ : s.value = some "" ∧ cell = none := by
        have hagrees := h.threads t
        rw [hpc] at hagrees
        exact hagrees
      have hnew : (s.value.map fun _ => helloWorld) = some helloWorld := by
        rw [hvalue, Option.map_some]
      have hops : onceOps s (.move t) = [.build (some helloWorld)] := by
        simp only [onceOps, hpc, hnew]
      rw [hops, hcell]
      refine ⟨some (some helloWorld), once_build, h.constructs.stay hpc rfl,
        h.assigns.stay hpc rfl, h.ordered, ?_, ?_, ?_, fun _ => ⟨hnew, rfl⟩,
        .inr rfl⟩
      · refine h.threads_alone ?_ rfl ⟨hnew, rfl⟩ rfl rfl
        rw [hin, Bool.or_true]
      · intro hfresh
        cases (h.guard_done hin).symm.trans hfresh
      · intro _ hfresh
        cases (h.flag_running hin).symm.trans hfresh
  | @returnOnce t hpc =>
      have hin : (s.thread t).assigning = true := by rw [hpc]; rfl
      have hagrees := h.threads t
      rw [hpc] at hagrees
      have hops : onceOps s (.move t) = [] := by simp [onceOps, hpc]
      rw [hops]
      refine ⟨cell, rfl, h.constructs.stay hpc rfl,
        h.assigns.release hpc rfl rfl, fun _ => h.guard_done hin, ?_,
        h.before, ?_, fun _ => hagrees, h.made⟩
      · exact h.threads_later rfl rfl rfl id fun _ => rfl
      · intro _ hfresh
        cases hfresh
  | @copy t hpc =>
      have hflag : s.flag = .done := by
        have hagrees := h.threads t
        rw [hpc] at hagrees
        exact hagrees
      obtain ⟨hvalue, hcell⟩ := h.after hflag
      have hops : onceOps s (.move t) = [.get (some helloWorld)] := by
        simp only [onceOps, hpc, hvalue]
      rw [hops, hcell]
      refine ⟨some (some helloWorld), once_get, ?_⟩
      rw [← hcell]
      refine ⟨h.constructs.stay hpc rfl, h.assigns.stay hpc rfl, h.ordered,
        ?_, h.before, h.between, h.after, h.made⟩
      exact h.threads_later rfl trivial rfl id id

/-- The forward simulation of the cell by the program. -/
theorem cell_simulation : System.Simulation (program T)
    (once (Option String)) onceOps Cell where
  init := cell_init
  step h hstep := cell_moves h (step_moves hstep)

/-- In every reachable state the string is a once cell. -/
theorem cell_reachable (h : (program T).Reachable s) :
    ∃ cell, Cell s cell := by
  obtain ⟨acts, hrun⟩ := System.reachable_iff_run.mp h
  obtain ⟨cell, -, hc⟩ := cell_simulation.run cell_init hrun
  exact ⟨cell, hc⟩

/-- In every interleaving the string is assigned at most once, nobody
copies it before, and every copy is of what was assigned. -/
theorem call_once_refines_once {acts : List (Act T)}
    (hrun : (program T).run (program T).init acts = some s) :
    (program T).trace onceOps (program T).init acts = []
      ∨ ∃ gets, (program T).trace onceOps (program T).init acts
          = .build (some helloWorld) :: gets
        ∧ ∀ op ∈ gets, op = .get (some helloWorld) := by
  obtain ⟨cell, hcell, hc⟩ := cell_simulation.run cell_init hrun
  rcases once_law hcell with ⟨hops, -⟩ | ⟨value, gets, hops, rfl, hgets⟩
  · exact .inl hops
  · have hvalue : value = some helloWorld := by
      rcases hc.made with hnone | hsome
      · cases hnone
      · exact Option.some.inj hsome
    exact .inr ⟨gets, hvalue ▸ hops, hvalue ▸ hgets⟩

/-- Two threads: the second finds the flag held by the first, and copies
first. -/
def overtaken : List (Act Bool) :=
  [.call false, .call true] ++ List.replicate 5 (.move false)
    ++ [.move true] ++ List.replicate 3 (.move false)
    ++ List.replicate 2 (.move true) ++ [.move false]

/-- The theorem at that run. -/
theorem call_once_refines_once_overtaken :
    (program Bool).trace onceOps (program Bool).init overtaken
        = [.build (some helloWorld), .get (some helloWorld),
          .get (some helloWorld)]
      ∧ ((program Bool).trace onceOps (program Bool).init overtaken = []
        ∨ ∃ gets, (program Bool).trace onceOps (program Bool).init overtaken
            = .build (some helloWorld) :: gets
          ∧ ∀ op ∈ gets, op = .get (some helloWorld)) := by
  obtain ⟨s, hrun⟩ := Option.isSome_iff_exists.mp
    (by decide : ((program Bool).run (program Bool).init
      overtaken).isSome = true)
  exact ⟨by decide, call_once_refines_once hrun⟩

end DailyStudy.CallOnce
