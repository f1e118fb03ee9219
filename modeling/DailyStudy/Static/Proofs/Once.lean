/-
A local static is a once cell, in every interleaving: the initializer
makes at most one value, and every caller, whenever it comes, reads that
value (`lazy_refines_once`).

A value is built where the initializer returns it, before it is stored;
the relation to the cell says what the static's storage and the cell hold
at each program point (`Agrees`), and the guard's owner is the one thread
at the points between (`Owns`).

# Termination

No caller waits for ever: a run in which nobody calls again has at most
`State.work` steps, and it can only stop when everybody is done
(`lazy_finishes`). The thread in the way of a waiting one is the guard's
owner, and none of its steps waits.
-/
import DailyStudy.Lib.Census
import DailyStudy.Static.Basic

namespace DailyStudy.Static

open Interleave

variable {T V : Type} [DecidableEq T] {p : Program T V}

-- ================================================================ observations

/-- The operation of the cell that the next step of a thread is: the
initializer returns a value, or a caller reads the static. -/
def onceOps (p : Program T V) (s : State T V) :
    Act T → List (OnceOp (Option V))
  | .call _ => []
  | .move t fails =>
      match s.thread t with
      | ⟨[], .construct⟩ =>
          match p.construct s.allocated fails with
          | (some value, _) => [.build (some value)]
          | (none, _) => []
      | ⟨[], .load⟩ => [.get s.value]
      | _ => []

-- ================================================================ the relation

/-- The thread runs the initialization. -/
def Thread.initializing (th : Thread V) : Bool :=
  match th.pc with
  | .construct | .store _ | .release => true
  | _ => false

/-- What the storage and the cell hold while a thread is at a point. -/
def Agrees (value : Option V) (cell : Option (Option V)) : Pc V → Prop
  | .construct => value = none ∧ cell = none
  | .store v => value = none ∧ cell = some (some v)
  | .release | .load => ∃ v, value = some v ∧ cell = some (some v)
  | .idle | .enter => True

/-- What the cell says of the heap: nothing is built and allocated yet, or
what one evaluation builds and allocates. -/
def Made (p : Program T V) (allocated : Nat) :
    Option (Option V) → Prop
  | none => allocated = 0
  | some value => ∃ v fails, value = some v
      ∧ p.construct 0 fails = (some v, allocated)

/-- The static as a once cell. -/
structure Lazy (p : Program T V) (s : State T V)
    (cell : Option (Option V)) : Prop where
  owns : Owns Thread.initializing s.guard.owner s.thread
  threads : ∀ t, Agrees s.value cell (s.thread t).pc
  fresh : s.guard = .fresh → s.value = none ∧ cell = none
  done : s.guard = .done → ∃ v, s.value = some v ∧ cell = some (some v)
  made : Made p s.allocated cell

variable {s s' : State T V} {cell : Option (Option V)} {t : T}

theorem lazy_init : Lazy p (lazy p).init none where
  owns := owns_const rfl
  threads _ := trivial
  fresh _ := ⟨rfl, rfl⟩
  done h := by cases h
  made := rfl

/-- The points of the others carry over when one thread moves and the
storage and the cell stay. -/
private theorem Lazy.threads_goto (h : Lazy p s cell) {texts : List String}
    {pc : Pc V} (hpc : Agrees s.value cell pc) (u : T) :
    Agrees s.value cell
      (Function.update s.thread t ⟨texts, pc⟩ u).pc := by
  by_cases hu : u = t
  · rw [hu, Function.update_self]
    exact hpc
  · rw [Function.update_of_ne hu]
    exact h.threads u

omit [DecidableEq T] in
/-- Before the value is stored every other thread is at a point that
depends on neither the storage nor the cell. -/
private theorem Lazy.others (h : Lazy p s cell)
    (hin : (s.thread t).initializing = true) (hvalue : s.value = none)
    {u : T} (hu : u ≠ t) (value' : Option V)
    (cell' : Option (Option V)) : Agrees value' cell' (s.thread u).pc := by
  have hagrees := h.threads u
  have hout : (s.thread u).initializing = false :=
    Bool.eq_false_iff.mpr fun hin' => hu (h.owns.unique hin' hin)
  unfold Thread.initializing at hout
  cases hpc : (s.thread u).pc with
  | idle => trivial
  | enter => trivial
  | load =>
      rw [hpc] at hagrees
      obtain ⟨v, hv, -⟩ := hagrees
      rw [hvalue] at hv
      cases hv
  | construct => simp [hpc] at hout
  | store v => simp [hpc] at hout
  | release => simp [hpc] at hout

/-- The initializing thread stores or builds while the rest looks away. -/
private theorem Lazy.threads_initializing (h : Lazy p s cell)
    (hin : (s.thread t).initializing = true) (hvalue : s.value = none)
    {value' : Option V} {cell' : Option (Option V)} {texts : List String}
    {pc : Pc V} (hpc : Agrees value' cell' pc) (u : T) :
    Agrees value' cell' (Function.update s.thread t ⟨texts, pc⟩ u).pc := by
  by_cases hu : u = t
  · rw [hu, Function.update_self]
    exact hpc
  · rw [Function.update_of_ne hu]
    exact h.others hin hvalue hu _ _

omit [DecidableEq T] in
/-- The initializing thread is the guard's owner. -/
private theorem Lazy.running (h : Lazy p s cell)
    (hin : (s.thread t).initializing = true) : s.guard = .running t :=
  Guard.owner_eq_some.mp ((h.owns t).mp hin)

-- =================================================================== the steps

/-- Every step of the threads is no step of the cell, or the one that
`onceOps` names. -/
theorem lazy_moves [DecidableEq V] {a : Act T} (h : Lazy p s cell)
    (hm : Moves p s a s') :
    ∃ cell', (once (Option V)).run cell (onceOps p s a) = some cell'
      ∧ Lazy p s' cell' := by
  cases hm with
  | call hpc =>
      refine ⟨cell, rfl, h.owns.stay hpc rfl, ?_, h.fresh, h.done, h.made⟩
      exact h.threads_goto trivial
  | @print t fails text texts pc hpc =>
      have hops : onceOps p s (.move t fails) = [] := by
        simp [onceOps, hpc]
      rw [hops]
      refine ⟨cell, rfl, h.owns.stay hpc rfl, ?_, h.fresh, h.done, h.made⟩
      have hagrees := h.threads t
      rw [hpc] at hagrees
      exact h.threads_goto hagrees
  | @start t fails hpc hguard =>
      have hops : onceOps p s (.move t fails) = [] := by
        simp [onceOps, hpc]
      rw [hops]
      have hfree := h.owns
      rw [hguard] at hfree
      refine ⟨cell, rfl, hfree.acquire rfl rfl, ?_, ?_, ?_, h.made⟩
      · exact h.threads_goto (h.fresh hguard)
      · intro hfresh
        cases hfresh
      · intro hdone
        cases hdone
  | @pass t fails hpc hguard =>
      have hops : onceOps p s (.move t fails) = [] := by
        simp [onceOps, hpc]
      rw [hops]
      have howns := h.owns
      rw [hguard] at howns
      refine ⟨cell, rfl, howns.stay hpc rfl, ?_, ?_, ?_, h.made⟩
      · exact h.threads_goto (h.done hguard)
      · intro hfresh
        cases hfresh
      · exact fun _ => h.done hguard
  | @construct t fails value allocated hpc hvalue =>
      have hin : (s.thread t).initializing = true := by rw [hpc]; rfl
      obtain ⟨hnone, hcell⟩ : s.value = none ∧ cell = none := by
        have hagrees := h.threads t
        rw [hpc] at hagrees
        exact hagrees
      have hmade : s.allocated = 0 := by
        have hmade := h.made
        rw [hcell] at hmade
        exact hmade
      have hops : onceOps p s (.move t fails) = [.build (some value)] := by
        simp [onceOps, hpc, hvalue]
      rw [hops, hcell]
      refine ⟨some (some value), once_build, h.owns.stay hpc rfl, ?_, ?_, ?_,
        ?_⟩
      · exact h.threads_initializing hin hnone ⟨hnone, rfl⟩
      · intro hfresh
        cases (h.running hin).symm.trans hfresh
      · intro hdone
        cases (h.running hin).symm.trans hdone
      · exact ⟨value, fails, rfl, hmade ▸ hvalue⟩
  | @throws t fails allocated hpc hvalue =>
      have hagrees := h.threads t
      rw [hpc] at hagrees
      have hops : onceOps p s (.move t fails) = [] := by
        simp [onceOps, hpc, hvalue]
      rw [hops]
      refine ⟨cell, rfl, h.owns.release hpc rfl rfl, ?_, ?_, ?_, ?_⟩
      · exact h.threads_goto trivial
      · exact fun _ => hagrees
      · intro hdone
        cases hdone
      · have hmade := h.made
        rw [hagrees.2] at hmade ⊢
        exact (p.throws hvalue).trans hmade
  | @store t fails value hpc =>
      have hin : (s.thread t).initializing = true := by rw [hpc]; rfl
      obtain ⟨hnone, hcell⟩ : s.value = none ∧ cell = some (some value) := by
        have hagrees := h.threads t
        rw [hpc] at hagrees
        exact hagrees
      have hops : onceOps p s (.move t fails) = [] := by
        simp [onceOps, hpc]
      rw [hops]
      refine ⟨cell, rfl, h.owns.stay hpc rfl, ?_, ?_, ?_, h.made⟩
      · exact h.threads_initializing hin hnone ⟨value, rfl, hcell⟩
      · intro hfresh
        cases (h.running hin).symm.trans hfresh
      · exact fun _ => ⟨value, rfl, hcell⟩
  | @release t fails hpc =>
      have hagrees := h.threads t
      rw [hpc] at hagrees
      have hops : onceOps p s (.move t fails) = [] := by
        simp [onceOps, hpc]
      rw [hops]
      refine ⟨cell, rfl, h.owns.release hpc rfl rfl, ?_, ?_, ?_, h.made⟩
      · exact h.threads_goto hagrees
      · intro hfresh
        cases hfresh
      · exact fun _ => hagrees
  | @load t fails hpc =>
      have hagrees := h.threads t
      rw [hpc] at hagrees
      obtain ⟨v, hv, hcell⟩ := hagrees
      have hops : onceOps p s (.move t fails) = [.get (some v)] := by
        simp [onceOps, hpc, hv]
      rw [hops, hcell]
      refine ⟨some (some v), once_get, ?_⟩
      rw [← hcell]
      refine ⟨h.owns.stay hpc rfl, ?_, h.fresh, h.done, h.made⟩
      exact h.threads_goto trivial

/-- The forward simulation of the cell by the static. -/
theorem lazy_simulation [DecidableEq V] :
    System.Simulation (lazy p) (once (Option V)) (onceOps p) (Lazy p) where
  init := lazy_init
  step h hstep := lazy_moves h (step_moves hstep)

/-- In every reachable state the static is a once cell with some value. -/
theorem lazy_reachable [DecidableEq V] (h : (lazy p).Reachable s) :
    ∃ cell, Lazy p s cell := by
  obtain ⟨acts, hrun⟩ := System.reachable_iff_run.mp h
  obtain ⟨cell, -, hl⟩ := lazy_simulation.run lazy_init hrun
  exact ⟨cell, hl⟩

/-- Two callers of the queue's `getInstance`; the first allocation of the
first throws while the second waits, and the second makes the object. -/
def retried : List (Act Bool) :=
  [.call false, .call true, .move false false, .move false true,
    .call false, .move true false, .move true false, .move true false,
    .move true false, .move false false, .move true false,
    .move false false]

/-- The longest report on what the initializer makes. -/
def Program.longest (p : Program T V) : Nat :=
  max (((p.construct 0 false).1.map p.reports).getD []).length
    (((p.construct 0 true).1.map p.reports).getD []).length

/-- At most how many steps a call has left, apart from the texts it is to
print first. -/
def Pc.left (p : Program T V) : Pc V → Nat
  | .idle => 0
  | .load => 1 + p.longest
  | .release => 2 + p.longest
  | .store _ => 3 + p.longest
  | .construct => 4 + p.longest
  | .enter => 5 + p.longest + p.announces.length

/-- At most how many steps a thread has left in its call. -/
def Thread.left (p : Program T V) (th : Thread V) : Nat :=
  th.texts.length + th.pc.left p

/-- At most how many steps all the calls have left. -/
def State.work [Fintype T] (p : Program T V) (s : State T V) : Nat :=
  total (Thread.left p) s.thread

/-- A step of a thread in its call. -/
def Act.isMove : Act T → Bool
  | .call _ => false
  | .move _ _ => true

omit [DecidableEq T] in
/-- What is read has a report no longer than the longest. -/
private theorem Lazy.report_le (h : Lazy p s cell)
    (hpc : (s.thread t).pc = .load) :
    ((s.value.map p.reports).getD []).length ≤ p.longest := by
  have hagrees := h.threads t
  rw [hpc] at hagrees
  obtain ⟨v, hv, hcell⟩ := hagrees
  have hmade := h.made
  rw [hcell] at hmade
  obtain ⟨v', fails, hvalue, hconstruct⟩ := hmade
  cases hvalue
  have hlen : ((s.value.map p.reports).getD []).length
      = (((p.construct 0 fails).1.map p.reports).getD []).length := by
    rw [hv, hconstruct]
  rw [hlen]
  cases fails with
  | false => exact Nat.le_max_left _ _
  | true => exact Nat.le_max_right _ _

/-- Every step of a call leaves less to do. -/
theorem work_lt [Fintype T] {a : Act T} (h : Lazy p s cell)
    (hm : Moves p s a s') (ha : a.isMove = true) : s'.work p < s.work p := by
  cases hm with
  | call _ => cases ha
  | print hpc =>
      apply total_lt hpc
      simp only [Thread.left, List.length_cons]
      omega
  | start hpc _ =>
      apply total_lt hpc
      simp only [Thread.left, Pc.left, List.length_nil]
      omega
  | pass hpc _ =>
      apply total_lt hpc
      simp only [Thread.left, Pc.left, List.length_nil]
      omega
  | construct hpc _ =>
      apply total_lt hpc
      simp only [Thread.left, Pc.left, List.length_nil]
      omega
  | throws hpc _ =>
      apply total_lt hpc
      simp only [Thread.left, Pc.left, List.length_nil]
      omega
  | store hpc =>
      apply total_lt hpc
      simp only [Thread.left, Pc.left, List.length_nil]
      omega
  | release hpc =>
      apply total_lt hpc
      simp only [Thread.left, Pc.left, List.length_nil]
      omega
  | @load t fails hpc =>
      have hreport := h.report_le (t := t) (by rw [hpc])
      apply total_lt hpc
      simp only [Thread.left, Pc.left, List.length_nil]
      omega

/-- A thread in its call can move, unless it stands at a guard that
another one holds. -/
private theorem can_move (hcall : s.thread t ≠ ⟨[], .idle⟩)
    (hguard : (s.thread t).pc = .enter → s.guard.owner = none) :
    ((lazy p).step s (.move t false)).isSome = true := by
  rcases hth : s.thread t with ⟨_ | ⟨text, texts⟩, pc⟩
  · rw [hth] at hcall hguard
    cases pc with
    | idle => exact absurd rfl hcall
    | enter =>
        cases hg : s.guard with
        | fresh => simp [lazy, step, hth, State.move, Guard.enter, hg]
        | running u =>
            rw [hg] at hguard
            cases hguard rfl
        | done => simp [lazy, step, hth, State.move, Guard.enter, hg]
    | construct =>
        rcases hvalue : p.construct s.allocated false with ⟨_ | v, n⟩
        · simp [lazy, step, hth, State.move, hvalue]
        · simp [lazy, step, hth, State.move, hvalue]
    | store v => simp [lazy, step, hth, State.move]
    | release => simp [lazy, step, hth, State.move]
    | load => simp [lazy, step, hth, State.move]
  · simp [lazy, step, hth]

/-- While some call is not finished some thread can move: the one in the
call, or the one it waits for. -/
theorem some_can_move (h : Lazy p s cell)
    (hcall : s.thread t ≠ ⟨[], .idle⟩) :
    ∃ u, ((lazy p).step s (.move u false)).isSome = true := by
  apply h.owns.exists_of_inside
  · intro u hin
    apply can_move
    · intro hidle
      rw [hidle] at hin
      cases hin
    · intro henter
      rw [Thread.initializing, henter] at hin
      cases hin
  · exact fun hfree => ⟨t, can_move hcall fun _ => hfree⟩

/-- From every reachable state, whatever the scheduler picks: without new
calls there are at most `State.work` steps, and where no step is left
every call is finished. -/
theorem lazy_finishes [Fintype T] [DecidableEq V] {s s' : State T V}
    {acts : List (Act T)}
    (hs : (lazy p).Reachable s)
    (hmoves : (lazy p).Meets (fun _ a => a.isMove = true) s acts)
    (hrun : (lazy p).run s acts = some s') :
    acts.length ≤ s.work p
      ∧ ((∀ t fails, (lazy p).step s' (.move t fails) = none) →
        ∀ t, s'.thread t = ⟨[], .idle⟩) := by
  have hends := (lazy p).finishes
    (I := fun s => ∃ cell, Lazy p s cell) (μ := State.work p)
    (D := fun s => ∀ t, s.thread t = ⟨[], .idle⟩)
    ?_ ?_ (lazy_reachable hs) hmoves hrun
  · refine ⟨hends.1, fun hstuck => hends.2 ?_⟩
    intro a ha
    cases a with
    | call t => cases ha
    | move t fails => exact hstuck t fails
  · rintro s a s' ⟨cell, hl⟩ ha hstep
    have hm := step_moves hstep
    obtain ⟨cell', -, hl'⟩ := lazy_moves hl hm
    exact ⟨⟨cell', hl'⟩, work_lt hl hm ha⟩
  · rintro s ⟨cell, hl⟩ hleft
    obtain ⟨t, hcall⟩ := not_forall.mp hleft
    obtain ⟨u, hu⟩ := some_can_move hl hcall
    exact ⟨.move u false, rfl, hu⟩

/-- The theorem where two callers of the queue's `getInstance` are before
their first step: the allocation of one throws, and the other one makes the
object. -/
theorem lazy_finishes_two_callers :
    ∃ (acts : List (Act Bool)) (s s' : State Bool Nat),
      (lazy getQueueSingleton).run (lazy getQueueSingleton).init
          [.call false, .call true] = some s
        ∧ (lazy getQueueSingleton).run s acts = some s'
        ∧ acts.length = 7
        ∧ acts.length ≤ s.work getQueueSingleton
        ∧ ((∀ t fails,
            (lazy getQueueSingleton).step s' (.move t fails) = none) →
          ∀ t, s'.thread t = ⟨[], .idle⟩) := by
  obtain ⟨s', hall⟩ := Option.isSome_iff_exists.mp
    (by decide : ((lazy getQueueSingleton).run (lazy getQueueSingleton).init
      ([.call false, .call true] ++ (List.replicate 2 (.move false true)
        ++ List.replicate 5 (.move true false)))).isSome = true)
  obtain ⟨s, hs, hrun⟩ := System.run_append_eq_some.mp hall
  exact ⟨_, s, s', hs, hrun, rfl,
    lazy_finishes (System.reachable_iff_run.mpr ⟨_, hs⟩)
      (System.meets_of_forall (by decide)) hrun⟩

end DailyStudy.Static
