/-
What the threads of co1.cc print, and that they finish.

The lambda prints before it assigns, and every other line comes from a
thread that has passed the flag. So the output is first the announcement,
by one thread and undisturbed, and from then on of every thread one
report after the other (`call_once_prints`).

A thread waits at the static's guard or at the flag only for the thread
inside, and that one does not wait (`call_once_finishes`).
-/
import DailyStudy.Lib.Census
import DailyStudy.CallOnce.Proofs.Once

namespace DailyStudy.CallOnce

open Interleave

variable {T : Type} [DecidableEq T]

-- ================================================================== the output

/-- What thread `t` printed, in order. -/
def printed (t : T) (output : List (T × String)) : List String :=
  (output.filter fun line => line.1 = t).map Prod.snd

/-- The lines of one thread, each with its name. -/
def by_ (t : T) (texts : List String) : List (T × String) :=
  texts.map fun text => (t, text)

theorem printed_append (t : T) (output lines : List (T × String)) :
    printed t (output ++ lines) = printed t output ++ printed t lines := by
  rw [printed, List.filter_append, List.map_append]
  rfl

@[simp] theorem printed_self (t : T) (text : String) :
    printed t [(t, text)] = [text] := by
  simp [printed]

theorem printed_other {t u : T} (hu : u ≠ t) (text : String) :
    printed u [(t, text)] = [] := by
  simp [printed, hu.symm]

/-- The output, with what the threads are about to print: nothing before
the flag is taken, the announcement of its owner while the lambda runs,
reports after that. -/
def Printed (s : State T) : Prop :=
  match s.flag with
  | .fresh => s.output = [] ∧ ∀ t, (s.thread t).texts = []
  | .running t =>
      s.output ++ by_ t (s.thread t).texts = by_ t announcement
        ∧ ∀ u, u ≠ t → (s.thread u).texts = []
  | .done => ∃ t reports, s.output = by_ t announcement ++ reports
      ∧ ∀ u, ∃ n, printed u reports ++ (s.thread u).texts
        = (List.replicate n (report helloWorld)).flatten

variable {s s' : State T} {cell : Option (Option String)}

/-- A step that prints nothing, and has nothing printed, changes the texts
of nobody. -/
private theorem texts_goto {t : T} {pc pc' : Pc}
    (hpc : s.thread t = ⟨[], pc⟩) (u : T) :
    (Function.update s.thread t ⟨[], pc'⟩ u).texts = (s.thread u).texts := by
  apply view_update Thread.texts hpc
  rfl

/-- Such a step keeps the output while the flag stays. -/
private theorem Printed.quiet {t : T} {pc pc' : Pc} (h : Printed s)
    (hpc : s.thread t = ⟨[], pc⟩)
    (hthread : s'.thread = Function.update s.thread t ⟨[], pc'⟩)
    (houtput : s'.output = s.output) (hflag : s'.flag = s.flag) :
    Printed s' := by
  have htexts : ∀ u, (s'.thread u).texts = (s.thread u).texts := by
    intro u
    rw [hthread]
    exact texts_goto hpc u
  unfold Printed at h ⊢
  simp only [hflag, houtput, htexts]
  exact h

/-- A thread prints its next text. -/
private theorem Printed.print {t : T} {text : String} {texts : List String}
    {pc : Pc} (h : Printed s) (hpc : s.thread t = ⟨text :: texts, pc⟩) :
    Printed ({ s with output := s.output ++ [(t, text)] }.goto t texts pc) := by
  unfold Printed State.goto at *
  cases hflag : s.flag with
  | fresh =>
      rw [hflag] at h
      have hnil := h.2 t
      rw [hpc] at hnil
      cases hnil
  | running o =>
      rw [hflag] at h
      obtain ⟨hout, hothers⟩ := h
      have ho : t = o := by
        by_contra hne
        have hnil := hothers t hne
        rw [hpc] at hnil
        cases hnil
      subst ho
      refine ⟨?_, ?_⟩
      · rw [hpc] at hout
        simp only [Function.update_self]
        rw [List.append_assoc]
        exact hout
      · intro u hu
        simp only [Function.update_of_ne hu]
        exact hothers u hu
  | done =>
      rw [hflag] at h
      obtain ⟨o, reports, hout, hlines⟩ := h
      refine ⟨o, reports ++ [(t, text)], ?_, ?_⟩
      · simp only [hout, List.append_assoc]
      · intro u
        obtain ⟨n, hn⟩ := hlines u
        refine ⟨n, ?_⟩
        rw [printed_append]
        by_cases hu : u = t
        · subst hu
          rw [hpc] at hn
          simp only [Function.update_self, printed_self, List.append_assoc]
          exact hn
        · simp only [Function.update_of_ne hu, printed_other hu,
            List.append_nil]
          exact hn

/-- Every step keeps what is printed. -/
theorem printed_moves {a : Act T} (hc : Cell s cell) (h : Printed s)
    (hm : Moves s a s') : Printed s' := by
  cases hm with
  | call hpc => exact h.quiet hpc rfl rfl rfl
  | print hpc => exact h.print hpc
  | start hpc _ => exact h.quiet hpc rfl rfl rfl
  | pass hpc _ => exact h.quiet hpc rfl rfl rfl
  | construct hpc => exact h.quiet hpc rfl rfl rfl
  | release hpc => exact h.quiet hpc rfl rfl rfl
  | assign hpc => exact h.quiet hpc rfl rfl rfl
  | passOnce hpc hflag => exact h.quiet hpc rfl rfl hflag.symm
  | @startOnce t hpc hflag =>
      unfold Printed at h
      rw [hflag] at h
      obtain ⟨hout, htexts⟩ := h
      refine ⟨?_, ?_⟩
      · simp only [State.goto, Function.update_self, hout, List.nil_append]
      · intro u hu
        simp only [State.goto, Function.update_of_ne hu]
        exact htexts u
  | @returnOnce t hpc =>
      have hrunning : s.flag = .running t :=
        Guard.owner_eq_some.mp ((hc.assigns t).mp (by rw [hpc]; rfl))
      unfold Printed at h
      rw [hrunning] at h
      obtain ⟨hout, hothers⟩ := h
      rw [hpc] at hout
      refine ⟨t, [], ?_, ?_⟩
      · rw [List.append_nil]
        exact (List.append_nil _).symm.trans hout
      · intro u
        refine ⟨0, ?_⟩
        have htexts : (s.thread u).texts = [] := by
          by_cases hu : u = t
          · rw [hu, hpc]
          · exact hothers u hu
        simp only [State.goto, texts_goto hpc, htexts]
        rfl
  | @copy t hpc =>
      have hflag : s.flag = .done := by
        have hagrees := hc.threads t
        rw [hpc] at hagrees
        exact hagrees
      obtain ⟨hvalue, -⟩ := hc.after hflag
      unfold Printed State.goto at *
      simp only [hflag] at h ⊢
      obtain ⟨o, reports, hout, hlines⟩ := h
      refine ⟨o, reports, hout, ?_⟩
      intro u
      obtain ⟨n, hn⟩ := hlines u
      by_cases hu : u = t
      · subst hu
        refine ⟨n + 1, ?_⟩
        rw [hpc, List.append_nil] at hn
        simp only [Function.update_self, hvalue, Option.map_some,
          Option.getD_some, hn]
        rw [List.replicate_succ', List.flatten_append, List.flatten_singleton]
      · refine ⟨n, ?_⟩
        simp only [Function.update_of_ne hu]
        exact hn

/-- In every reachable state: nothing is printed, or one thread printed
the announcement as far as it came, or one thread printed all of it and
after that every thread printed reports of the assigned string, one after
the other. -/
theorem call_once_prints (hs : (program T).Reachable s) :
    s.output = []
      ∨ ∃ t, s.output <+: by_ t announcement
        ∨ ∃ reports, s.output = by_ t announcement ++ reports
          ∧ ∀ u, ∃ n, printed u reports
            <+: (List.replicate n (report helloWorld)).flatten := by
  have hprinted : (∃ cell, Cell s cell) ∧ Printed s := by
    refine System.Reachable.invariant (M := program T)
      (I := fun s => (∃ cell, Cell s cell) ∧ Printed s) ?_ ?_ hs
    · exact ⟨⟨none, cell_init⟩, rfl, fun _ => rfl⟩
    · rintro s a s' - ⟨⟨cell, hc⟩, hp⟩ hstep
      have hm := step_moves hstep
      obtain ⟨cell', -, hc'⟩ := cell_moves hc hm
      exact ⟨⟨cell', hc'⟩, printed_moves hc hp hm⟩
  have hp := hprinted.2
  unfold Printed at hp
  cases hflag : s.flag with
  | fresh =>
      rw [hflag] at hp
      exact .inl hp.1
  | running t =>
      rw [hflag] at hp
      refine .inr ⟨t, .inl ?_⟩
      rw [← hp.1]
      exact List.prefix_append _ _
  | done =>
      rw [hflag] at hp
      obtain ⟨t, reports, hout, hlines⟩ := hp
      refine .inr ⟨t, .inr ⟨reports, hout, ?_⟩⟩
      intro u
      obtain ⟨n, hn⟩ := hlines u
      exact ⟨n, hn ▸ List.prefix_append _ _⟩

/-- The theorem where the second thread of `overtaken` has printed half of
its report and the first none. -/
theorem call_once_prints_half :
    ∃ s, (program Bool).run (program Bool).init
          (overtaken ++ List.replicate 2 (.move true)) = some s
      ∧ s.output = [(false, "Initialized Once"), (false, "\n"),
        (true, "Thread is running with value: "), (true, "HELLO WORLD")]
      ∧ (s.output = []
        ∨ ∃ t, s.output <+: by_ t announcement
          ∨ ∃ reports, s.output = by_ t announcement ++ reports
            ∧ ∀ u, ∃ n, printed u reports
              <+: (List.replicate n (report helloWorld)).flatten) := by
  have hout : ((program Bool).run (program Bool).init
      (overtaken ++ List.replicate 2 (.move true))).map State.output
      = some [(false, "Initialized Once"), (false, "\n"),
        (true, "Thread is running with value: "), (true, "HELLO WORLD")] := by
    decide
  obtain ⟨s, hrun, hs⟩ := Option.map_eq_some_iff.mp hout
  exact ⟨s, hrun, hs,
    call_once_prints (System.reachable_iff_run.mpr ⟨_, hrun⟩)⟩

-- ================================================================= termination

/-- At most how many steps a call has left, apart from the texts it is to
print first. -/
def Pc.left : Pc → Nat
  | .idle => 0
  | .copy => 5
  | .returnOnce => 6
  | .assign => 7
  | .callOnce => 10
  | .release => 11
  | .construct => 12
  | .enterValue => 13

/-- At most how many steps a thread has left in its call. -/
def Thread.left (th : Thread) : Nat := th.texts.length + th.pc.left

/-- At most how many steps all the calls have left. -/
def State.work [Fintype T] (s : State T) : Nat := total Thread.left s.thread

/-- A step of a thread in its call. -/
def Act.isMove : Act T → Bool
  | .call _ => false
  | .move _ => true

/-- Every step of a call leaves less to do. -/
theorem work_lt [Fintype T] {a : Act T} (hm : Moves s a s')
    (ha : a.isMove = true) : s'.work < s.work := by
  cases hm with
  | call _ => cases ha
  | print hpc =>
      apply total_lt hpc
      simp only [Thread.left, List.length_cons]
      omega
  | copy hpc =>
      apply total_lt hpc
      cases s.value with
      | none => simp [Thread.left, Pc.left]
      | some res => simp [Thread.left, Pc.left, report]
  | startOnce hpc _ =>
      apply total_lt hpc
      simp [Thread.left, Pc.left, announcement]
  | start hpc _ | pass hpc _ | construct hpc | release hpc | passOnce hpc _
  | assign hpc | returnOnce hpc =>
      apply total_lt hpc
      simp [Thread.left, Pc.left]

/-- A thread in its call can move, unless it stands at a guard that
another one holds. -/
private theorem can_move {t : T} (hcall : s.thread t ≠ ⟨[], .idle⟩)
    (hguard : (s.thread t).pc = .enterValue → s.guard.owner = none)
    (hflag : (s.thread t).pc = .callOnce → s.flag.owner = none) :
    ((program T).step s (.move t)).isSome = true := by
  rcases hth : s.thread t with ⟨_ | ⟨text, texts⟩, pc⟩
  · rw [hth] at hcall hguard hflag
    cases pc with
    | idle => exact absurd rfl hcall
    | enterValue =>
        cases hg : s.guard with
        | fresh => simp [program, step, hth, State.move, Guard.enter, hg]
        | running u =>
            rw [hg] at hguard
            cases hguard rfl
        | done => simp [program, step, hth, State.move, Guard.enter, hg]
    | callOnce =>
        cases hf : s.flag with
        | fresh => simp [program, step, hth, State.move, Guard.enter, hf]
        | running u =>
            rw [hf] at hflag
            cases hflag rfl
        | done => simp [program, step, hth, State.move, Guard.enter, hf]
    | construct => simp [program, step, hth, State.move]
    | release => simp [program, step, hth, State.move]
    | assign => simp [program, step, hth, State.move]
    | returnOnce => simp [program, step, hth, State.move]
    | copy => simp [program, step, hth, State.move]
  · simp [program, step, hth]

/-- The thread inside the static's guard or the flag can move. -/
private theorem insider_can_move {u : T}
    (hin : (s.thread u).constructing = true
      ∨ (s.thread u).assigning = true) :
    ((program T).step s (.move u)).isSome = true := by
  apply can_move
  · intro hidle
    rw [hidle] at hin
    rcases hin with hin | hin
    · cases hin
    · cases hin
  · intro henter
    rw [Thread.constructing, Thread.assigning, henter] at hin
    rcases hin with hin | hin
    · cases hin
    · cases hin
  · intro henter
    rw [Thread.constructing, Thread.assigning, henter] at hin
    rcases hin with hin | hin
    · cases hin
    · cases hin

/-- While some call is not finished some thread can move: the one in the
call, or the one it waits for. -/
theorem some_can_move (h : Cell s cell) {t : T}
    (hcall : s.thread t ≠ ⟨[], .idle⟩) :
    ∃ u, ((program T).step s (.move u)).isSome = true := by
  apply h.constructs.exists_of_inside
  · exact fun u hin => insider_can_move (.inl hin)
  · intro hguard
    apply h.assigns.exists_of_inside
    · exact fun u hin => insider_can_move (.inr hin)
    · intro hflag
      exact ⟨t, can_move hcall (fun _ => hguard) fun _ => hflag⟩

/-- From every reachable state, whatever the scheduler picks: without new
calls there are at most `State.work` steps, and where no step is left
every call is finished. -/
theorem call_once_finishes [Fintype T] {acts : List (Act T)}
    (hs : (program T).Reachable s)
    (hmoves : (program T).Meets (fun _ a => a.isMove = true) s acts)
    (hrun : (program T).run s acts = some s') :
    acts.length ≤ s.work
      ∧ ((∀ t, (program T).step s' (.move t) = none) →
        ∀ t, s'.thread t = ⟨[], .idle⟩) := by
  have hends := (program T).finishes
    (I := (program T).Reachable) (μ := State.work)
    (D := fun s => ∀ t, s.thread t = ⟨[], .idle⟩)
    (fun hr ha hstep => ⟨hr.step _ hstep, work_lt (step_moves hstep) ha⟩)
    ?_ hs hmoves hrun
  · refine ⟨hends.1, fun hstuck => hends.2 ?_⟩
    intro a ha
    cases a with
    | call t => cases ha
    | move t => exact hstuck t
  · intro s hr hleft
    obtain ⟨t, hcall⟩ := not_forall.mp hleft
    obtain ⟨cell, hc⟩ := cell_reachable hr
    obtain ⟨u, hu⟩ := some_can_move hc hcall
    exact ⟨.move u, rfl, hu⟩

/-- The theorem after `overtaken`: both threads finish their reports. -/
theorem call_once_finishes_overtaken :
    ∃ (acts : List (Act Bool)) (s s' : State Bool),
      (program Bool).run (program Bool).init overtaken = some s
        ∧ (program Bool).run s acts = some s'
        ∧ acts.length = 8
        ∧ acts.length ≤ s.work
        ∧ ((∀ t, (program Bool).step s' (.move t) = none) →
          ∀ t, s'.thread t = ⟨[], .idle⟩) := by
  obtain ⟨s', hall⟩ := Option.isSome_iff_exists.mp
    (by decide : ((program Bool).run (program Bool).init
      (overtaken ++ (List.replicate 4 (.move true)
        ++ List.replicate 4 (.move false)))).isSome = true)
  obtain ⟨s, hs, hrun⟩ := System.run_append_eq_some.mp hall
  exact ⟨_, s, s', hs, hrun, rfl,
    call_once_finishes (System.reachable_iff_run.mpr ⟨_, hs⟩)
      (System.meets_of_forall (by decide)) hrun⟩

end DailyStudy.CallOnce
