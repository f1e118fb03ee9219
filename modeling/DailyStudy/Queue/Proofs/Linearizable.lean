/-
The `QueueSingleton` is a linearizable FIFO queue (`queue_linearizable`),
and its callers keep out of the undefined `front` of an empty queue by
counting (`queue_disciplined`): it is enough that a `dequeue` is called
only while fewer of them were called than `enqueue`s have returned. Then
every call returns, too.

# The bodies

`Runs` says, for each method, what its body has done at every place and
what it returns. With it a sequential history of the object is a run of
`fifoQueue`, whose law (`fifoQueue_law`) is that what was enqueued is what
was dequeued and then what is queued.
-/
import DailyStudy.Queue.Basic

namespace DailyStudy.Queue

open Interleave Locked

-- ================================================================== the bodies

/-- What the body of a method has done, from the queue it found, at a
place in it or at its end. -/
def Runs (q : List Int) : Method → List Int → Place ⊕ Option Int → Prop
  | .enqueue value, q', .inl place => place = .push value ∧ q' = q
  | .enqueue value, q', .inr res => res = none ∧ q' = q ++ [value]
  | .dequeue, q', .inl .front => q' = q
  | .dequeue, q', .inl (.pop v) => q' = q ∧ ∃ rest, q = v :: rest
  | .dequeue, _, .inl _ => False
  | .dequeue, q', .inr res => ∃ v, q = v :: q' ∧ res = some v
  | .size, q', .inl place => place = .size ∧ q' = q
  | .size, q', .inr res => res = some (toInt32 q.length) ∧ q' = q

/-- One step of a body. -/
private theorem runs_move {m : Method} {q q' q'' : List Int} {place : Place}
    {x : Place ⊕ Option Int} (h : Runs q m q' (.inl place))
    (hmove : queueSingleton.move q' place () = some (q'', x)) :
    Runs q m q'' x := by
  cases m with
  | enqueue value =>
      obtain ⟨rfl, rfl⟩ := h
      simp only [queueSingleton, Option.some.injEq, Prod.mk.injEq] at hmove
      obtain ⟨rfl, rfl⟩ := hmove
      exact ⟨rfl, rfl⟩
  | dequeue =>
      cases place with
      | push value => exact h.elim
      | size => exact h.elim
      | front =>
          obtain rfl : q' = q := h
          cases q' with
          | nil => cases hmove
          | cons v rest =>
              simp only [queueSingleton, Option.some.injEq,
                Prod.mk.injEq] at hmove
              obtain ⟨rfl, rfl⟩ := hmove
              exact ⟨rfl, rest, rfl⟩
      | pop v =>
          obtain ⟨rfl, rest, rfl⟩ := h
          simp only [queueSingleton, Option.some.injEq,
            Prod.mk.injEq] at hmove
          obtain ⟨rfl, rfl⟩ := hmove
          exact ⟨v, rfl, rfl⟩
  | size =>
      obtain ⟨rfl, rfl⟩ := h
      simp only [queueSingleton, Option.some.injEq, Prod.mk.injEq] at hmove
      obtain ⟨rfl, rfl⟩ := hmove
      exact ⟨rfl, rfl⟩

/-- What a body has done when it comes to a place or to its end. -/
theorem runs_of_reaches {m : Method} {q q' : List Int}
    {x : Place ⊕ Option Int}
    (h : queueSingleton.Reaches q (queueSingleton.start m) q' x) :
    Runs q m q' x := by
  generalize hstart : queueSingleton.start m = place at h
  induction h with
  | refl =>
      subst hstart
      cases m with
      | enqueue value => exact ⟨rfl, rfl⟩
      | dequeue => exact rfl
      | size => exact ⟨rfl, rfl⟩
  | tail _ hmove ih => exact runs_move (ih hstart) hmove

/-- A whole body is one step of the FIFO queue. -/
theorem fifoQueue_of_runs {m : Method} {q q' : List Int} {res : Option Int}
    (h : Runs q m q' (.inr res)) :
    fifoQueue.run q [(m, res)] = some q' := by
  cases m with
  | enqueue value =>
      obtain ⟨rfl, rfl⟩ := h
      rfl
  | dequeue =>
      obtain ⟨v, rfl, rfl⟩ := h
      simp [System.run, fifoQueue]
  | size =>
      obtain ⟨rfl, rfl⟩ := h
      simp [System.run, fifoQueue]

/-- A sequential history of the object is a run of the FIFO queue. -/
theorem fifoQueue_of_legal {h : List (Method × Option Int)} {q q' : List Int}
    (hl : queueSingleton.Legal q h q') : fifoQueue.run q h = some q' := by
  induction hl with
  | nil => rfl
  | snoc _ hreaches ih =>
      exact System.run_append ih (fifoQueue_of_runs (runs_of_reaches hreaches))

-- ===================================================================== the law

/-- Along a run of the FIFO queue, what was queued and enqueued is what was
dequeued and is queued. -/
theorem fifoQueue_law {h : List (Method × Option Int)} {q q' : List Int}
    (hrun : fifoQueue.run q h = some q') :
    q ++ enqueued h = dequeued h ++ q'
      ∧ h.countP (fun e => e.1.isEnqueue) = (enqueued h).length
      ∧ h.countP (fun e => e.1.isDequeue) = (dequeued h).length := by
  induction h generalizing q with
  | nil =>
      simp only [System.run, Option.some.injEq] at hrun
      subst hrun
      exact ⟨List.append_nil _, rfl, rfl⟩
  | cons e rest ih =>
      obtain ⟨q₁, hstep, hrest⟩ := System.run_cons_eq_some.mp hrun
      obtain ⟨hlaw, henq, hdeq⟩ := ih hrest
      obtain ⟨m, res⟩ := e
      rw [List.countP_cons, List.countP_cons, henq, hdeq]
      cases m with
      | enqueue value =>
          cases res with
          | some n => simp [fifoQueue] at hstep
          | none =>
              simp only [fifoQueue, Option.some.injEq] at hstep
              subst hstep
              have henqueued : enqueued ((.enqueue value, none) :: rest)
                  = value :: enqueued rest := rfl
              have hdequeued : dequeued ((.enqueue value, none) :: rest)
                  = dequeued rest := rfl
              rw [henqueued, hdequeued, ← hlaw]
              exact ⟨(List.append_assoc q [value] _).symm, rfl, rfl⟩
      | dequeue =>
          cases res with
          | none =>
              cases q with
              | nil => simp [fifoQueue] at hstep
              | cons v q => simp [fifoQueue] at hstep
          | some n =>
              cases q with
              | nil => simp [fifoQueue] at hstep
              | cons v q =>
                  by_cases hv : n = v
                  · simp only [fifoQueue, if_pos hv,
                      Option.some.injEq] at hstep
                    subst hstep hv
                    have henqueued : enqueued ((.dequeue, some n) :: rest)
                        = enqueued rest := rfl
                    have hdequeued : dequeued ((.dequeue, some n) :: rest)
                        = n :: dequeued rest := rfl
                    rw [henqueued, hdequeued]
                    exact ⟨congrArg (n :: ·) hlaw, rfl, rfl⟩
                  · simp [fifoQueue, hv] at hstep
      | size =>
          cases res with
          | none => simp [fifoQueue] at hstep
          | some n =>
              by_cases hn : n = toInt32 q.length
              · simp only [fifoQueue, if_pos hn, Option.some.injEq] at hstep
                subst hstep
                exact ⟨hlaw, rfl, rfl⟩
              · simp [fifoQueue, hn] at hstep

variable {T : Type} [DecidableEq T]

/-- Two threads: while the second waits with its `dequeue`, the first
enqueues again; the sizes are before and after. -/
def crossing : List (Act Bool Method Unit) :=
  [.call false (.enqueue 7), .move false (), .move false (), .move false (),
    .call false .size, .move false (), .call true .dequeue, .move false (),
    .move false (), .move true (), .call false (.enqueue 8), .move true (),
    .move true (), .move true (), .move false (), .move false (),
    .move false (), .call true .size, .move true (), .move true ()]

/-- A `dequeue` is called while fewer of them were called than `enqueue`s
have returned. -/
def Disciplined
    (sl : State T (List Int) Method Place (Option Int)
      × List (T × Event Method (Option Int))) : Act T Method Unit → Prop
  | .call _ .dequeue =>
      tally (Event.isCall Method.isDequeue) sl.2
        < tally (Event.isReturn Method.isEnqueue) sl.2
  | _ => True

instance decidableDisciplined
    (sl : State T (List Int) Method Place (Option Int)
      × List (T × Event Method (Option Int))) :
    ∀ a, Decidable (Disciplined sl a)
  | .call _ .dequeue => inferInstanceAs (Decidable (_ < _))
  | .call _ (.enqueue _) => isTrue trivial
  | .call _ .size => isTrue trivial
  | .move _ _ => isTrue trivial

/-- What disciplined callers keep: the history, the counts, and that
`dequeue`s are called behind the `enqueue`s. -/
structure Behind [Fintype T]
    (s : State T (List Int) Method Place (Option Int))
    (log : List (T × Event Method (Option Int))) : Prop where
  linear : Linear queueSingleton [] s log
  enqueues : Counted Method.isEnqueue s log
  dequeues : Counted Method.isDequeue s log
  behind : tally (Event.isCall Method.isDequeue) log
    ≤ tally (Event.isReturn Method.isEnqueue) log

variable {s s' : State T (List Int) Method Place (Option Int)}
  {log : List (T × Event Method (Option Int))}

/-- A step calls at most one `dequeue`, and a disciplined one only where
there is room for it. -/
private theorem tally_obs {a : Act T Method Unit}
    (ha : Disciplined (s, log) a)
    (h : tally (Event.isCall Method.isDequeue) log
      ≤ tally (Event.isReturn Method.isEnqueue) log)
    {es : List (T × Event Method (Option Int))}
    (hm : Moves queueSingleton s a s' es) :
    tally (Event.isCall Method.isDequeue) (log ++ es)
      ≤ tally (Event.isReturn Method.isEnqueue) (log ++ es) := by
  cases hm with
  | @call t m hpc =>
      rw [tally_concat, tally_concat]
      cases m with
      | enqueue v => exact h
      | size => exact h
      | dequeue => exact ha
  | lock _ _ =>
      rw [List.append_nil]
      exact h
  | body _ _ =>
      rw [List.append_nil]
      exact h
  | done _ _ =>
      rw [tally_concat, tally_concat]
      exact h
  | unlock _ =>
      rw [tally_concat, tally_concat]
      exact Nat.le_add_right_of_le h

variable [Fintype T]

theorem behind_moves {a : Act T Method Unit} (h : Behind s log)
    (ha : Disciplined (s, log) a) (hstep : (threads T).step s a = some s') :
    Behind s' (log ++ obs queueSingleton s a) := by
  have hm := step_moves hstep
  exact ⟨linear_moves h.linear hm, counted_moves h.enqueues hm,
    counted_moves h.dequeues hm, tally_obs ha h.behind hm⟩

/-- Threads that only move on call nothing. -/
private theorem Behind.run {acts : List (Act T Method Unit)}
    (h : Behind s log) (hmoves : ∀ a ∈ acts, Act.isMove a = true)
    (hrun : (threads T).run s acts = some s') : ∃ log', Behind s' log' := by
  induction acts generalizing s log with
  | nil =>
      simp only [System.run, Option.some.injEq] at hrun
      exact ⟨log, hrun ▸ h⟩
  | cons a rest ih =>
      obtain ⟨s₁, hstep, hrest⟩ := System.run_cons_eq_some.mp hrun
      obtain ⟨ha, htail⟩ := List.forall_mem_cons.mp hmoves
      refine ih (behind_moves h ?_ hstep) htail hrest
      cases a with
      | call t m => cases ha
      | move t c => trivial

/-- Nobody stands before the `front` or the `pop` of an empty queue. -/
theorem Behind.defined (h : Behind s log) {t : T} {m : Method}
    {place : Place} (hpc : s.pc t = .body m place) :
    (queueSingleton.move s.shared place ()).isSome = true := by
  obtain ⟨q, hlegal, hreaches⟩ := h.linear.body t m place hpc
  have hruns := runs_of_reaches hreaches
  cases m with
  | enqueue v =>
      obtain ⟨rfl, -⟩ := hruns
      rfl
  | size =>
      obtain ⟨rfl, -⟩ := hruns
      rfl
  | dequeue =>
      cases place with
      | push v => exact hruns.elim
      | size => exact hruns.elim
      | pop v =>
          obtain ⟨hshared, rest, hq⟩ := hruns
          rw [hshared, hq]
          rfl
      | front =>
          have hshared : s.shared = q := hruns
          obtain ⟨hlaw, henq, hdeq⟩ := fifoQueue_law
            (fifoQueue_of_legal hlegal)
          have hlength := congrArg List.length hlaw
          rw [List.nil_append, List.length_append, ← henq, ← hdeq,
            ← tally_isDone, ← tally_isDone] at hlength
          have hone : 0 < census (Pc.beforeEffect Method.isDequeue) s.pc :=
            census_pos (i := t) (by rw [hpc]; rfl)
          have hcalled := h.dequeues.called
          have hdone := h.enqueues.done
          have hbehind := h.behind
          -- effects of `dequeue` < its calls ≤ returns ≤ effects of `enqueue`
          have hqueued : 0 < q.length := by omega
          rw [hshared]
          cases q with
          | nil => cases hqueued
          | cons v rest => rfl

/-- The calls a body has still to make. -/
def Place.rank : Place → Nat
  | .front => 1
  | _ => 0

theorem queueSingleton_measured :
    Measured queueSingleton Place.rank := by
  intro q q' place place' _ hmove
  cases place with
  | push v => simp [queueSingleton] at hmove
  | size => simp [queueSingleton] at hmove
  | pop v =>
      cases q with
      | nil => cases hmove
      | cons w q => simp [queueSingleton] at hmove
  | front =>
      cases q with
      | nil => cases hmove
      | cons w q =>
          simp only [queueSingleton, Option.some.injEq, Prod.mk.injEq,
            Sum.inl.injEq] at hmove
          rw [← hmove.2]
          exact Nat.zero_lt_one

/-- In every run whose `dequeue`s are called only while fewer of them were
called than `enqueue`s have returned, no `front` or `pop` is of an empty
queue; and from where it ends, without new calls, there is a bound on the
steps left, and where none is left every method has returned. -/
theorem queue_disciplined {acts : List (Act T Method Unit)}
    (hmeets : ((threads T).withLog (obs queueSingleton)).Meets Disciplined
      ((threads T).init, []) acts)
    (hrun : ((threads T).withLog (obs queueSingleton)).run
      ((threads T).init, []) acts = some (s, log)) :
    (∀ t m place, s.pc t = .body m place →
        (queueSingleton.move s.shared place ()).isSome = true)
      ∧ ∀ acts' s', (∀ a ∈ acts', Act.isMove a = true) →
        (threads T).run s acts' = some s' →
        acts'.length ≤ work queueSingleton Place.rank s
          ∧ ((∀ t, (threads T).step s' (.move t ()) = none) →
            ∀ t, s'.pc t = .idle) := by
  have hbehind : Behind s log := by
    have hvia := System.ReachableVia.init.run hmeets hrun
    refine System.ReachableVia.invariant
      (I := fun sl => Behind sl.1 sl.2) ?_ ?_ hvia
    · exact ⟨linear_init, counted_init queueSingleton [],
        counted_init queueSingleton [], Nat.le_refl 0⟩
    · rintro ⟨s, log⟩ a ⟨s', log'⟩ - h ha hstep
      obtain ⟨hs', rfl⟩ := System.withLog_step.mp hstep
      exact behind_moves h ha hs'
  refine ⟨fun t m place hpc => hbehind.defined hpc, ?_⟩
  intro acts' s' hmoves hrun'
  have hreach : (threads T).Reachable s :=
    System.reachable_iff_run.mpr ⟨acts, (System.withLog_run.mp hrun).1⟩
  obtain ⟨hbound, hstops⟩ := locked_finishes queueSingleton_measured hreach
    (System.meets_of_forall hmoves) hrun'
  refine ⟨hbound, ?_⟩
  intro hstuck
  rcases hstops fun t _ => hstuck t with hidle | ⟨t, m, place, hpc, hnone⟩
  · exact hidle
  · obtain ⟨log', hbehind'⟩ := hbehind.run hmoves hrun'
    have hdefined := hbehind'.defined hpc
    rw [show () = default from rfl, hnone] at hdefined
    cases hdefined

/-- A consumer whose `dequeue` is called before the second `enqueue`, but
after the first has returned. -/
def oneAhead : List (Act Bool Method Unit) :=
  [.call false (.enqueue 7), .move false (), .move false (), .move false (),
    .call true .dequeue, .call false (.enqueue 8), .move true (),
    .move true ()]

/-- The theorem at that run: both finish from there. -/
theorem queue_disciplined_one_ahead :
    ∃ (acts : List (Act Bool Method Unit)) (s s' : State Bool (List Int)
        Method Place (Option Int)),
      (threads Bool).run (threads Bool).init oneAhead = some s
        ∧ (∀ t m place, s.pc t = .body m place →
          (queueSingleton.move s.shared place ()).isSome = true)
        ∧ (threads Bool).run s acts = some s'
        ∧ acts.length = 5
        ∧ acts.length ≤ work queueSingleton Place.rank s
        ∧ ((∀ t, (threads Bool).step s' (.move t ()) = none) →
          ∀ t, s'.pc t = .idle) := by
  have hmeets : ((threads Bool).withLog (obs queueSingleton)).Meets
      Disciplined ((threads Bool).init, []) oneAhead := by decide
  obtain ⟨s', hall⟩ := Option.isSome_iff_exists.mp
    (by decide : ((threads Bool).run (threads Bool).init
      (oneAhead ++ (List.replicate 2 (.move true ())
        ++ List.replicate 3 (.move false ())))).isSome = true)
  obtain ⟨s, hs, hrun⟩ := System.run_append_eq_some.mp hall
  obtain ⟨hdefined, hfinish⟩ := queue_disciplined hmeets
    (System.withLog_run.mpr ⟨hs, rfl⟩)
  obtain ⟨hbound, hstops⟩ := hfinish _ s' (by decide) hrun
  exact ⟨_, s, s', hs, hdefined, hrun, rfl, hbound, hstops⟩

end DailyStudy.Queue
