/-
An object behind one lock: every operation takes the lock, runs its body
step by step, and gives the lock back. Any number of threads call any
operations; every step is one of some thread.

The object is what its operations do step by step (`Object`); `none` is a
step that the language does not define. `locked` is the system of its
callers.

# Linearizability

The end of its body is where an operation takes effect. In every
interleaving (`locked_linearizable`) the operations, in the order of these
ends, are a sequential history of the object: each body ran from the state
the one before it left (`Legal`). And of every single thread the events are
calls, ends and returns, in turn: each operation takes effect once, between
its call and its return, with the result it returns.

# Termination

Where the bodies end (`Measured`), calls end: without new calls there are
at most `Locked.work` steps, and where none is left, every call has returned
or a body stands before an undefined step (`locked_finishes`).
-/
import DailyStudy.Lib.System
import DailyStudy.Lib.Owner
import DailyStudy.Lib.Census

namespace Interleave

-- ================================================================== the object

/-- An object: where the body of an operation starts, and its steps. A
step leads on in the body, or ends it with a result; `C` is what the
environment decides in it. -/
structure Object (S Op L Res C : Type*) where
  start : Op → L
  move : S → L → C → Option (S × (L ⊕ Res))

variable {ι S Op L Res C : Type*}

/-- The body, from a place in it, comes to another or to its end. -/
inductive Object.Reaches (o : Object S Op L Res C) :
    S → L → S → L ⊕ Res → Prop
  | refl {s : S} {l : L} : o.Reaches s l s (.inl l)
  | tail {s s' s'' : S} {l l' : L} {x : L ⊕ Res} {c : C} :
      o.Reaches s l s' (.inl l') → o.move s' l' c = some (s'', x) →
      o.Reaches s l s'' x

/-- A sequential history: the operations, each with its result, one whole
body after the other. -/
inductive Object.Legal (o : Object S Op L Res C) (s : S) :
    List (Op × Res) → S → Prop
  | nil : o.Legal s [] s
  | snoc {h : List (Op × Res)} {s' s'' : S} {op : Op} {res : Res} :
      o.Legal s h s' → o.Reaches s' (o.start op) s'' (.inr res) →
      o.Legal s (h ++ [(op, res)]) s''

-- ================================================================== the system

namespace Locked

/-- Where a thread stands in an operation. -/
inductive Pc (Op L Res : Type*)
  | idle
  | lock (op : Op)
  | body (op : Op) (place : L)
  | unlock (op : Op) (res : Res)
  deriving DecidableEq, Repr

/-- The object's state, the owner of the lock, and the threads. -/
structure State (ι S Op L Res : Type*) where
  shared : S
  mutex : Option ι
  pc : ι → Pc Op L Res

/-- What the scheduler picks: a thread to call an operation, or a thread
to move. -/
inductive Act (ι Op C : Type*)
  | call (i : ι) (op : Op)
  | move (i : ι) (c : C)

/-- What an observer sees of an operation: the call, the end of the body
and the return. -/
inductive Event (Op Res : Type*)
  | called (op : Op)
  | done (op : Op) (res : Res)
  | returned (op : Op) (res : Res)
  deriving DecidableEq, Repr

variable [DecidableEq ι]

/-- Thread `i` goes on at `pc`. -/
def State.goto (s : State ι S Op L Res) (i : ι) (pc : Pc Op L Res) :
    State ι S Op L Res :=
  { s with pc := Function.update s.pc i pc }

/-- One step of one thread. -/
def step (o : Object S Op L Res C) (s : State ι S Op L Res) :
    Act ι Op C → Option (State ι S Op L Res)
  | .call i op =>
      match s.pc i with
      | .idle => some (s.goto i (.lock op))
      | _ => none
  | .move i c =>
      match s.pc i with
      | .idle => none
      | .lock op =>
          match s.mutex with
          | none => some ({ s with mutex := some i }.goto i
              (.body op (o.start op)))
          | some _ => none
      | .body op place =>
          match o.move s.shared place c with
          | some (shared, .inl place) =>
              some ({ s with shared := shared }.goto i (.body op place))
          | some (shared, .inr res) =>
              some ({ s with shared := shared }.goto i (.unlock op res))
          | none => none
      | .unlock _ _ => some ({ s with mutex := none }.goto i .idle)

/-- What a step is observed to do, and by whom. -/
def obs (o : Object S Op L Res C) (s : State ι S Op L Res) :
    Act ι Op C → List (ι × Event Op Res)
  | .call i op => [(i, .called op)]
  | .move i c =>
      match s.pc i with
      | .body op place =>
          match o.move s.shared place c with
          | some (_, .inr res) => [(i, .done op res)]
          | _ => []
      | .unlock op res => [(i, .returned op res)]
      | _ => []

end Locked

open Locked

variable [DecidableEq ι]

/-- The threads `ι` around an object that starts in `s₀`. -/
def locked (ι : Type*) [DecidableEq ι] (o : Object S Op L Res C) (s₀ : S) :
    System (Locked.State ι S Op L Res) (Locked.Act ι Op C) where
  init := ⟨s₀, none, fun _ => .idle⟩
  step := Locked.step o

namespace Locked

variable {o : Object S Op L Res C} {s s' : State ι S Op L Res}

/-- The steps, one constructor for each, with what is observed. -/
inductive Moves (o : Object S Op L Res C) (s : State ι S Op L Res) :
    Act ι Op C → State ι S Op L Res → List (ι × Event Op Res) → Prop
  | call {i : ι} {op : Op} (hpc : s.pc i = .idle) :
      Moves o s (.call i op) (s.goto i (.lock op)) [(i, .called op)]
  | lock {i : ι} {c : C} {op : Op} (hpc : s.pc i = .lock op)
      (hfree : s.mutex = none) :
      Moves o s (.move i c)
        ({ s with mutex := some i }.goto i (.body op (o.start op))) []
  | body {i : ι} {c : C} {op : Op} {place place' : L} {shared : S}
      (hpc : s.pc i = .body op place)
      (hmove : o.move s.shared place c = some (shared, .inl place')) :
      Moves o s (.move i c)
        ({ s with shared := shared }.goto i (.body op place')) []
  | done {i : ι} {c : C} {op : Op} {place : L} {shared : S} {res : Res}
      (hpc : s.pc i = .body op place)
      (hmove : o.move s.shared place c = some (shared, .inr res)) :
      Moves o s (.move i c)
        ({ s with shared := shared }.goto i (.unlock op res))
        [(i, .done op res)]
  | unlock {i : ι} {c : C} {op : Op} {res : Res}
      (hpc : s.pc i = .unlock op res) :
      Moves o s (.move i c) ({ s with mutex := none }.goto i .idle)
        [(i, .returned op res)]

/-- Every step is one of them. -/
theorem step_moves {a : Act ι Op C} (h : step o s a = some s') :
    Moves o s a s' (obs o s a) := by
  cases a with
  | call i op =>
      cases hpc : s.pc i with
      | idle =>
          simp only [step, hpc, Option.some.injEq] at h
          exact h ▸ .call hpc
      | _ => simp [step, hpc] at h
  | move i c =>
      cases hpc : s.pc i with
      | idle => simp [step, hpc] at h
      | lock op =>
          cases hfree : s.mutex with
          | none =>
              simp only [step, hpc, hfree, Option.some.injEq] at h
              simp only [obs, hpc]
              exact h ▸ .lock hpc hfree
          | some u => simp [step, hpc, hfree] at h
      | body op place =>
          rcases hmove : o.move s.shared place c with _ | ⟨shared, x⟩
          · simp [step, hpc, hmove] at h
          · cases x with
            | inl place' =>
                simp only [step, hpc, hmove, Option.some.injEq] at h
                simp only [obs, hpc, hmove]
                exact h ▸ .body hpc hmove
            | inr res =>
                simp only [step, hpc, hmove, Option.some.injEq] at h
                simp only [obs, hpc, hmove]
                exact h ▸ .done hpc hmove
      | unlock op res =>
          simp only [step, hpc, Option.some.injEq] at h
          simp only [obs, hpc]
          exact h ▸ .unlock hpc

-- ============================================================= linearizability

/-- The operations that took effect, in order. -/
def effects (log : List (ι × Event Op Res)) : List (Op × Res) :=
  log.filterMap fun e =>
    match e.2 with
    | .done op res => some (op, res)
    | _ => none

/-- The events of one thread. -/
def eventsOf (i : ι) (log : List (ι × Event Op Res)) :
    List (Event Op Res) :=
  (log.filter fun e => e.1 = i).map Prod.snd

/-- The events of a whole operation. -/
def whole (op : Op × Res) : List (Event Op Res) :=
  [.called op.1, .done op.1 op.2, .returned op.1 op.2]

/-- The events so far of the operation a thread is in. -/
def Pc.events : Pc Op L Res → List (Event Op Res)
  | .idle => []
  | .lock op | .body op _ => [.called op]
  | .unlock op res => [.called op, .done op res]

/-- The thread has the lock. -/
def Pc.inside : Pc Op L Res → Bool
  | .body _ _ | .unlock _ _ => true
  | _ => false

/-- The thread is in its body. -/
def Pc.inBody : Pc Op L Res → Bool
  | .body _ _ => true
  | _ => false

omit [DecidableEq ι] in
theorem effects_append (log es : List (ι × Event Op Res)) :
    effects (log ++ es) = effects log ++ effects es := List.filterMap_append

theorem eventsOf_append (i : ι) (log es : List (ι × Event Op Res)) :
    eventsOf i (log ++ es) = eventsOf i log ++ eventsOf i es := by
  rw [eventsOf, List.filter_append, List.map_append]
  rfl

theorem eventsOf_self (i : ι) (es : List (Event Op Res)) :
    eventsOf i (es.map fun e => (i, e)) = es := by
  induction es with
  | nil => rfl
  | cons e es ih =>
      rw [List.map_cons, eventsOf, List.filter_cons_of_pos (by simp),
        List.map_cons]
      exact congrArg (e :: ·) ih

theorem eventsOf_other {i j : ι} (hj : j ≠ i) (es : List (Event Op Res)) :
    eventsOf j (es.map fun e => (i, e)) = [] := by
  simp [eventsOf, hj.symm]

/-- The lock has the one owner, the operations that took effect are a
sequential history, and the body inside, if there is one, runs from the
state it left. -/
structure Linear (o : Object S Op L Res C) (s₀ : S)
    (s : State ι S Op L Res) (log : List (ι × Event Op Res)) : Prop where
  owns : Owns Pc.inside s.mutex s.pc
  rest : (∀ i, (s.pc i).inBody = false) →
    o.Legal s₀ (effects log) s.shared
  body : ∀ i op place, s.pc i = .body op place →
    ∃ m, o.Legal s₀ (effects log) m
      ∧ o.Reaches m (o.start op) s.shared (.inl place)
  threads : ∀ i, ∃ ops : List (Op × Res),
    eventsOf i log = ops.flatMap whole ++ (s.pc i).events

variable {s₀ : S} {log es : List (ι × Event Op Res)}

theorem linear_init : Linear o s₀ (locked ι o s₀).init [] where
  owns := owns_const rfl
  rest _ := .nil
  body _ _ _ h := by cases h
  threads _ := ⟨[], rfl⟩

/-- The events of the threads after one of them moved. -/
private theorem Linear.threads_goto (h : Linear o s₀ s log) {i : ι}
    {p : Pc Op L Res} (es : List (Event Op Res))
    (hevents : ∃ ops : List (Op × Res),
      (s.pc i).events ++ es = ops.flatMap whole ++ p.events) (j : ι) :
    ∃ ops : List (Op × Res),
      eventsOf j (log ++ es.map fun e => (i, e))
        = ops.flatMap whole ++ (Function.update s.pc i p j).events := by
  obtain ⟨ops, hops⟩ := h.threads j
  rw [eventsOf_append]
  by_cases hj : j = i
  · subst hj
    obtain ⟨ops', hops'⟩ := hevents
    refine ⟨ops ++ ops', ?_⟩
    rw [eventsOf_self, hops, List.append_assoc, hops', Function.update_self,
      List.flatMap_append, List.append_assoc]
  · refine ⟨ops, ?_⟩
    rw [eventsOf_other hj, List.append_nil, hops, Function.update_of_ne hj]

/-- While one thread is inside, no other is in its body. -/
private theorem Linear.alone (h : Linear o s₀ s log) {i j : ι}
    (hin : (s.pc i).inside = true) (hj : j ≠ i) :
    (s.pc j).inBody = false := by
  cases hpc : s.pc j with
  | body op place =>
      exact absurd (h.owns.unique (by rw [hpc]; rfl) hin) hj
  | _ => rfl

/-- A thread that goes to a place in its body is in it. -/
private theorem rest_of {pc : Pc Op L Res} {i : ι}
    (hpc : pc.inBody = true) :
    ¬ ∀ j, (Function.update s.pc i pc j).inBody = false := by
  intro hall
  have hi := hall i
  rw [Function.update_self, hpc] at hi
  cases hi

/-- Every step keeps the history. -/
theorem linear_moves {a : Act ι Op C} (h : Linear o s₀ s log)
    (hm : Moves o s a s' es) : Linear o s₀ s' (log ++ es) := by
  cases hm with
  | @call i op hpc =>
      refine ⟨h.owns.stay hpc rfl, ?_, ?_, ?_⟩
      · intro hout
        rw [effects_append]
        refine (List.append_nil _).symm ▸ h.rest fun j => ?_
        have hview : ((s.goto i (.lock op)).pc j).inBody
            = (s.pc j).inBody := by
          apply view_update Pc.inBody hpc
          rfl
        rw [← hview]
        exact hout j
      · intro j op' place hbody
        obtain ⟨-, hbody'⟩ := of_update_eq hbody (by simp)
        rw [effects_append]
        exact (List.append_nil _).symm ▸ h.body j op' place hbody'
      · apply h.threads_goto [.called op]
        exact ⟨[], by rw [hpc]; rfl⟩
  | @lock i c op hpc hfree =>
      rw [List.append_nil]
      have hfree' := h.owns
      rw [hfree] at hfree'
      refine ⟨hfree'.acquire rfl rfl, ?_, ?_, ?_⟩
      · exact fun hout => absurd hout (rest_of rfl)
      · intro j op' place hbody
        have hrest : ∀ k, (s.pc k).inBody = false := by
          intro k
          have hk := hfree'.free k
          cases hpck : s.pc k with
          | body op'' place' =>
              rw [hpck] at hk
              cases hk
          | _ => rfl
        rcases view_cases id hbody with ⟨-, hnew⟩ | ⟨hj, hold⟩
        · cases hnew
          exact ⟨s.shared, h.rest hrest, .refl⟩
        · have hout := hrest j
          rw [show s.pc j = .body op' place from hold] at hout
          cases hout
      · have hthreads := h.threads_goto (i := i)
          (p := .body op (o.start op)) [] ⟨[], by rw [hpc]; rfl⟩
        rw [List.map_nil, List.append_nil] at hthreads
        exact hthreads
  | @body i c op place place' shared hpc hmove =>
      rw [List.append_nil]
      refine ⟨h.owns.stay hpc rfl, ?_, ?_, ?_⟩
      · exact fun hout => absurd hout (rest_of rfl)
      · intro j op' place'' hbody
        rcases view_cases id hbody with ⟨-, hnew⟩ | ⟨hj, hold⟩
        · cases hnew
          obtain ⟨m, hlegal, hreaches⟩ := h.body i op place hpc
          exact ⟨m, hlegal, hreaches.tail hmove⟩
        · have hout := h.alone (i := i) (by rw [hpc]; rfl) hj
          rw [show s.pc j = .body op' place'' from hold] at hout
          cases hout
      · have hthreads := h.threads_goto (i := i)
          (p := .body op place') [] ⟨[], by rw [hpc]; rfl⟩
        rw [List.map_nil, List.append_nil] at hthreads
        exact hthreads
  | @done i c op place shared res hpc hmove =>
      have hin : (s.pc i).inside = true := by rw [hpc]; rfl
      refine ⟨h.owns.stay hpc rfl, ?_, ?_, ?_⟩
      · intro _
        obtain ⟨m, hlegal, hreaches⟩ := h.body i op place hpc
        rw [effects_append]
        exact hlegal.snoc (hreaches.tail hmove)
      · intro j op' place' hbody
        obtain ⟨hj, hold⟩ := of_update_eq hbody (by simp)
        have hout := h.alone hin hj
        rw [hold] at hout
        cases hout
      · apply h.threads_goto [.done op res]
        exact ⟨[], by rw [hpc]; rfl⟩
  | @unlock i c op res hpc =>
      have hin : (s.pc i).inside = true := by rw [hpc]; rfl
      refine ⟨h.owns.release hpc rfl rfl, ?_, ?_, ?_⟩
      · intro _
        rw [effects_append]
        refine (List.append_nil _).symm ▸ h.rest fun j => ?_
        by_cases hj : j = i
        · rw [hj, hpc]
          rfl
        · exact h.alone hin hj
      · intro j op' place' hbody
        obtain ⟨hj, hold⟩ := of_update_eq hbody (by simp)
        have hout := h.alone hin hj
        rw [hold] at hout
        cases hout
      · apply h.threads_goto [.returned op res]
        exact ⟨[(op, res)], by rw [hpc]; rfl⟩

/-- After every run. -/
theorem linear_run {acts : List (Act ι Op C)}
    (hrun : (locked ι o s₀).run (locked ι o s₀).init acts = some s) :
    Linear o s₀ s
      ((locked ι o s₀).trace (obs o) (locked ι o s₀).init acts) :=
  System.trace_invariant (I := fun s log => Linear o s₀ s log)
    (fun h hstep => linear_moves h (step_moves hstep)) linear_init hrun

/-- In every interleaving the operations that took effect are a sequential
history, which ends in the object's state unless a body is running; and of
every thread the events are whole operations, each call with its effect
and its return, and then those of the operation it is in. -/
theorem locked_linearizable {acts : List (Act ι Op C)}
    (hrun : (locked ι o s₀).run (locked ι o s₀).init acts = some s) :
    (∃ m, o.Legal s₀
        (effects ((locked ι o s₀).trace (obs o) (locked ι o s₀).init acts)) m
      ∧ ((∀ i, (s.pc i).inBody = false) → m = s.shared))
    ∧ ∀ i, ∃ ops : List (Op × Res),
      eventsOf i ((locked ι o s₀).trace (obs o) (locked ι o s₀).init acts)
        = ops.flatMap whole ++ (s.pc i).events := by
  have hl := linear_run hrun
  refine ⟨?_, hl.threads⟩
  by_cases hout : ∀ i, (s.pc i).inBody = false
  · exact ⟨s.shared, hl.rest hout, fun _ => rfl⟩
  · obtain ⟨i, hi⟩ := not_forall.mp hout
    cases hpc : s.pc i with
    | body op place =>
        obtain ⟨m, hlegal, -⟩ := hl.body i op place hpc
        exact ⟨m, hlegal, fun hall => absurd hall hout⟩
    | idle => simp [hpc, Pc.inBody] at hi
    | lock op => simp [hpc, Pc.inBody] at hi
    | unlock op res => simp [hpc, Pc.inBody] at hi

-- ================================================================= the counts

section Counts

variable (p : Op → Bool)

/-- The event is the call of an operation of the kind. -/
def Event.isCall : Event Op Res → Bool
  | .called op => p op
  | _ => false

/-- The event is the effect of an operation of the kind. -/
def Event.isDone : Event Op Res → Bool
  | .done op _ => p op
  | _ => false

/-- The event is the return of an operation of the kind. -/
def Event.isReturn : Event Op Res → Bool
  | .returned op _ => p op
  | _ => false

/-- The thread is in an operation of the kind that has no effect yet. -/
def Pc.beforeEffect : Pc Op L Res → Bool
  | .lock op | .body op _ => p op
  | _ => false

/-- The thread is in an operation of the kind that has had its effect. -/
def Pc.afterEffect : Pc Op L Res → Bool
  | .unlock op _ => p op
  | _ => false

/-- How many of the events so far are of a sort. -/
def tally (q : Event Op Res → Bool) (log : List (ι × Event Op Res)) : Nat :=
  log.countP fun e => q e.2

omit [DecidableEq ι] in
theorem tally_concat (q : Event Op Res → Bool)
    (log : List (ι × Event Op Res)) (i : ι) (e : Event Op Res) :
    tally q (log ++ [(i, e)]) = tally q log + (q e).toNat := by
  exact System.countP_concat _ log (i, e)

omit [DecidableEq ι] in
/-- The effects of a kind, counted in the history. -/
theorem tally_isDone (log : List (ι × Event Op Res)) :
    tally (Event.isDone p) log = (effects log).countP fun e => p e.1 := by
  induction log with
  | nil => rfl
  | cons e log ih =>
      obtain ⟨i, e⟩ := e
      rw [tally, List.countP_cons, ← tally, ih]
      cases e with
      | called op => rfl
      | returned op res => rfl
      | done op res =>
          have heffects : effects ((i, Event.done op res) :: log)
              = (op, res) :: effects log := rfl
          rw [heffects, List.countP_cons]
          rfl

variable [Fintype ι]

/-- Of every kind: the operations called are those that took effect and
those on their way there; the ones that took effect are those that
returned and those about to. -/
structure Counted (s : State ι S Op L Res)
    (log : List (ι × Event Op Res)) : Prop where
  called : tally (Event.isCall p) log
    = tally (Event.isDone p) log + census (Pc.beforeEffect p) s.pc
  done : tally (Event.isDone p) log
    = tally (Event.isReturn p) log + census (Pc.afterEffect p) s.pc

variable {p}

theorem counted_init (o : Object S Op L Res C) (s₀ : S) :
    Counted p (locked ι o s₀).init [] where
  called := by
    have hzero : census (Pc.beforeEffect p) (locked ι o s₀).init.pc = 0 :=
      census_const rfl
    rw [hzero]
    rfl
  done := by
    have hzero : census (Pc.afterEffect p) (locked ι o s₀).init.pc = 0 :=
      census_const rfl
    rw [hzero]
    rfl

/-- Every step keeps the counts. -/
theorem counted_moves {a : Act ι Op C} (h : Counted p s log)
    (hm : Moves o s a s' es) : Counted p s' (log ++ es) := by
  obtain ⟨hcalled, hdone⟩ := h
  cases hm with
  | @call i op hpc =>
      have hb := census_move (Pc.beforeEffect p) hpc (.lock op)
      have ha := census_move (Pc.afterEffect p) hpc (.lock op)
      refine ⟨?_, ?_⟩
      · rw [tally_concat, tally_concat]
        simp only [Pc.beforeEffect, Event.isCall, Event.isDone, State.goto,
          Bool.toNat_false] at hb ⊢
        omega
      · rw [tally_concat, tally_concat]
        simp only [Pc.afterEffect, Event.isDone, Event.isReturn, State.goto,
          Bool.toNat_false] at ha ⊢
        omega
  | @lock i c op hpc hfree =>
      have hb := census_move (Pc.beforeEffect p) hpc
        (.body op (o.start op))
      have ha := census_move (Pc.afterEffect p) hpc (.body op (o.start op))
      rw [List.append_nil]
      refine ⟨?_, ?_⟩
      · simp only [Pc.beforeEffect, State.goto] at hb ⊢
        omega
      · simp only [Pc.afterEffect, State.goto] at ha ⊢
        omega
  | @body i c op place place' shared hpc hmove =>
      have hb := census_move (Pc.beforeEffect p) hpc (.body op place')
      have ha := census_move (Pc.afterEffect p) hpc (.body op place')
      rw [List.append_nil]
      refine ⟨?_, ?_⟩
      · simp only [Pc.beforeEffect, State.goto] at hb ⊢
        omega
      · simp only [Pc.afterEffect, State.goto] at ha ⊢
        omega
  | @done i c op place shared res hpc hmove =>
      have hb := census_move (Pc.beforeEffect p) hpc (.unlock op res)
      have ha := census_move (Pc.afterEffect p) hpc (.unlock op res)
      refine ⟨?_, ?_⟩
      · rw [tally_concat, tally_concat]
        simp only [Pc.beforeEffect, Event.isCall, Event.isDone, State.goto,
          Bool.toNat_false] at hb ⊢
        omega
      · rw [tally_concat, tally_concat]
        simp only [Pc.afterEffect, Event.isDone, Event.isReturn, State.goto,
          Bool.toNat_false] at ha ⊢
        omega
  | @unlock i c op res hpc =>
      have hb := census_move (Pc.beforeEffect p) hpc .idle
      have ha := census_move (Pc.afterEffect p) hpc .idle
      refine ⟨?_, ?_⟩
      · rw [tally_concat, tally_concat]
        simp only [Pc.beforeEffect, Event.isCall, Event.isDone, State.goto,
          Bool.toNat_false] at hb ⊢
        omega
      · rw [tally_concat, tally_concat]
        simp only [Pc.afterEffect, Event.isDone, Event.isReturn, State.goto,
          Bool.toNat_false] at ha ⊢
        omega

end Counts

-- ================================================================= termination

/-- At most how many steps an operation has left, where `rank` bounds the
steps of a body. -/
def Pc.left (o : Object S Op L Res C) (rank : L → Nat) :
    Pc Op L Res → Nat
  | .idle => 0
  | .lock op => 3 + rank (o.start op)
  | .body _ place => 2 + rank place
  | .unlock _ _ => 1

/-- At most how many steps all the operations have left. -/
def work [Fintype ι] (o : Object S Op L Res C) (rank : L → Nat)
    (s : State ι S Op L Res) : Nat :=
  total (Pc.left o rank) s.pc

/-- A step of a thread in its operation. -/
def Act.isMove : Act ι Op C → Bool
  | .call _ _ => false
  | .move _ _ => true

/-- Every step inside takes the rank down. -/
def Measured (o : Object S Op L Res C) (rank : L → Nat) : Prop :=
  ∀ {s s' : S} {l l' : L} {c : C}, o.move s l c = some (s', .inl l') →
    rank l' < rank l

/-- Every step of an operation leaves less to do. -/
theorem work_lt [Fintype ι] {rank : L → Nat} (hrank : Measured o rank)
    {a : Act ι Op C} (hm : Moves o s a s' es) (ha : a.isMove = true) :
    work o rank s' < work o rank s := by
  cases hm with
  | call _ => cases ha
  | lock hpc _ =>
      apply total_lt hpc
      simp only [Pc.left]
      omega
  | body hpc hmove =>
      apply total_lt hpc
      have hlt := hrank hmove
      simp only [Pc.left]
      omega
  | done hpc _ =>
      apply total_lt hpc
      simp only [Pc.left]
      omega
  | unlock hpc =>
      apply total_lt hpc
      simp only [Pc.left]
      omega

/-- While some operation is not finished a thread can move, or the body
that has the lock stands before an undefined step. -/
theorem some_can_move (h : Owns Pc.inside s.mutex s.pc) {i : ι} (c : C)
    (hcall : s.pc i ≠ .idle) :
    ∃ j, (step o s (.move j c)).isSome = true
      ∨ ∃ op place, s.pc j = .body op place
        ∧ o.move s.shared place c = none := by
  have insider : ∀ j, (s.pc j).inside = true →
      (step o s (.move j c)).isSome = true
        ∨ ∃ op place, s.pc j = .body op place
          ∧ o.move s.shared place c = none := by
    intro j hj
    cases hpc : s.pc j with
    | idle => simp [hpc, Pc.inside] at hj
    | lock op => simp [hpc, Pc.inside] at hj
    | unlock op res => simp [step, hpc]
    | body op place =>
        rcases hmove : o.move s.shared place c with _ | ⟨shared, _ | _⟩
        · exact .inr ⟨op, place, rfl, hmove⟩
        · simp [step, hpc, hmove]
        · simp [step, hpc, hmove]
  refine h.exists_of_inside insider fun hfree => ⟨i, ?_⟩
  cases hpc : s.pc i with
  | idle => exact absurd hpc hcall
  | lock op => exact .inl (by simp [step, hpc, hfree])
  | body op place => exact hpc ▸ insider i (by rw [hpc]; rfl)
  | unlock op res => exact hpc ▸ insider i (by rw [hpc]; rfl)

/-- From every reachable state, whatever the scheduler picks: without new
calls there are at most `work` steps, and where no step is left, every
operation has returned or a body stands before an undefined step. -/
theorem locked_finishes [Fintype ι] [Inhabited C] {rank : L → Nat}
    (hrank : Measured o rank) {acts : List (Act ι Op C)}
    (hs : (locked ι o s₀).Reachable s)
    (hmoves : (locked ι o s₀).Meets (fun _ a => a.isMove = true) s acts)
    (hrun : (locked ι o s₀).run s acts = some s') :
    acts.length ≤ work o rank s
      ∧ ((∀ i c, (locked ι o s₀).step s' (.move i c) = none) →
        (∀ i, s'.pc i = .idle)
          ∨ ∃ i op place, s'.pc i = .body op place
            ∧ o.move s'.shared place default = none) := by
  have hends := (locked ι o s₀).finishes
    (I := (locked ι o s₀).Reachable) (μ := work o rank)
    (D := fun s => (∀ i, s.pc i = .idle)
      ∨ ∃ i op place, s.pc i = .body op place
        ∧ o.move s.shared place default = none)
    (fun hr ha hstep =>
      ⟨hr.step _ hstep, work_lt hrank (step_moves hstep) ha⟩)
    ?_ hs hmoves hrun
  · refine ⟨hends.1, fun hstuck => hends.2 ?_⟩
    intro a ha
    cases a with
    | call i op => cases ha
    | move i c => exact hstuck i c
  · intro s hr hleft
    obtain ⟨hall, hbody⟩ := not_or.mp hleft
    obtain ⟨i, hi⟩ := not_forall.mp hall
    obtain ⟨acts, hacts⟩ := System.reachable_iff_run.mp hr
    obtain ⟨j, hj | ⟨op, place, hj⟩⟩ :=
      some_can_move (linear_run hacts).owns (default : C) hi
    · exact ⟨.move j default, rfl, hj⟩
    · exact absurd ⟨j, op, place, hj⟩ hbody

end Locked

end Interleave
