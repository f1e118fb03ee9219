/-
When the queue `CreateMQ` returns is a new one.

The exclusive `mq_open` either creates a queue or fails; the second one,
after the `mq_unlink`, takes what is bound to the name by then. A queue
that is bound was returned to the process that created it, in the very
step that bound it (or is older than the run), so taking it hands one
queue out twice: the returned queues are fresh exactly when every second
`mq_open` that succeeds finds the name unbound (`FindsUnbound`).
-/
import DailyStudy.CreateMq.Basic
import DailyStudy.Lib.Census

namespace DailyStudy.CreateMq

open Interleave

variable {N P : Type}

/-- Every queue `CreateMQ` returned was returned once, to the process that
created it, and carries no messages of another. -/
structure Fresh (s : State N P × List (P × Nat)) : Prop where
  distinct : (s.2.map Prod.snd).Nodup
  created : ∀ r ∈ s.2, (s.1.kernel.objects r.2).creator = some r.1
  unshared : ∀ r ∈ s.2, ∀ m ∈ (s.1.kernel.objects r.2).msgs,
    m.sender = some r.1

/-- The second `mq_open` of a call finds the name unbound, when it
succeeds. -/
def FindsUnbound (s : State N P × List (P × Nat)) : Act N P → Prop
  | .move p false =>
      match (s.1.procs p).pc with
      | .openCreate name => s.1.kernel.names name = none
      | _ => True
  | _ => True

instance (s : State N P × List (P × Nat)) (a : Act N P) :
    Decidable (FindsUnbound s a) := by
  unfold FindsUnbound
  split
  · split <;> infer_instance
  · infer_instance

-- =============================================================== the invariant

/-- The names are bound to existing queues, and every queue was returned
or is older than the run; the processes hold what was returned to them. -/
structure Known (s : State N P) (log : List (P × Nat)) : Prop where
  fresh : Fresh (s, log)
  bound : ∀ name id, s.kernel.names name = some id → id < s.kernel.next
  returned : ∀ id < s.kernel.next,
    id ∈ log.map Prod.snd ∨ (s.kernel.objects id).creator = none
  below : ∀ r ∈ log, r.2 < s.kernel.next
  held : ∀ p id, (s.procs p).myQueueId = some id → (p, id) ∈ log

variable [DecidableEq N] [DecidableEq P]

theorem known_init (stale : Stale N) :
    Known (processes N P stale).init [] where
  fresh := {
    distinct := List.nodup_nil
    created := nofun
    unshared := nofun }
  bound := stale.bound
  returned _ _ := .inr rfl
  below _ := nofun
  held _ _ := nofun

omit [DecidableEq N] [DecidableEq P] in
/-- Names are only unbound, and processes let go of queues: nothing else
changes. -/
private theorem Known.mono {s s' : State N P} {log : List (P × Nat)}
    (h : Known s log) (hobjects : s'.kernel.objects = s.kernel.objects)
    (hnext : s'.kernel.next = s.kernel.next)
    (hnames : ∀ name id, s'.kernel.names name = some id →
      s.kernel.names name = some id)
    (hheld : ∀ p id, (s'.procs p).myQueueId = some id →
      (s.procs p).myQueueId = some id) : Known s' log where
  fresh := {
    distinct := h.fresh.distinct
    created := by
      rw [hobjects]
      exact h.fresh.created
    unshared := by
      rw [hobjects]
      exact h.fresh.unshared }
  bound name id hid := by
    rw [hnext]
    exact h.bound name id (hnames name id hid)
  returned := by
    rw [hnext, hobjects]
    exact h.returned
  below := by
    rw [hnext]
    exact h.below
  held p id hid := h.held p id (hheld p id hid)

omit [DecidableEq N] in
/-- A process moves on with the queue it holds, or without. -/
private theorem held_set {s : State N P} {p : P} {id : Option Nat} {pc : Pc N}
    {k : Kernel N P} (hid : ∀ x, id = some x →
      (s.procs p).myQueueId = some x) :
    ∀ q x, ((s.set k p id pc).procs q).myQueueId = some x →
      (s.procs q).myQueueId = some x := by
  intro q x hx
  rcases view_cases Proc.myQueueId hx with ⟨rfl, hnew⟩ | ⟨-, hold⟩
  · exact hid x hnew
  · exact hold

/-- A created queue is fresh, and the queues returned before stay so. -/
private theorem Known.fresh_create {s : State N P} {log : List (P × Nat)}
    (h : Known s log) (p : P) (name : N) :
    Fresh (s.set (s.kernel.create p name) p (some s.kernel.next) .idle,
      log ++ [(p, s.kernel.next)]) where
  distinct := by
    show ((log ++ [(p, s.kernel.next)]).map Prod.snd).Nodup
    rw [List.map_append, List.map_singleton, ← List.concat_eq_append]
    apply h.fresh.distinct.concat
    intro hmem
    obtain ⟨r, hr, heq⟩ := List.mem_map.mp hmem
    exact Nat.ne_of_lt (h.below r hr) heq
  created := by
    intro r hr
    show ((s.kernel.create p name).objects r.2).creator = _
    rcases List.mem_append.mp hr with hlog | hlast
    · rw [Kernel.create_objects_of_lt (h.below r hlog)]
      exact h.fresh.created r hlog
    · obtain rfl := List.mem_singleton.mp hlast
      rw [Kernel.create_objects_next]
  unshared := by
    intro r hr
    show ∀ m ∈ ((s.kernel.create p name).objects r.2).msgs, _
    rcases List.mem_append.mp hr with hlog | hlast
    · rw [Kernel.create_objects_of_lt (h.below r hlog)]
      exact h.fresh.unshared r hlog
    · obtain rfl := List.mem_singleton.mp hlast
      rw [Kernel.create_objects_next]
      nofun

/-- A call of `CreateMQ` creates its queue. -/
private theorem Known.create {s : State N P} {log : List (P × Nat)}
    (h : Known s log) (p : P) (name : N) :
    Known (s.set (s.kernel.create p name) p (some s.kernel.next) .idle)
      (log ++ [(p, s.kernel.next)]) where
  fresh := h.fresh_create p name
  bound := by
    intro n id hid
    show id < s.kernel.next + 1
    rcases Kernel.names_of_create hid with rfl | hold
    · exact Nat.lt_succ_self _
    · exact Nat.lt_succ_of_lt (h.bound n id hold)
  returned := by
    intro id hid
    show id ∈ (log ++ [(p, s.kernel.next)]).map Prod.snd
      ∨ ((s.kernel.create p name).objects id).creator = none
    rw [List.map_append, List.mem_append]
    rcases Nat.lt_succ_iff_lt_or_eq.mp hid with hlt | rfl
    · rw [Kernel.create_objects_of_lt hlt]
      rcases h.returned id hlt with hmem | hstale
      · exact .inl (.inl hmem)
      · exact .inr hstale
    · exact .inl (.inr List.mem_cons_self)
  below := by
    intro r hr
    rcases List.mem_append.mp hr with hlog | hlast
    · exact Nat.lt_succ_of_lt (h.below r hlog)
    · obtain rfl := List.mem_singleton.mp hlast
      exact Nat.lt_succ_self _
  held := by
    intro q id hid
    rcases view_cases Proc.myQueueId hid with ⟨rfl, hself⟩ | ⟨-, hother⟩
    · obtain rfl := Option.some.inj hself
      exact List.mem_append_right _ List.mem_cons_self
    · exact List.mem_append_left _ (h.held q id hother)

omit [DecidableEq N] [DecidableEq P] in
/-- A process changes the messages of the queue it holds: to messages of
its own. -/
private theorem Known.setMsgs {s : State N P} {log : List (P × Nat)}
    (h : Known s log) {p : P} {id : Nat}
    (hid : (s.procs p).myQueueId = some id) {msgs : List (Message P)}
    (hmsgs : ∀ m ∈ msgs, m ∈ (s.kernel.objects id).msgs
      ∨ m.sender = some p) :
    Known { s with kernel := s.kernel.setMsgs id msgs } log where
  fresh := {
    distinct := h.fresh.distinct
    created := fun r hr =>
      (s.kernel.setMsgs_creator id msgs r.2).trans (h.fresh.created r hr)
    unshared := by
      intro r hr m hm
      by_cases hx : r.2 = id
      · -- the queue is the process' own
        have howner : some r.1 = some p := by
          rw [← h.fresh.created r hr, hx]
          exact h.fresh.created (p, id) (h.held p id hid)
        rw [hx, Kernel.setMsgs_objects_self] at hm
        rcases hmsgs m hm with hold | hself
        · exact h.fresh.unshared r hr m (hx ▸ hold)
        · rw [howner]
          exact hself
      · rw [Kernel.setMsgs_objects_of_ne hx] at hm
        exact h.fresh.unshared r hr m hm }
  bound := h.bound
  returned x hx := by
    rw [Kernel.setMsgs_creator]
    exact h.returned x hx
  below := h.below
  held := h.held

-- =============================================================== preservation

/-- Steps whose second `mq_open` finds its name unbound keep it all. -/
theorem known_moves {s s' : State N P} {log ret : List (P × Nat)}
    {a : Act N P} (h : Known s log) (hguard : FindsUnbound (s, log) a)
    (hm : Moves s a s' ret) : Known s' (log ++ ret) := by
  cases hm with
  | openExcl _ _ => exact h.create _ _
  | openNew _ _ => exact h.create _ _
  | openOld hpc hbound =>
      simp only [FindsUnbound, hpc] at hguard
      rw [hguard] at hbound
      cases hbound
  | createMQ _ =>
      rw [List.append_nil]
      refine h.mono rfl rfl (fun _ _ hid => hid) fun q x hx => ?_
      rcases view_cases Proc.myQueueId hx with ⟨rfl, hsame⟩ | ⟨-, hold⟩
      · exact hsame
      · exact hold
  | sendMsg hid =>
      rw [List.append_nil]
      apply h.setMsgs hid
      intro m hmem
      rcases List.mem_append.mp hmem with hold | hlast
      · exact .inl hold
      · obtain rfl := List.mem_singleton.mp hlast
        exact .inr rfl
  | getMsg hid hmsgs =>
      rw [List.append_nil]
      apply h.setMsgs hid
      intro m hmem
      rw [hmsgs]
      exact .inl (List.mem_cons_of_mem _ hmem)
  | destroy _ =>
      rw [List.append_nil]
      exact h.mono rfl rfl (fun _ _ hid => hid) (held_set fun _ hx => hx)
  | «exists» _ _ =>
      rw [List.append_nil]
      exact h.mono rfl rfl (fun _ _ hid => hid) (held_set nofun)
  | failExcl _ =>
      rw [List.append_nil]
      exact h.mono rfl rfl (fun _ _ hid => hid) (held_set nofun)
  | unlink _ =>
      rw [List.append_nil]
      exact h.mono rfl rfl (fun _ _ => Kernel.names_of_unlink)
        (held_set fun _ hx => hx)
  | failOpen _ =>
      rw [List.append_nil]
      exact h.mono rfl rfl (fun _ _ hid => hid) (held_set nofun)
  | unlinkName _ _ =>
      rw [List.append_nil]
      exact h.mono rfl rfl (fun _ _ => Kernel.names_of_unlink)
        (held_set fun _ hx => hx)
  | close _ =>
      rw [List.append_nil]
      exact h.mono rfl rfl (fun _ _ hid => hid) (held_set nofun)

omit [DecidableEq N] [DecidableEq P] in
/-- The guard fails at one kind of step. -/
private theorem taken_of_not_findsUnbound {s : State N P}
    {log : List (P × Nat)} {a : Act N P} (h : ¬ FindsUnbound (s, log) a) :
    ∃ p name id, a = .move p false ∧ (s.procs p).pc = .openCreate name
      ∧ s.kernel.names name = some id := by
  unfold FindsUnbound at h
  split at h
  next p =>
    split at h
    next name hpc =>
      obtain ⟨id, hid⟩ := Option.ne_none_iff_exists'.mp h
      exact ⟨p, name, id, rfl, hpc, hid⟩
    next => exact absurd trivial h
  next => exact absurd trivial h

/-- A second `mq_open` that takes a bound name hands out a queue that was
returned before, or one that is older than the run. -/
theorem not_fresh_moves {s s' : State N P} {log ret : List (P × Nat)}
    {a : Act N P} (h : Known s log) (hguard : ¬ FindsUnbound (s, log) a)
    (hm : Moves s a s' ret) : ¬ Fresh (s', log ++ ret) := by
  obtain ⟨p, name, id, rfl, hpc, hbound⟩ := taken_of_not_findsUnbound hguard
  cases hm with
  | openOld hpc' hbound' =>
      cases hpc.symm.trans hpc'
      cases hbound.symm.trans hbound'
      intro hfresh
      rcases h.returned id (h.bound name id hbound) with hmem | hstale
      · have hnodup : ((log ++ [(p, id)]).map Prod.snd).Nodup :=
          hfresh.distinct
        rw [List.map_append, List.nodup_append] at hnodup
        exact hnodup.2.2 id hmem id List.mem_cons_self rfl
      · have hself : (s.kernel.objects id).creator = some p :=
          hfresh.created (p, id)
            (List.mem_append_right _ List.mem_cons_self)
        rw [hstale] at hself
        cases hself
  | openNew hpc' hfree =>
      cases hpc.symm.trans hpc'
      cases hbound.symm.trans hfree
  | openExcl hpc' _ => cases hpc.symm.trans hpc'
  | «exists» hpc' _ => cases hpc.symm.trans hpc'
  | unlink hpc' => cases hpc.symm.trans hpc'
  | unlinkName hpc' _ => cases hpc.symm.trans hpc'
  | close hpc' => cases hpc.symm.trans hpc'

-- ==================================================================== the runs

/-- For any number of processes and names, whatever the kernel holds
before, and every interleaving of `CreateMQ`, `~MyQueue`, `SendMsg` and
`GetMsg`: the queues `CreateMQ` returned are fresh in every state of the
run exactly when every second `mq_open` that succeeds finds its name
unbound. -/
theorem queues_fresh_iff (stale : Stale N) {acts : List (Act N P)}
    {t : State N P × List (P × Nat)}
    (hrun : (logged N P stale).run (logged N P stale).init acts = some t) :
    (logged N P stale).Always Fresh (logged N P stale).init acts
      ↔ (logged N P stale).Meets FindsUnbound (logged N P stale).init acts := by
  apply System.withLog_always_iff_meets (I := Known)
  · exact Known.fresh
  · intro s log a s' hknown hguard hstep
    exact known_moves hknown hguard (step_moves hstep)
  · intro s log a s' hknown hguard hstep
    exact not_fresh_moves hknown hguard (step_moves hstep)
  · exact known_init stale
  · exact hrun

/-- A kernel that binds the one name to the queue of a process that is
gone, with a message in it. -/
def leftBehind : Stale Unit where
  names _ := some 0
  msgs _ := [[104]]
  count := 1
  bound _ id h := by
    obtain rfl := Option.some.inj h
    exact Nat.one_pos

/-- Both processes find the name bound; one replaces the queue and sends
into the new one before the other unlinks the name. -/
def inTurn : List (Act Unit Bool) :=
  [.createMQ false (), .createMQ true (), .move false false,
    .move true false, .move false false, .move false false,
    .sendMsg false [104], .move true false, .move true false]

/-- The theorem at that run. -/
theorem queues_fresh_in_turn :
    ((logged Unit Bool leftBehind).run (logged Unit Bool leftBehind).init
        inTurn).map Prod.snd = some [(false, 1), (true, 2)]
      ∧ (logged Unit Bool leftBehind).Always Fresh
        (logged Unit Bool leftBehind).init inTurn := by
  have hlog : ((logged Unit Bool leftBehind).run
      (logged Unit Bool leftBehind).init inTurn).map Prod.snd
      = some [(false, 1), (true, 2)] := by decide
  obtain ⟨t, hrun, -⟩ := Option.map_eq_some_iff.mp hlog
  exact ⟨hlog, (queues_fresh_iff leftBehind hrun).mpr (by decide)⟩

/-- Both processes find the name bound, both unlink it, and both open it. -/
def bothReplace : List (Act Unit Bool) :=
  [.createMQ false (), .createMQ true (), .move false false,
    .move true false, .move false false, .move true false,
    .move false false, .move true false]

/-- There both calls return the same queue. -/
theorem queue_returned_twice :
    ¬ ∀ s, (logged Unit Bool leftBehind).Reachable s → Fresh s := by
  intro hall
  obtain ⟨s, hrun, hlog⟩ := Option.map_eq_some_iff.mp
    (by decide : ((logged Unit Bool leftBehind).run
      (logged Unit Bool leftBehind).init bothReplace).map Prod.snd
      = some [(false, 1), (true, 1)])
  have hfresh := hall s (System.reachable_iff_run.mpr ⟨_, hrun⟩)
  have hnodup := hfresh.distinct
  rw [hlog] at hnodup
  exact absurd hnodup (by decide)

end DailyStudy.CreateMq
