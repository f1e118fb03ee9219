/-
One writer thread and one reader thread: the semaphore ring is a bounded
FIFO queue, in every interleaving.

A store is the `put` of its value and a load the `get` of what it finds.
With one thread on each side the stores and the loads happen in the order
of their tickets, so the tickets stored and not loaded are one window of
the ring, and what they hold is the queue (`Live`). The flow control says
where the window ends: a store finds room in it (`Flow.tickets`), a load
finds it nonempty (`Flow.readable`).

Seen by the callers: `Read` returns the values `Write` was called with,
in order, up to the values that are in a thread's hands or in the ring
(`single_refines_fifo`).
-/
import DailyStudy.Lib.Fifo
import DailyStudy.Sem.Proofs.Flow

namespace DailyStudy.Sem

open Interleave

variable {W R : Type}

-- ================================================================ observations

/-- The operation of the queue that the next step of a thread is. -/
def queueOps (s : State W R) : Act W R → List (QueueOp Int)
  | .write w =>
      match s.writer w with
      | .store value _ => [.put value]
      | _ => []
  | .read r =>
      match s.reader r with
      | .load ticket => [.get (s.mem.memory (slot numSlots ticket))]
      | _ => []
  | _ => []

/-- The values `Write` was called with, in order. -/
def passed (acts : List (Act W R)) : List Int :=
  acts.filterMap fun
    | .callWrite _ value => some value
    | _ => none

/-- The value a `Write` was called with and has not stored yet. -/
def WritePc.hand : WritePc → List Int
  | .wait value | .claim value | .store value _ => [value]
  | _ => []

/-- The value a `Read` has loaded and not returned yet. -/
def ReadPc.hand : ReadPc → List Int
  | .post value => [value]
  | _ => []

-- ============================================================== the simulation

/-- The tickets stored and not loaded yet hold the queue; a thread at its
slot has the newest ticket. -/
structure Single (s : State Unit Unit) (q : Fifo Int) : Prop where
  live : ∃ l, Flow s l ∧ l.count .loaded = q.taken
    ∧ Live s.mem.memory q.taken (l.count .stored) q.queue
  storing : ∀ v t, s.writer () = .store v t → t + 1 = s.mem.nextWriteSlot
  loading : ∀ t, s.reader () = .load t → t + 1 = s.mem.nextReadSlot

theorem single_init : Single (ring Unit Unit).init
    (boundedFifo Int numSlots).init where
  live := ⟨[], flow_init, rfl, live_nil _ _⟩
  storing _ _ h := by cases h
  loading _ h := by cases h

/-- A step that neither stores nor loads leaves the queue alone. -/
private theorem Single.quiet {s s' : State Unit Unit} {q : Fifo Int}
    {a : Act Unit Unit} {es : List Event} (h : Single s q)
    (hm : Moves s a s' es) (hstored : es.count .stored = 0)
    (hloaded : es.count .loaded = 0)
    (hmemory : s'.mem.memory = s.mem.memory)
    (hstoring : ∀ v t, s'.writer () = .store v t →
      t + 1 = s'.mem.nextWriteSlot)
    (hloading : ∀ t, s'.reader () = .load t →
      t + 1 = s'.mem.nextReadSlot) : Single s' q := by
  obtain ⟨l, hf, htaken, hlive⟩ := h.live
  refine ⟨⟨l ++ es, flow_moves hf hm, ?_, ?_⟩, hstoring, hloading⟩
  · rw [List.count_append, hloaded]
    exact htaken
  · rw [List.count_append, hstored, hmemory]
    exact hlive

/-- The store of the one writer is at the end of the window, and there is
room. -/
private theorem Single.store {s : State Unit Unit} {q : Fifo Int} {v : Int}
    {t : Nat} (h : Single s q) (hpc : s.writer () = .store v t) :
    q.queue.length < numSlots
      ∧ ∃ l, Flow s l ∧ l.count .loaded = q.taken ∧ t = l.count .stored
        ∧ Live s.mem.memory q.taken t q.queue := by
  obtain ⟨l, hf, htaken, hlive⟩ := h.live
  have hone : census WritePc.atStore s.writer = 1 := by
    simp [census, hpc, WritePc.atStore]
  have hwritten := hf.written
  have hnewest := h.storing v t hpc
  have hticket : t = l.count .stored := by omega
  have hroom := hf.tickets.2.2
  have hlength := hlive.length
  refine ⟨by omega, l, hf, htaken, hticket, ?_⟩
  rw [hticket]
  exact hlive

/-- The load of the one reader is at the start of the window, and there is
something in it. -/
private theorem Single.load {s : State Unit Unit} {q : Fifo Int} {t : Nat}
    (h : Single s q) (hpc : s.reader () = .load t) :
    t = q.taken ∧ q.queue ≠ []
      ∧ ∃ l, Flow s l ∧ l.count .loaded = q.taken
        ∧ Live s.mem.memory q.taken (l.count .stored) q.queue := by
  obtain ⟨l, hf, htaken, hlive⟩ := h.live
  have hone : census ReadPc.atLoad s.reader = 1 := by
    simp [census, hpc, ReadPc.atLoad]
  have hread := hf.read
  have hnewest := h.loading t hpc
  have hstored := hf.tickets.1
  have hlength := hlive.length
  refine ⟨by omega, ?_, l, hf, htaken, hlive⟩
  intro hnil
  rw [hnil, List.length_nil] at hlength
  omega

/-- Every step of the ring is no step of the queue, or the one that
`queueOps` names. -/
theorem single_moves {s s' : State Unit Unit} {q : Fifo Int}
    {a : Act Unit Unit} {es : List Event} (h : Single s q)
    (hm : Moves s a s' es) :
    ∃ q', (boundedFifo Int numSlots).run q (queueOps s a) = some q'
      ∧ Single s' q' := by
  cases hm with
  | callWrite hpc =>
      exact ⟨q, rfl, h.quiet (.callWrite hpc) rfl rfl rfl (by simp)
        h.loading⟩
  | waitWrite hpc hsem =>
      refine ⟨q, by simp [queueOps, hpc, System.run], ?_⟩
      exact h.quiet (.waitWrite hpc hsem) rfl rfl rfl (by simp) h.loading
  | @claimWrite w v hpc =>
      refine ⟨q, by simp [queueOps, hpc, System.run], ?_⟩
      refine h.quiet (.claimWrite hpc) rfl rfl rfl ?_ h.loading
      intro v' t' hstore
      have hpair : v = v' ∧ s.mem.nextWriteSlot = t' := by
        simpa using hstore
      exact congrArg (· + 1) hpair.2.symm
  | @store w v t hpc =>
      obtain ⟨hroom, l, hf, htaken, hticket, hlive⟩ := h.store hpc
      refine ⟨⟨q.taken, q.queue ++ [v]⟩, ?_, ?_⟩
      · simp only [queueOps, hpc]
        exact boundedFifo_put hroom
      · refine ⟨⟨l ++ [.stored], flow_moves hf (.store hpc), ?_, ?_⟩,
          by simp, h.loading⟩
        · rw [List.count_append]
          exact htaken
        · have hcount : (l ++ [Event.stored]).count .stored = t + 1 := by
            rw [hticket, List.count_append]
            rfl
          rw [hcount]
          exact hlive.push hroom v
  | postWrite hpc =>
      refine ⟨q, by simp [queueOps, hpc, System.run], ?_⟩
      exact h.quiet (.postWrite hpc) rfl rfl rfl (by simp) h.loading
  | callRead hpc =>
      exact ⟨q, rfl, h.quiet (.callRead hpc) rfl rfl rfl h.storing
        (by simp)⟩
  | waitRead hpc hsem =>
      refine ⟨q, by simp [queueOps, hpc, System.run], ?_⟩
      exact h.quiet (.waitRead hpc hsem) rfl rfl rfl h.storing (by simp)
  | claimRead hpc =>
      refine ⟨q, by simp [queueOps, hpc, System.run], ?_⟩
      refine h.quiet (.claimRead hpc) rfl rfl rfl h.storing ?_
      intro t' hload
      have ht : s.mem.nextReadSlot = t' := by simpa using hload
      exact congrArg (· + 1) ht.symm
  | @load r t hpc =>
      obtain ⟨rfl, hitem, l, hf, htaken, hlive⟩ := h.load hpc
      obtain ⟨n, _ | ⟨v, rest⟩⟩ := q
      · exact absurd rfl hitem
      · obtain ⟨hvalue, hrest⟩ := hlive.pop
        refine ⟨⟨n + 1, rest⟩, ?_, ?_⟩
        · simp only [queueOps, hpc]
          rw [hvalue]
          exact boundedFifo_get
        · refine ⟨⟨l ++ [.loaded], flow_moves hf (.load hpc), ?_, ?_⟩,
            h.storing, by simp⟩
          · rw [List.count_append]
            exact congrArg (· + 1) htaken
          · rw [List.count_append]
            exact hrest
  | postRead hpc =>
      refine ⟨q, by simp [queueOps, hpc, System.run], ?_⟩
      exact h.quiet (.postRead hpc) rfl rfl rfl h.storing (by simp)

/-- The forward simulation of the queue by the ring. -/
theorem single_simulation : System.Simulation (ring Unit Unit)
    (boundedFifo Int numSlots) queueOps Single where
  init := single_init
  step h hstep := single_moves h (step_moves hstep)

-- =================================================================== the hands

/-- One step: what was passed is put, or in the writer's hand. -/
private theorem puts_moves {s s' : State Unit Unit} {a : Act Unit Unit}
    {es : List Event} (hm : Moves s a s' es) :
    (s.writer ()).hand ++ passed [a]
      = puts (queueOps s a) ++ (s'.writer ()).hand := by
  cases hm with
  | callWrite hpc => simp [passed, queueOps, puts, hpc, WritePc.hand]
  | waitWrite hpc _ => simp [passed, queueOps, puts, hpc, WritePc.hand]
  | claimWrite hpc => simp [passed, queueOps, puts, hpc, WritePc.hand]
  | store hpc =>
      simp [passed, queueOps, puts, hpc, WritePc.hand, QueueOp.put?]
  | postWrite hpc => simp [passed, queueOps, puts, hpc, WritePc.hand]
  | callRead _ => simp [passed, queueOps, puts]
  | waitRead hpc _ => simp [passed, queueOps, puts, hpc]
  | claimRead hpc => simp [passed, queueOps, puts, hpc]
  | load hpc => simp [passed, queueOps, puts, hpc, QueueOp.put?]
  | postRead hpc => simp [passed, queueOps, puts, hpc]

/-- One step: what was got is returned, or in the reader's hand. -/
private theorem gets_moves {s s' : State Unit Unit} {a : Act Unit Unit}
    {es : List Event} (hm : Moves s a s' es) :
    (s.reader ()).hand ++ gets (queueOps s a)
      = returns es ++ (s'.reader ()).hand := by
  cases hm with
  | callWrite _ => simp [queueOps, gets, returns]
  | waitWrite hpc _ => simp [queueOps, gets, returns, hpc]
  | claimWrite hpc => simp [queueOps, gets, returns, hpc]
  | store hpc => simp [queueOps, gets, returns, hpc, QueueOp.get?]
  | postWrite hpc => simp [queueOps, gets, returns, hpc]
  | callRead hpc => simp [queueOps, gets, returns, hpc, ReadPc.hand]
  | waitRead hpc _ => simp [queueOps, gets, returns, hpc, ReadPc.hand]
  | claimRead hpc => simp [queueOps, gets, returns, hpc, ReadPc.hand]
  | load hpc => simp [queueOps, gets, returns, hpc, ReadPc.hand, QueueOp.get?]
  | postRead hpc => simp [queueOps, gets, returns, hpc, ReadPc.hand]

/-- Along a run, what was passed to `Write` is what was put and what is
still in the writer's hand; what was got is what `Read` returned and what
is still in the reader's. -/
private theorem hands_run {acts : List (Act Unit Unit)}
    {s t : State Unit Unit} (hrun : (ring Unit Unit).run s acts = some t) :
    (s.writer ()).hand ++ passed acts
        = puts ((ring Unit Unit).trace queueOps s acts) ++ (t.writer ()).hand
      ∧ (s.reader ()).hand ++ gets ((ring Unit Unit).trace queueOps s acts)
        = returns ((ring Unit Unit).trace obs s acts)
          ++ (t.reader ()).hand := by
  induction acts generalizing s with
  | nil =>
      simp only [System.run, Option.some.injEq] at hrun
      subst hrun
      simp [passed, System.trace, puts, gets, returns]
  | cons a rest ih =>
      obtain ⟨s', hstep, hrest⟩ := System.run_cons_eq_some.mp hrun
      have hm := step_moves hstep
      obtain ⟨hputs, hgets⟩ := ih hrest
      have hcons : passed (a :: rest) = passed [a] ++ passed rest :=
        List.filterMap_append (l := [a])
      have hputs' : ∀ ops, puts (queueOps s a ++ ops)
          = puts (queueOps s a) ++ puts ops := fun _ =>
        List.filterMap_append
      have hgets' : ∀ ops, gets (queueOps s a ++ ops)
          = gets (queueOps s a) ++ gets ops := fun _ =>
        List.filterMap_append
      have hreturns : ∀ es, returns (obs s a ++ es)
          = returns (obs s a) ++ returns es := fun _ => List.filterMap_append
      rw [System.trace_cons hstep, System.trace_cons hstep]
      refine ⟨?_, ?_⟩
      · rw [hcons, ← List.append_assoc, puts_moves hm, List.append_assoc,
          hputs, hputs', List.append_assoc]
      · rw [hgets', ← List.append_assoc, gets_moves hm, List.append_assoc,
          hgets, hreturns, List.append_assoc]

-- ================================================================== the result

/-- In every interleaving of one writer thread and one reader thread the
stores and loads are a run of the bounded FIFO queue, and the values
`Read` returned are the first of those `Write` was called with. -/
theorem single_refines_fifo {acts : List (Act Unit Unit)}
    {s : State Unit Unit}
    (hrun : (ring Unit Unit).run (ring Unit Unit).init acts = some s) :
    (∃ q, (boundedFifo Int numSlots).run (boundedFifo Int numSlots).init
        ((ring Unit Unit).trace queueOps (ring Unit Unit).init acts)
      = some q)
    ∧ returns ((ring Unit Unit).trace obs (ring Unit Unit).init acts)
        <+: passed acts := by
  obtain ⟨q, hq, -⟩ := single_simulation.run single_init hrun
  obtain ⟨hputs, hgets⟩ := hands_run hrun
  have hlaw := (fifo_law_init hq).1
  refine ⟨⟨q, hq⟩, ?_⟩
  change passed acts = _ at hputs
  change gets _ = _ at hgets
  rw [hputs, hlaw, hgets, List.append_assoc, List.append_assoc]
  exact List.prefix_append _ _

/-- The reader waits first; two `Write`s, and two `Read`s between their
steps. -/
def alternating : List (Act Unit Unit) :=
  [.callRead (), .callWrite () 7, .write (), .write (), .write (),
    .write (), .read (), .callWrite () 8, .read (), .write (), .read (),
    .write (), .read (), .callRead (), .write (), .write (), .read (),
    .read (), .read (), .read ()]

/-- The theorem at that run, which returns both values. -/
theorem single_refines_fifo_alternating :
    returns ((ring Unit Unit).trace obs (ring Unit Unit).init alternating)
        = [7, 8]
      ∧ returns ((ring Unit Unit).trace obs (ring Unit Unit).init
          alternating) <+: passed alternating := by
  obtain ⟨s, hrun⟩ := Option.isSome_iff_exists.mp
    (by decide : ((ring Unit Unit).run (ring Unit Unit).init
      alternating).isSome = true)
  exact ⟨by decide, (single_refines_fifo hrun).2⟩

end DailyStudy.Sem
