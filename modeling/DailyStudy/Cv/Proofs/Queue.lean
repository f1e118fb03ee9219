/-
The condition-variable ring refines a bounded FIFO queue of capacity
`NUM_SLOTS`: two ever-growing tickets taken modulo the number of slots,
against a list.

# The simulation

`Abstracts` relates the shared memory to the queue, phase by phase. At
rest the live tickets ARE the queue (`Interleave.Live`). Inside the
critical section of a `Write` the ring runs ahead of the queue, which
gets the value when the mutex is released; inside that of a `Read` the
queue still has the value until then. The waits enter only as what their
predicates leave behind at the `claim` phase: room, or an item. However
a thread was woken, and whoever barged in before it, that is evaluated
under the mutex.
-/
import DailyStudy.Cv.Proofs.Exclusion

namespace DailyStudy.Cv

open Interleave

variable {W R : Type}

-- ========================================================= the abstraction

/-- The live tickets hold the queue, and the reader's ticket is the
number of values got. -/
def Rests (m : SharedMemory W R) (q : Fifo Int) : Prop :=
  q.taken = m.nextReadSlot
    ∧ Live m.memory m.nextReadSlot m.nextWriteSlot q.queue

/-- What the shared memory holds of the queue, by the phase of the
ring. -/
def Abstracts (m : SharedMemory W R) (q : Fifo Int) :
    WritePc ⊕ ReadPc → Prop
  | .inl (.claim _) => Rests m q ∧ q.queue.length < numSlots
  | .inl (.store _ t) =>
      q.taken = m.nextReadSlot ∧ m.nextWriteSlot = t + 1
        ∧ Live m.memory m.nextReadSlot t q.queue
        ∧ q.queue.length < numSlots
  | .inl (.notify v) | .inl (.unlock v) =>
      q.queue.length < numSlots ∧ Rests m ⟨q.taken, q.queue ++ [v]⟩
  | .inr .claim => Rests m q ∧ q.queue ≠ []
  | .inr (.load t) =>
      q.taken = t ∧ m.nextReadSlot = t + 1
        ∧ Live m.memory t m.nextWriteSlot q.queue ∧ q.queue ≠ []
  | .inr (.notify v) | .inr (.unlock v) =>
      ∃ rest, q.queue = v :: rest ∧ Rests m ⟨q.taken + 1, rest⟩
  | _ => Rests m q

/-- The simulation relation: the mutex is exclusive, and the phase tells
how the memory abstracts to the queue. -/
structure Refines (s : State W R) (q : Fifo Int) : Prop where
  exclusive : Exclusive s
  abstracts : Abstracts s.mem q (phase s)

/-- There is room when the writer's predicate holds. -/
theorem Rests.room_of_canWrite {m : SharedMemory W R} {q : Fifo Int}
    (h : Rests m q) (hpred : m.canWrite) : q.queue.length < numSlots := by
  have hlen := h.2.length
  unfold SharedMemory.canWrite at hpred
  omega

/-- There is an item when the reader's predicate holds. -/
theorem Rests.item_of_canRead {m : SharedMemory W R} {q : Fifo Int}
    (h : Rests m q) (hpred : m.canRead) : q.queue ≠ [] := by
  have hlen := h.2.length
  unfold SharedMemory.canRead at hpred
  intro hnil
  rw [hnil, List.length_nil] at hlen
  omega

-- ============================================================== the simulation

/-- A writer inside the critical section moves on in it: the queue stays,
and only the phase is another. -/
private theorem Refines.writer_moves {s s' : State W R} {q : Fifo Int}
    (hr : Refines s q) (hx' : Exclusive s') {w : W} {old new : WritePc}
    (hpc : s.writer w = old) (hpc' : s'.writer w = new)
    (hold : old.critical = true) (hnew : new.critical = true)
    (h : Abstracts s.mem q (.inl old) → Abstracts s'.mem q (.inl new)) :
    Refines s' q := by
  have hab := hr.abstracts
  rw [hr.exclusive.phase_writer hpc hold] at hab
  refine ⟨hx', ?_⟩
  rw [hx'.phase_writer hpc' hnew]
  exact h hab

/-- A reader inside the critical section moves on in it. -/
private theorem Refines.reader_moves {s s' : State W R} {q : Fifo Int}
    (hr : Refines s q) (hx' : Exclusive s') {r : R} {old new : ReadPc}
    (hpc : s.reader r = old) (hpc' : s'.reader r = new)
    (hold : old.critical = true) (hnew : new.critical = true)
    (h : Abstracts s.mem q (.inr old) → Abstracts s'.mem q (.inr new)) :
    Refines s' q := by
  have hab := hr.abstracts
  rw [hr.exclusive.phase_reader hpc hold] at hab
  refine ⟨hx', ?_⟩
  rw [hx'.phase_reader hpc' hnew]
  exact h hab

variable [DecidableEq W] [DecidableEq R]

/-- One step of the ring is no step of the queue, or the operation that
completes with it. -/
theorem refines_moves {s s' : State W R} {a : Act W R}
    {es : List (QueueOp Int)} {q : Fifo Int} (hr : Refines s q)
    (hm : Moves s a s' es) :
    ∃ q', (boundedFifo Int numSlots).run q es = some q' ∧ Refines s' q' := by
  have hx := hr.exclusive
  have hab := hr.abstracts
  have hx' := exclusive_moves hx hm
  cases hm with
  | callWrite hpc =>
      refine ⟨q, rfl, hx', ?_⟩
      rw [hx.phase_outside_writer hpc rfl]
      exact hab
  | lockWrite _ hfree =>
      refine ⟨q, rfl, hx', ?_⟩
      rw [phase_free hfree] at hab
      rw [hx'.phase_writer (Function.update_self ..) rfl]
      exact hab
  | passWrite hpc hpred =>
      refine ⟨q, rfl, ?_⟩
      apply hr.writer_moves hx' hpc (Function.update_self ..) rfl rfl
      intro hrests
      exact ⟨hrests, Rests.room_of_canWrite hrests hpred⟩
  | sleepWrite hpc _ =>
      refine ⟨q, rfl, hx', ?_⟩
      rw [hx.phase_writer hpc rfl] at hab
      rw [phase_free rfl]
      exact hab
  | claimWrite hpc =>
      refine ⟨q, rfl, ?_⟩
      apply hr.writer_moves hx' hpc (Function.update_self ..) rfl rfl
      intro hclaim
      obtain ⟨⟨htaken, hlive⟩, hroom⟩ := hclaim
      exact ⟨htaken, rfl, hlive, hroom⟩
  | @store w v t hpc =>
      refine ⟨q, rfl, ?_⟩
      apply hr.writer_moves hx' hpc (Function.update_self ..) rfl rfl
      intro hstore
      obtain ⟨htaken, hnext, hlive, hroom⟩ := hstore
      refine ⟨hroom, htaken, ?_⟩
      show Live (Function.update s.mem.memory (slot numSlots t) v)
        s.mem.nextReadSlot s.mem.nextWriteSlot (q.queue ++ [v])
      rw [hnext]
      exact hlive.push hroom v
  | notifyOne hpc _ =>
      refine ⟨q, rfl, ?_⟩
      apply hr.writer_moves hx' hpc (Function.update_self ..) rfl rfl
      exact id
  | notifyNone hpc _ =>
      refine ⟨q, rfl, ?_⟩
      apply hr.writer_moves hx' hpc (Function.update_self ..) rfl rfl
      exact id
  | @unlockWrite w v hpc =>
      rw [hx.phase_writer hpc rfl] at hab
      refine ⟨⟨q.taken, q.queue ++ [v]⟩, boundedFifo_put hab.1, hx', ?_⟩
      rw [phase_free rfl]
      exact hab.2
  | spuriousWrite hpc =>
      refine ⟨q, rfl, hx', ?_⟩
      rw [hx.phase_outside_writer hpc rfl]
      exact hab
  | callRead hpc =>
      refine ⟨q, rfl, hx', ?_⟩
      rw [hx.phase_outside_reader hpc rfl]
      exact hab
  | lockRead _ hfree =>
      refine ⟨q, rfl, hx', ?_⟩
      rw [phase_free hfree] at hab
      rw [hx'.phase_reader (Function.update_self ..) rfl]
      exact hab
  | passRead hpc hpred =>
      refine ⟨q, rfl, ?_⟩
      apply hr.reader_moves hx' hpc (Function.update_self ..) rfl rfl
      intro hrests
      exact ⟨hrests, Rests.item_of_canRead hrests hpred⟩
  | sleepRead hpc _ =>
      refine ⟨q, rfl, hx', ?_⟩
      rw [hx.phase_reader hpc rfl] at hab
      rw [phase_free rfl]
      exact hab
  | claimRead hpc =>
      refine ⟨q, rfl, ?_⟩
      apply hr.reader_moves hx' hpc (Function.update_self ..) rfl rfl
      intro hclaim
      obtain ⟨⟨htaken, hlive⟩, hitem⟩ := hclaim
      exact ⟨htaken, rfl, hlive, hitem⟩
  | @load r t hpc =>
      refine ⟨q, rfl, ?_⟩
      apply hr.reader_moves hx' hpc (Function.update_self ..) rfl rfl
      intro hload
      obtain ⟨htaken, hnext, hlive, hitem⟩ := hload
      obtain ⟨n, _ | ⟨v, rest⟩⟩ := q
      · exact absurd rfl hitem
      · obtain ⟨hval, hlive'⟩ := hlive.pop
        rw [hval]
        refine ⟨rest, rfl, ?_, ?_⟩
        · show n + 1 = s.mem.nextReadSlot
          rw [hnext, ← htaken]
        · show Live s.mem.memory s.mem.nextReadSlot s.mem.nextWriteSlot rest
          rw [hnext]
          exact hlive'
  | notifyAll hpc =>
      refine ⟨q, rfl, ?_⟩
      apply hr.reader_moves hx' hpc (Function.update_self ..) rfl rfl
      exact id
  | @unlockRead r v hpc =>
      rw [hx.phase_reader hpc rfl] at hab
      obtain ⟨n, queue⟩ := q
      obtain ⟨rest, hq, hrest⟩ := hab
      have hq' : queue = v :: rest := hq
      subst hq'
      refine ⟨⟨n + 1, rest⟩, boundedFifo_get, hx', ?_⟩
      rw [phase_free rfl]
      exact hrest
  | spuriousRead hpc =>
      refine ⟨q, rfl, hx', ?_⟩
      rw [hx.phase_outside_reader hpc rfl]
      exact hab

/-- The forward simulation of the queue by the ring. -/
theorem refines_simulation [Fintype R] :
    System.Simulation (ring W R) (boundedFifo Int numSlots) obs Refines where
  init := ⟨exclusive_init, rfl, live_nil _ _⟩
  step hr hstep := refines_moves hr (step_moves hstep)

-- ============================================================== the refinement

/-- The ring refines the bounded FIFO queue: the operations that
completed along a run are a run of the queue; while the mutex is free
the tickets lie within one lap and the live slots hold the completed
`Write`s that are not read yet; and the `k`-th completed `Read` returned
the value of the `k`-th completed `Write`. -/
theorem ring_refines_fifo [Fintype R] {acts : List (Act W R)}
    {s : State W R} {ops : List (QueueOp Int)}
    (hrun : (ring W R).run (ring W R).init acts = some s)
    (hops : ops = (ring W R).trace obs (ring W R).init acts) :
    (∃ q, (boundedFifo Int numSlots).run
        (boundedFifo Int numSlots).init ops = some q)
    ∧ (s.mem.mutex = none →
        (0 ≤ (s.mem.nextWriteSlot : Int) - s.mem.nextReadSlot
          ∧ (s.mem.nextWriteSlot : Int) - s.mem.nextReadSlot ≤ numSlots)
        ∧ ∀ k, s.mem.nextReadSlot ≤ k → k < s.mem.nextWriteSlot →
          (puts ops)[k]? = some (s.mem.memory (slot numSlots k)))
    ∧ ∀ (k : Nat) (v : Int), (gets ops)[k]? = some v →
        (puts ops)[k]? = some v := by
  subst hops
  obtain ⟨q, hq, hx, hab⟩ :=
    refines_simulation.run refines_simulation.init hrun
  obtain ⟨hlaw, htaken⟩ := fifo_law_init hq
  refine ⟨⟨q, hq⟩, fun hfree => ?_, fun k v hk => ?_⟩
  · rw [phase_free hfree] at hab
    obtain ⟨hread, hlive⟩ : Rests s.mem q := hab
    have hlen := hlive.length
    have hroom := hlive.room
    refine ⟨⟨by omega, by omega⟩, fun k hlo hhi => ?_⟩
    have hk : k - s.mem.nextReadSlot < q.queue.length := by omega
    have hval := hlive.slots (List.getElem?_eq_getElem hk)
    rw [Nat.add_sub_cancel' hlo] at hval
    rw [hlaw, List.getElem?_append_right (by omega), ← htaken, hread,
      List.getElem?_eq_getElem hk, hval]
  · rw [hlaw]
    obtain ⟨hlt, -⟩ := List.getElem?_eq_some_iff.mp hk
    rw [List.getElem?_append_left hlt]
    exact hk

/-- The reader comes first and falls asleep; a `Write` wakes it, and it
reads. A second `Write` completes after it. -/
def sleepyReader : List (Act Bool Unit) :=
  [.callRead (), .read (), .read (), .callWrite false 7, .write false,
    .write false, .write false, .write false, .notifyOne false (some ()),
    .callWrite true 8, .write false, .read (), .read (), .read (), .read (),
    .read (), .read (), .write true, .write true, .write true, .write true,
    .notifyOne true none, .write true]

/-- The theorem at that run. -/
theorem ring_refines_fifo_sleepy :
    ∃ s, (ring Bool Unit).run (ring Bool Unit).init sleepyReader
        = some s
      ∧ (ring Bool Unit).trace obs (ring Bool Unit).init sleepyReader
        = [.put 7, .get 7, .put 8]
      ∧ s.mem.mutex = none
      ∧ (∃ q, (boundedFifo Int numSlots).run
          (boundedFifo Int numSlots).init [.put 7, .get 7, .put 8] = some q)
      ∧ ((0 ≤ (s.mem.nextWriteSlot : Int) - s.mem.nextReadSlot
          ∧ (s.mem.nextWriteSlot : Int) - s.mem.nextReadSlot ≤ numSlots)
        ∧ ∀ k, s.mem.nextReadSlot ≤ k → k < s.mem.nextWriteSlot →
          ([7, 8] : List Int)[k]? = some (s.mem.memory (slot numSlots k)))
      ∧ ∀ (k : Nat) (v : Int), ([7] : List Int)[k]? = some v →
          ([7, 8] : List Int)[k]? = some v := by
  obtain ⟨s, hrun, hfree⟩ := Option.map_eq_some_iff.mp
    (by decide : ((ring Bool Unit).run (ring Bool Unit).init
      sleepyReader).map (fun s => s.mem.mutex) = some none)
  have hops : [.put 7, .get 7, .put 8]
      = (ring Bool Unit).trace obs (ring Bool Unit).init
          sleepyReader := by decide
  obtain ⟨hqueue, hslots, hreads⟩ := ring_refines_fifo hrun hops
  exact ⟨s, hrun, hops.symm, hfree, hqueue, hslots hfree, hreads⟩

end DailyStudy.Cv
