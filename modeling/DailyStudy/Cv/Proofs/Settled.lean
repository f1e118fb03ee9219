/-
Where a batch of calls on the condition-variable ring ends, for any
numbers of threads and every interleaving.

# The ledger

A call that has not claimed its ticket is pending, and all others are in
the counters (`Ledger`). Its last equation bounds the steps: a sleeper
that is woken for nothing takes the mutex, evaluates its predicate and
falls asleep again, so every `notify_all` is charged two steps for each
writer thread, and a spurious wake-up three.

# The end

Where no call can go on without a spurious wake-up, the mutex is free and
the calls under way are asleep; no wake-up being lost, sleeping writers
mean a full ring and sleeping readers an empty one. Their numbers are
those of the semaphore ring (`sleepers_settle`).
-/
import DailyStudy.Cv.Proofs.Wakeup
import DailyStudy.Lib.Batch

namespace DailyStudy.Cv

open Interleave

-- =================================================================== the calls

/-- What the scheduler picks: a call, a spurious wake-up, or a step. -/
instance {W R : Type} : Calls (Act W R) where
  kind
    | .callWrite _ _ => .write
    | .callRead _ => .read
    | .spuriousWrite _ | .spuriousRead _ => .spurious
    | _ => .step

/-- Called, and without a ticket. -/
def WritePc.pending : WritePc → Bool
  | .acquire _ | .check _ | .asleep _ | .woken _ | .claim _ => true
  | _ => false

/-- A bound on the steps to the return, as far as nobody has to wake the
thread; its `notify_one` adds two to a reader's. -/
def WritePc.left : WritePc → Nat
  | .idle => 0
  | .unlock _ => 1
  | .notify _ => 4
  | .store _ _ => 5
  | .claim _ => 6
  | .asleep _ => 6
  | .check _ => 7
  | .acquire _ | .woken _ => 8

/-- Called, and without a ticket. -/
def ReadPc.pending : ReadPc → Bool
  | .acquire | .check | .asleep | .woken | .claim => true
  | _ => false

/-- The same for a reader, whose `notify_all` adds two to each of the `n`
writers' bounds. -/
def ReadPc.left (n : Nat) : ReadPc → Nat
  | .idle => 0
  | .unlock _ => 1
  | .notify _ => 2 + 2 * n
  | .load _ => 3 + 2 * n
  | .claim => 4 + 2 * n
  | .asleep => 4 + 2 * n
  | .check => 5 + 2 * n
  | .acquire | .woken => 6 + 2 * n

-- ================================================================== the ledger

variable {W R : Type} [Fintype W] [Fintype R]

/-- The tickets by the calls made and those pending, and a bound on the
steps made and left. -/
structure Ledger (s : State W R) (l : List (Act W R)) : Prop where
  written : s.mem.nextWriteSlot + census WritePc.pending s.writer
    = made .write l
  read : s.mem.nextReadSlot + census ReadPc.pending s.reader
    = made .read l
  steps : l.length + total WritePc.left s.writer
      + total (ReadPc.left (Fintype.card W)) s.reader
    ≤ 9 * made .write l + (7 + 2 * Fintype.card W) * made .read l
      + 3 * made .spurious l

omit [Fintype R] in
/-- `notify_all` adds at most two to each writer's bound. -/
theorem total_wake (f : W → WritePc) :
    total WritePc.left (fun w => (f w).wake)
      ≤ total WritePc.left f + 2 * Fintype.card W := by
  have hle : ∀ w, ((f w).wake).left ≤ (f w).left + 2 := by
    intro w
    cases f w <;> simp [WritePc.wake, WritePc.left]
  unfold total
  calc ∑ w, ((f w).wake).left
      ≤ ∑ w, ((f w).left + 2) := Finset.sum_le_sum fun w _ => hle w
    _ = ∑ w, (f w).left + 2 * Fintype.card W := by
        rw [Finset.sum_add_distrib, Finset.sum_const, Finset.card_univ,
          nsmul_eq_mul, Nat.cast_id, Nat.mul_comm]

omit [Fintype R] in
/-- `notify_all` leaves the pending calls pending. -/
theorem pending_wake (f : W → WritePc) :
    census WritePc.pending (fun w => (f w).wake)
      = census WritePc.pending f :=
  census_congr (p := fun pc : WritePc => pc.wake.pending)
    fun w => by cases f w <;> rfl

variable [DecidableEq W] [DecidableEq R]

theorem ledger_init : Ledger (ring W R).init [] where
  written := by
    simp only [ring, SharedMemory.new]
    rw [census_const rfl]
    rfl
  read := by
    simp only [ring, SharedMemory.new]
    rw [census_const rfl]
    rfl
  steps := by
    simp [ring, total, WritePc.left, ReadPc.left]

section Move

variable {s s' : State W R} {l : List (Act W R)} {a : Act W R}

omit [DecidableEq W] [DecidableEq R] in
/-- What a step has to balance. -/
private theorem Ledger.moves (hl : Ledger s l)
    (hwritten : s'.mem.nextWriteSlot + census WritePc.pending s'.writer
      = s.mem.nextWriteSlot + census WritePc.pending s.writer
        + made .write [a])
    (hread : s'.mem.nextReadSlot + census ReadPc.pending s'.reader
      = s.mem.nextReadSlot + census ReadPc.pending s.reader
        + made .read [a])
    (hsteps : total WritePc.left s'.writer
        + total (ReadPc.left (Fintype.card W)) s'.reader + 1
      ≤ total WritePc.left s.writer
        + total (ReadPc.left (Fintype.card W)) s.reader
        + 9 * made .write [a] + (7 + 2 * Fintype.card W) * made .read [a]
        + 3 * made .spurious [a]) :
    Ledger s' (l ++ [a]) := by
  obtain ⟨hw, hr, hs⟩ := hl
  constructor
  · rw [made_append]
    omega
  · rw [made_append]
    omega
  · rw [made_append, made_append, made_append,
      Nat.mul_add (7 + 2 * Fintype.card W),
      List.length_append, List.length_singleton]
    omega

omit [DecidableEq R] in
/-- One writer moves. -/
private theorem Ledger.writer_moves (hl : Ledger s l) {w : W}
    {old new : WritePc} (hpc : s.writer w = old)
    (hwriter : s'.writer = Function.update s.writer w new)
    (hreader : s'.reader = s.reader)
    (hread : s'.mem.nextReadSlot = s.mem.nextReadSlot)
    (hcall : made .read [a] = 0)
    (hwritten : s'.mem.nextWriteSlot + new.pending.toNat
      = s.mem.nextWriteSlot + old.pending.toNat + made .write [a])
    (hsteps : new.left + 1
      ≤ old.left + 9 * made .write [a] + 3 * made .spurious [a]) :
    Ledger s' (l ++ [a]) := by
  have hpending := census_move WritePc.pending hpc new
  have hleft := total_move WritePc.left hpc new
  apply hl.moves
  · rw [hwriter]
    omega
  · rw [hreader, hread, hcall]
    rfl
  · rw [hwriter, hreader, hcall]
    omega

omit [DecidableEq W] in
/-- One reader moves. -/
private theorem Ledger.reader_moves (hl : Ledger s l) {r : R}
    {old new : ReadPc} (hpc : s.reader r = old)
    (hreader : s'.reader = Function.update s.reader r new)
    (hwriter : s'.writer = s.writer)
    (hwrite : s'.mem.nextWriteSlot = s.mem.nextWriteSlot)
    (hcall : made .write [a] = 0)
    (hread : s'.mem.nextReadSlot + new.pending.toNat
      = s.mem.nextReadSlot + old.pending.toNat + made .read [a])
    (hsteps : new.left (Fintype.card W) + 1
      ≤ old.left (Fintype.card W)
        + (7 + 2 * Fintype.card W) * made .read [a]
        + 3 * made .spurious [a]) :
    Ledger s' (l ++ [a]) := by
  have hpending := census_move ReadPc.pending hpc new
  have hleft := total_move (ReadPc.left (Fintype.card W)) hpc new
  apply hl.moves
  · rw [hwriter, hwrite, hcall]
    rfl
  · rw [hreader]
    omega
  · rw [hwriter, hreader, hcall]
    omega

/-- Every step keeps the ledger. -/
theorem ledger_moves {es : List (QueueOp Int)} (hl : Ledger s l)
    (hm : Moves s a s' es) : Ledger s' (l ++ [a]) := by
  cases hm with
  | callWrite hpc =>
      exact hl.writer_moves hpc rfl rfl rfl rfl rfl (Nat.le_refl _)
  | lockWrite hpc _ =>
      rcases hpc with hpc | hpc
      · exact hl.writer_moves hpc rfl rfl rfl rfl rfl (Nat.le_refl _)
      · exact hl.writer_moves hpc rfl rfl rfl rfl rfl (Nat.le_refl _)
  | passWrite hpc _ =>
      exact hl.writer_moves hpc rfl rfl rfl rfl rfl (Nat.le_refl _)
  | sleepWrite hpc _ =>
      exact hl.writer_moves hpc rfl rfl rfl rfl rfl (Nat.le_refl _)
  | claimWrite hpc =>
      exact hl.writer_moves hpc rfl rfl rfl rfl rfl (Nat.le_refl _)
  | store hpc =>
      exact hl.writer_moves hpc rfl rfl rfl rfl rfl (Nat.le_refl _)
  | @notifyOne w v r hpc hr =>
      -- the writer pays for the wake-up of the reader
      have hw1 := census_move WritePc.pending hpc (.unlock v)
      have hw2 := total_move WritePc.left hpc (.unlock v)
      have hr1 := census_move ReadPc.pending hr .woken
      have hr2 := total_move (ReadPc.left (Fintype.card W)) hr .woken
      simp only [WritePc.pending, WritePc.left, ReadPc.pending, ReadPc.left,
        Bool.toNat_false, Bool.toNat_true] at hw1 hw2 hr1 hr2
      apply hl.moves
      · show s.mem.nextWriteSlot + census _ (Function.update s.writer w _)
          = _ + 0
        omega
      · show s.mem.nextReadSlot + census _ (Function.update s.reader r _)
          = _ + 0
        omega
      · show total _ (Function.update s.writer w _)
          + total _ (Function.update s.reader r _) + 1
          ≤ _ + 9 * 0 + _ * 0 + 3 * 0
        omega
  | notifyNone hpc _ =>
      exact hl.writer_moves hpc rfl rfl rfl rfl rfl
        (Nat.le_add_right 2 2)
  | unlockWrite hpc =>
      exact hl.writer_moves hpc rfl rfl rfl rfl rfl (Nat.le_refl _)
  | spuriousWrite hpc =>
      exact hl.writer_moves hpc rfl rfl rfl rfl rfl (Nat.le_refl _)
  | callRead hpc =>
      refine hl.reader_moves hpc rfl rfl rfl rfl rfl ?_
      show 6 + 2 * _ + 1 ≤ 0 + (7 + 2 * _) * 1 + 3 * 0
      omega
  | lockRead hpc _ =>
      rcases hpc with hpc | hpc
      · refine hl.reader_moves hpc rfl rfl rfl rfl rfl ?_
        show 5 + 2 * _ + 1 ≤ 6 + 2 * _ + _ * 0 + 3 * 0
        omega
      · refine hl.reader_moves hpc rfl rfl rfl rfl rfl ?_
        show 5 + 2 * _ + 1 ≤ 6 + 2 * _ + _ * 0 + 3 * 0
        omega
  | passRead hpc _ =>
      refine hl.reader_moves hpc rfl rfl rfl rfl rfl ?_
      show 4 + 2 * _ + 1 ≤ 5 + 2 * _ + _ * 0 + 3 * 0
      omega
  | sleepRead hpc _ =>
      refine hl.reader_moves hpc rfl rfl rfl rfl rfl ?_
      show 4 + 2 * _ + 1 ≤ 5 + 2 * _ + _ * 0 + 3 * 0
      omega
  | claimRead hpc =>
      refine hl.reader_moves hpc rfl rfl rfl rfl rfl ?_
      show 3 + 2 * _ + 1 ≤ 4 + 2 * _ + _ * 0 + 3 * 0
      omega
  | load hpc =>
      refine hl.reader_moves hpc rfl rfl rfl rfl rfl ?_
      show 2 + 2 * _ + 1 ≤ 3 + 2 * _ + _ * 0 + 3 * 0
      omega
  | @notifyAll r v hpc =>
      -- the reader pays for the wake-ups of the writers
      have hr1 := census_move ReadPc.pending hpc (.unlock v)
      have hr2 := total_move (ReadPc.left (Fintype.card W)) hpc (.unlock v)
      have hwake := total_wake s.writer
      simp only [ReadPc.pending, ReadPc.left, Bool.toNat_false] at hr1 hr2
      apply hl.moves
      · show _ + census _ (fun w => (s.writer w).wake) = _ + 0
        rw [pending_wake]
        rfl
      · show s.mem.nextReadSlot + census _ (Function.update s.reader r _)
          = _ + 0
        omega
      · show total _ (fun w => (s.writer w).wake)
          + total _ (Function.update s.reader r _) + 1
          ≤ _ + 9 * 0 + _ * 0 + 3 * 0
        omega
  | unlockRead hpc =>
      refine hl.reader_moves hpc rfl rfl rfl rfl rfl ?_
      show 0 + 1 ≤ 1 + _ * 0 + 3 * 0
      omega
  | spuriousRead hpc =>
      refine hl.reader_moves hpc rfl rfl rfl rfl rfl ?_
      show 6 + 2 * _ + 1 ≤ 4 + 2 * _ + _ * 0 + 3 * 1
      omega

end Move

/-- The ledger holds along every run. -/
theorem ledger_run {acts : List (Act W R)} {s : State W R}
    (hrun : (ring W R).run (ring W R).init acts = some s) : Ledger s acts :=
  System.run_invariant (I := Ledger)
    (fun hl hstep => ledger_moves hl (step_moves hstep)) ledger_init hrun

-- ===================================================================== the end

/-- No call under way can go on, unless a sleeper wakes up by itself. -/
def Settled (s : State W R) : Prop :=
  (∀ w, step s (.write w) = none)
    ∧ (∀ w sleeper, step s (.notifyOne w sleeper) = none)
    ∧ ∀ r, step s (.read r) = none

omit [Fintype W] in
/-- Inside the critical section a `Write` can go on. -/
theorem Settled.writer_outside {s : State W R} (h : Settled s) (w : W) :
    (s.writer w).critical = false := by
  have hw := h.1 w
  cases hpc : s.writer w with
  | idle => rfl
  | acquire v => rfl
  | asleep v => rfl
  | woken v => rfl
  | check v =>
      by_cases hpred : s.mem.canWrite <;>
        simp [step, stepWrite, hpc, hpred] at hw
  | claim v => simp [step, stepWrite, hpc] at hw
  | store v t => simp [step, stepWrite, hpc] at hw
  | unlock v => simp [step, stepWrite, hpc] at hw
  | notify v =>
      by_cases hnone : ∀ r, s.reader r ≠ .asleep
      · have hn := h.2.1 w none
        simp [step, hpc, hnone] at hn
      · obtain ⟨r, hr⟩ := not_forall.mp hnone
        have hn := h.2.1 w (some r)
        simp [step, hpc, not_not.mp hr] at hn

omit [Fintype W] in
/-- Inside the critical section a `Read` can go on. -/
theorem Settled.reader_outside {s : State W R} (h : Settled s) (r : R) :
    (s.reader r).critical = false := by
  have hr := h.2.2 r
  cases hpc : s.reader r with
  | idle => rfl
  | acquire => rfl
  | asleep => rfl
  | woken => rfl
  | check =>
      by_cases hpred : s.mem.canRead <;>
        simp [step, stepRead, hpc, hpred] at hr
  | claim => simp [step, stepRead, hpc] at hr
  | load t => simp [step, stepRead, hpc] at hr
  | notify v => simp [step, stepRead, hpc] at hr
  | unlock v => simp [step, stepRead, hpc] at hr

omit [Fintype W] in
/-- So nobody has the mutex. -/
theorem Settled.mutex_free {s : State W R} (h : Settled s)
    (hx : Exclusive s) : s.mem.mutex = none :=
  hx.mutex_free h.writer_outside h.reader_outside

omit [Fintype W] in
/-- A `Write` that cannot go on is asleep. -/
theorem Settled.writer {s : State W R} (h : Settled s)
    (hfree : s.mem.mutex = none) (w : W) :
    (s.writer w).pending = busy .idle (s.writer w)
      ∧ (busy .idle (s.writer w) = true → SomeWriterAsleep s) := by
  have hw := h.1 w
  have hout := h.writer_outside w
  cases hpc : s.writer w with
  | idle => exact ⟨rfl, fun hbusy => by cases hbusy⟩
  | asleep v => exact ⟨rfl, fun _ => ⟨w, v, hpc⟩⟩
  | acquire v => simp [step, stepWrite, lockWrite, hpc, hfree] at hw
  | woken v => simp [step, stepWrite, lockWrite, hpc, hfree] at hw
  | _ => simp [hpc, WritePc.critical] at hout

omit [Fintype W] in
/-- A `Read` that cannot go on is asleep. -/
theorem Settled.reader {s : State W R} (h : Settled s)
    (hfree : s.mem.mutex = none) (r : R) :
    (s.reader r).pending = busy .idle (s.reader r)
      ∧ (s.reader r).isWoken = false
      ∧ (busy .idle (s.reader r) = true → SomeReaderAsleep s) := by
  have hr := h.2.2 r
  have hout := h.reader_outside r
  cases hpc : s.reader r with
  | idle => exact ⟨rfl, rfl, fun hbusy => by cases hbusy⟩
  | asleep => exact ⟨rfl, rfl, fun _ => ⟨r, hpc⟩⟩
  | acquire => simp [step, stepRead, lockRead, hpc, hfree] at hr
  | woken => simp [step, stepRead, lockRead, hpc, hfree] at hr
  | _ => simp [hpc, ReadPc.critical] at hout

/-- Every interleaving of `n` `Write`s and `m` `Read`s takes no more steps
than the spurious wake-ups in it allow, and where no call can go on
without another, exactly the `Write`s beyond `m + NUM_SLOTS` and the
`Read`s beyond `n` have not returned. So all calls return exactly where
`m ≤ n ≤ m + NUM_SLOTS`. -/
theorem sleepers_settle {acts : List (Act W R)} {s : State W R}
    (hrun : (ring W R).run (ring W R).init acts = some s) :
    acts.length ≤ 9 * made .write acts
      + (7 + 2 * Fintype.card W) * made .read acts
      + 3 * made .spurious acts
    ∧ (Settled s →
      census (busy .idle) s.writer
        = made .write acts - (made .read acts + numSlots)
      ∧ census (busy .idle) s.reader = made .read acts - made .write acts
      ∧ ((∀ w, s.writer w = .idle) ∧ (∀ r, s.reader r = .idle)
        ↔ made .read acts ≤ made .write acts
          ∧ made .write acts ≤ made .read acts + numSlots)) := by
  obtain ⟨hwritten, hread, hsteps⟩ := ledger_run hrun
  refine ⟨by omega, ?_⟩
  intro hset
  obtain ⟨⟨q, hx, hab⟩, hR, hW⟩ :=
    wakeups_reachable (System.Reachable.init.run hrun)
  have hfree := hset.mutex_free hx
  rw [phase_free hfree] at hab hR hW
  obtain ⟨-, hlive⟩ : Rests s.mem q := hab
  have hlen := hlive.length
  rw [census_congr fun w => (hset.writer hfree w).1] at hwritten
  rw [census_congr fun r => (hset.reader hfree r).1] at hread
  have hflow : q.queue.length + made .read acts
        + census (busy .idle) s.writer
      = made .write acts + census (busy .idle) s.reader := by omega
  have hslots : 0 < numSlots := by decide
  have hroom := hlive.room
  apply calls_at_rest hslots hflow hroom
  · intro w hw
    have hle := hW ((hset.writer hfree w).2 hw)
    simp only [roomDue] at hle
    omega
  · intro r hr
    have hle := hR ((hset.reader hfree r).2.2 hr)
    rw [census_eq_zero.mpr fun r => (hset.reader hfree r).2.1] at hle
    simp only [itemsDue] at hle
    omega

/-- Two `Read`s fall asleep, and a `Write` wakes one of them. -/
def oneWriteRun : List (Act Unit Bool) :=
  [.callRead false, .read false, .read false, .callRead true, .read true,
    .read true, .callWrite () 7, .write (), .write (), .write (), .write (),
    .notifyOne () (some true), .write (), .read true, .read true,
    .read true, .read true, .read true, .read true]

/-- The theorem at the end of that run: the other sleeps on. -/
theorem sleepers_settle_one_write :
    ∃ s, (ring Unit Bool).run (ring Unit Bool).init oneWriteRun = some s
      ∧ Settled s ∧ census (busy .idle) s.writer = 0
      ∧ census (busy .idle) s.reader = 1 := by
  obtain ⟨s, hrun, hend⟩ := Option.map_eq_some_iff.mp
    (by decide : ((ring Unit Bool).run (ring Unit Bool).init
      oneWriteRun).map (fun s =>
        (s.writer (), s.reader false, s.reader true))
      = some (.idle, .asleep, .idle))
  simp only [Prod.mk.injEq] at hend
  obtain ⟨hw, hfalse, htrue⟩ := hend
  have hset : Settled s := by
    refine ⟨fun _ => ?_, fun _ sleeper => ?_, fun r => ?_⟩
    · simp [step, stepWrite, hw]
    · simp [step, hw]
    · cases r
      · simp [step, stepRead, hfalse]
      · simp [step, stepRead, htrue]
  obtain ⟨hwrites, hreads, -⟩ := (sleepers_settle hrun).2 hset
  exact ⟨s, hrun, hset, hwrites, hreads⟩

end DailyStudy.Cv
