/-
Where a batch of calls on the semaphore ring ends, for any numbers of
threads and every interleaving.

# The ledger

A `Write` takes a token of `sem_write_` and gives one to `sem_read_`, and
a `Read` the other way, so each semaphore is the difference of the calls
of the two sides, with those that are under way added back (`Ledger`).

# The end

A call takes five steps, counting the call itself. Where no call can go
on, those under way are blocked in `sem_wait`, never on both sides at
once, and the ledger says how many they are: the `Write`s beyond
`NUM_SLOTS` more than the `Read`s, or the `Read`s beyond the `Write`s
(`calls_settle`). No schedule does better or worse.
-/
import DailyStudy.Lib.Batch
import DailyStudy.Sem.Basic

namespace DailyStudy.Sem

open Interleave

-- =================================================================== the calls

/-- What the scheduler picks: a call, or a step of one. -/
instance {W R : Type} : Calls (Act W R) where
  kind
    | .callWrite _ _ => .write
    | .callRead _ => .read
    | _ => .step

/-- Called, and not yet past its `sem_wait`. -/
def WritePc.waiting : WritePc → Bool
  | .wait _ => true
  | _ => false

/-- The steps to the return. -/
def WritePc.left : WritePc → Nat
  | .idle => 0
  | .wait _ => 4
  | .claim _ => 3
  | .store _ _ => 2
  | .post => 1

/-- Called, and not yet past its `sem_wait`. -/
def ReadPc.waiting : ReadPc → Bool
  | .wait => true
  | _ => false

/-- The steps to the return. -/
def ReadPc.left : ReadPc → Nat
  | .idle => 0
  | .wait => 4
  | .claim => 3
  | .load _ => 2
  | .post _ => 1

-- ================================================================== the ledger

variable {W R : Type} [Fintype W] [Fintype R]

/-- The semaphores by the calls made and those under way, and the steps
made and left. -/
structure Ledger (s : State W R) (l : List (Act W R)) : Prop where
  room : s.mem.semWrite + made .write l + census (busy .idle) s.reader
    = numSlots + made .read l + census WritePc.waiting s.writer
  items : s.mem.semRead + made .read l + census (busy .idle) s.writer
    = made .write l + census ReadPc.waiting s.reader
  steps : l.length + total WritePc.left s.writer
      + total ReadPc.left s.reader = 5 * (made .write l + made .read l)

variable [DecidableEq W] [DecidableEq R]

theorem ledger_init : Ledger (ring W R).init [] where
  room := by
    simp only [ring, SharedMemory.new]
    rw [census_const rfl, census_const rfl]
    rfl
  items := by
    simp only [ring, SharedMemory.new]
    rw [census_const rfl, census_const rfl]
    rfl
  steps := by
    simp [ring, total, WritePc.left, ReadPc.left, made]

section Move

variable {s s' : State W R} {l : List (Act W R)} {a : Act W R}

omit [DecidableEq R] in
/-- One writer moves. -/
private theorem Ledger.writer_moves (hl : Ledger s l) {w : W}
    {old new : WritePc} (hpc : s.writer w = old)
    (hwriter : s'.writer = Function.update s.writer w new)
    (hreader : s'.reader = s.reader)
    (hroom : s'.mem.semWrite + made .write [a] + old.waiting.toNat
      = s.mem.semWrite + made .read [a] + new.waiting.toNat)
    (hitems : s'.mem.semRead + made .read [a] + (busy .idle new).toNat
      = s.mem.semRead + made .write [a] + (busy .idle old).toNat)
    (hsteps : new.left + 1
      = old.left + 5 * (made .write [a] + made .read [a])) :
    Ledger s' (l ++ [a]) := by
  have hwaiting := census_move WritePc.waiting hpc new
  have hbusy := census_move (busy .idle) hpc new
  have hleft := total_move WritePc.left hpc new
  obtain ⟨hr, hi, hs⟩ := hl
  constructor
  · rw [made_append, made_append, hwriter, hreader]
    omega
  · rw [made_append, made_append, hwriter, hreader]
    omega
  · rw [made_append, made_append, hwriter, hreader, List.length_append,
      List.length_singleton]
    omega

omit [DecidableEq W] in
/-- One reader moves. -/
private theorem Ledger.reader_moves (hl : Ledger s l) {r : R}
    {old new : ReadPc} (hpc : s.reader r = old)
    (hreader : s'.reader = Function.update s.reader r new)
    (hwriter : s'.writer = s.writer)
    (hroom : s'.mem.semWrite + made .write [a] + (busy .idle new).toNat
      = s.mem.semWrite + made .read [a] + (busy .idle old).toNat)
    (hitems : s'.mem.semRead + made .read [a] + old.waiting.toNat
      = s.mem.semRead + made .write [a] + new.waiting.toNat)
    (hsteps : new.left + 1
      = old.left + 5 * (made .write [a] + made .read [a])) :
    Ledger s' (l ++ [a]) := by
  have hwaiting := census_move ReadPc.waiting hpc new
  have hbusy := census_move (busy .idle) hpc new
  have hleft := total_move ReadPc.left hpc new
  obtain ⟨hr, hi, hs⟩ := hl
  constructor
  · rw [made_append, made_append, hwriter, hreader]
    omega
  · rw [made_append, made_append, hwriter, hreader]
    omega
  · rw [made_append, made_append, hwriter, hreader, List.length_append,
      List.length_singleton]
    omega

/-- Every step keeps the ledger. -/
theorem ledger_moves {es : List Event} (hl : Ledger s l)
    (hm : Moves s a s' es) : Ledger s' (l ++ [a]) := by
  cases hm with
  | callWrite hpc => exact hl.writer_moves hpc rfl rfl rfl rfl rfl
  | waitWrite hpc hsem =>
      refine hl.writer_moves hpc rfl rfl ?_ rfl rfl
      show s.mem.semWrite - 1 + 0 + 1 = s.mem.semWrite + 0 + 0
      omega
  | claimWrite hpc => exact hl.writer_moves hpc rfl rfl rfl rfl rfl
  | store hpc => exact hl.writer_moves hpc rfl rfl rfl rfl rfl
  | postWrite hpc => exact hl.writer_moves hpc rfl rfl rfl rfl rfl
  | callRead hpc => exact hl.reader_moves hpc rfl rfl rfl rfl rfl
  | waitRead hpc hsem =>
      refine hl.reader_moves hpc rfl rfl rfl ?_ rfl
      show s.mem.semRead - 1 + 0 + 1 = s.mem.semRead + 0 + 0
      omega
  | claimRead hpc => exact hl.reader_moves hpc rfl rfl rfl rfl rfl
  | load hpc => exact hl.reader_moves hpc rfl rfl rfl rfl rfl
  | postRead hpc => exact hl.reader_moves hpc rfl rfl rfl rfl rfl

end Move

/-- The ledger holds along every run. -/
theorem ledger_run {acts : List (Act W R)} {s : State W R}
    (hrun : (ring W R).run (ring W R).init acts = some s) : Ledger s acts :=
  System.run_invariant (I := Ledger)
    (fun hl hstep => ledger_moves hl (step_moves hstep)) ledger_init hrun

-- ===================================================================== the end

/-- No call under way can go on. -/
def Settled (s : State W R) : Prop :=
  (∀ w, step s (.write w) = none) ∧ ∀ r, step s (.read r) = none

omit [Fintype W] [Fintype R] in
/-- A `Write` that cannot go on is blocked in its `sem_wait`. -/
theorem Settled.writer {s : State W R} (h : Settled s) (w : W) :
    (s.writer w).waiting = busy .idle (s.writer w)
      ∧ (busy .idle (s.writer w) = true → s.mem.semWrite = 0) := by
  have hw := h.1 w
  cases hpc : s.writer w with
  | idle => exact ⟨rfl, fun hbusy => by cases hbusy⟩
  | wait v =>
      refine ⟨rfl, fun _ => ?_⟩
      by_contra hsem
      simp [step, SharedMemory.write, hpc, Nat.pos_of_ne_zero hsem] at hw
  | claim v => simp [step, SharedMemory.write, hpc] at hw
  | store v t => simp [step, SharedMemory.write, hpc] at hw
  | post => simp [step, SharedMemory.write, hpc] at hw

omit [Fintype W] [Fintype R] in
/-- A `Read` that cannot go on is blocked in its `sem_wait`. -/
theorem Settled.reader {s : State W R} (h : Settled s) (r : R) :
    (s.reader r).waiting = busy .idle (s.reader r)
      ∧ (busy .idle (s.reader r) = true → s.mem.semRead = 0) := by
  have hr := h.2 r
  cases hpc : s.reader r with
  | idle => exact ⟨rfl, fun hbusy => by cases hbusy⟩
  | wait =>
      refine ⟨rfl, fun _ => ?_⟩
      by_contra hsem
      simp [step, SharedMemory.read, hpc, Nat.pos_of_ne_zero hsem] at hr
  | claim => simp [step, SharedMemory.read, hpc] at hr
  | load t => simp [step, SharedMemory.read, hpc] at hr
  | post v => simp [step, SharedMemory.read, hpc] at hr

/-- Every interleaving of `n` `Write`s and `m` `Read`s takes at most
`5 * (n + m)` steps, and where no call can go on, exactly the `Write`s
beyond `m + NUM_SLOTS` and the `Read`s beyond `n` have not returned. So
all calls return exactly where `m ≤ n ≤ m + NUM_SLOTS`. -/
theorem calls_settle {acts : List (Act W R)} {s : State W R}
    (hrun : (ring W R).run (ring W R).init acts = some s) :
    acts.length ≤ 5 * (made .write acts + made .read acts)
    ∧ (Settled s →
      census (busy .idle) s.writer
        = made .write acts - (made .read acts + numSlots)
      ∧ census (busy .idle) s.reader = made .read acts - made .write acts
      ∧ ((∀ w, s.writer w = .idle) ∧ (∀ r, s.reader r = .idle)
        ↔ made .read acts ≤ made .write acts
          ∧ made .write acts ≤ made .read acts + numSlots)) := by
  obtain ⟨hroom, hitems, hsteps⟩ := ledger_run hrun
  refine ⟨by omega, ?_⟩
  intro hset
  rw [census_congr fun w => (hset.writer w).1] at hroom
  rw [census_congr fun r => (hset.reader r).1] at hitems
  have htokens : s.mem.semWrite + s.mem.semRead = numSlots := by omega
  have hslots : 0 < numSlots := by decide
  apply calls_at_rest hslots hitems (htokens ▸ Nat.le_add_left _ _)
  · intro w hw
    have hsem := (hset.writer w).2 hw
    omega
  · exact fun r hr => (hset.reader r).2 hr

/-- Two `Read`s are called and one `Write`: one `Read` waits for ever. -/
def twoReadsRun : List (Act Unit Bool) :=
  [.callRead false, .callRead true, .callWrite () 7, .write (), .write (),
    .write (), .write (), .read false, .read false, .read false,
    .read false]

/-- The theorem at the end of that run. -/
theorem calls_settle_two_reads :
    ∃ s, (ring Unit Bool).run (ring Unit Bool).init twoReadsRun = some s
      ∧ Settled s ∧ census (busy .idle) s.writer = 0
      ∧ census (busy .idle) s.reader = 1 := by
  obtain ⟨s, hrun, hend⟩ := Option.map_eq_some_iff.mp
    (by decide : ((ring Unit Bool).run (ring Unit Bool).init
      twoReadsRun).map (fun s =>
        (s.writer (), s.reader false, s.reader true, s.mem.semRead))
      = some (.idle, .idle, .wait, 0))
  simp only [Prod.mk.injEq] at hend
  obtain ⟨hw, hfalse, htrue, hsem⟩ := hend
  have hset : Settled s := by
    refine ⟨fun _ => ?_, fun r => ?_⟩
    · simp [step, SharedMemory.write, hw]
    · cases r
      · simp [step, SharedMemory.read, hfalse]
      · simp [step, SharedMemory.read, htrue, hsem]
  obtain ⟨hwrites, hreads, -⟩ := (calls_settle hrun).2 hset
  exact ⟨s, hrun, hset, hwrites, hreads⟩

end DailyStudy.Sem
