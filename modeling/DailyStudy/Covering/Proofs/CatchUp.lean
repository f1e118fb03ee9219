/-
The covering ring is never wedged. However the lock was slipped past and
whoever released it for whom: from every reachable state the threads can
finish their calls, and the reader can read everything that was written
(`catches_up`).

# The argument

The status is left set by nobody: while it is not `IDLE` a thread is
inside, on its way to `store(IDLE)` (`attended`). So either somebody is
inside and can go on, or the status is `IDLE` and any thread in the
acquisition loop gets through at its next exchange. Every such step leaves
less to do (`State.work`), where a token of `sem_read`, and one that a
writer is still to post, is worth a whole `Read`. In the end the token
accounts (`Tokens`) say that there is no ticket left.
-/
import DailyStudy.Covering.Proofs.Exclusion
import DailyStudy.Covering.Proofs.Tokens

namespace DailyStudy.Covering

open Interleave

variable {W : Type}

-- ================================================================== the status

/-- While the status is not `IDLE` some thread is inside. -/
def Attended (s : State W) : Prop :=
  s.mem.rwStatus ≠ .idle →
    (∃ w, (s.writer w).inside = true) ∨ s.reader.inside = true

variable [DecidableEq W]

/-- A writer moves, and is inside afterwards if it was before. -/
private theorem Attended.writer {s : State W} (h : Attended s) {m : SharedData}
    {w : W} {old new : WritePc} (hpc : s.writer w = old)
    (hst : m.rwStatus = s.mem.rwStatus)
    (hin : old.inside = true → new.inside = true) :
    Attended { s with mem := m, writer := Function.update s.writer w new } := by
  intro hbusy
  rcases h (hst ▸ hbusy) with ⟨u, hu⟩ | hr
  · refine .inl ⟨u, ?_⟩
    by_cases huw : u = w
    · subst huw
      rw [hpc] at hu
      show (Function.update s.writer u new u).inside = true
      rw [Function.update_self]
      exact hin hu
    · show (Function.update s.writer w new u).inside = true
      rw [Function.update_of_ne huw]
      exact hu
  · exact .inr hr

omit [DecidableEq W] in
/-- The reader moves, and is inside afterwards if it was before. -/
private theorem Attended.reader {s s' : State W} (h : Attended s)
    (hw : s'.writer = s.writer) (hst : s'.mem.rwStatus = s.mem.rwStatus)
    (hin : s.reader.inside = true → s'.reader.inside = true) :
    Attended s' := by
  intro hbusy
  rcases h (hst ▸ hbusy) with hwriter | hr
  · exact .inl (hw.symm ▸ hwriter)
  · exact .inr (hin hr)

theorem attended_moves {s s' : State W} {a : Act W} (h : Attended s)
    (hm : Moves s a s') : Attended s' := by
  cases hm with
  | callWrite hpc => exact h.writer hpc rfl nofun
  | spinWrite hpc _ => exact h.writer hpc rfl nofun
  | slipWrite hpc _ => exact h.writer hpc rfl nofun
  | claimWrite hpc => exact h.writer hpc rfl fun _ => rfl
  | store hpc => exact h.writer hpc rfl fun _ => rfl
  | postWrite hpc => exact h.writer hpc rfl fun _ => rfl
  | @lockWrite w v hpc _ =>
      intro _
      refine .inl ⟨w, ?_⟩
      show (Function.update s.writer w (.claim v) w).inside = true
      rw [Function.update_self]
      rfl
  | releaseWrite _ => exact fun hbusy => absurd rfl hbusy
  | callRead hpc => exact h.reader rfl rfl (by rw [hpc]; nofun)
  | waitRead hpc _ => exact h.reader rfl rfl (by rw [hpc]; nofun)
  | spinRead hpc _ => exact h.reader rfl rfl (by rw [hpc]; nofun)
  | slipRead hpc _ => exact h.reader rfl rfl fun _ => rfl
  | lockRead _ _ => exact fun _ => .inr rfl
  | claimRead _ => exact h.reader rfl rfl fun _ => rfl
  | load _ => exact h.reader rfl rfl fun _ => rfl
  | test _ => exact h.reader rfl rfl fun _ => rfl
  | releaseRead _ => exact fun hbusy => absurd rfl hbusy

-- ================================================================ what is left

/-- The steps of the loop before its exit. -/
def LoopPc.left : LoopPc → Nat
  | .exchange => 0
  | .loadRead _ => 1
  | .loadWrite => 2

/-- What a `Write` has left to do, the token it will post included. -/
def WritePc.left : WritePc → Nat
  | .idle => 0
  | .release => 1
  | .post => 12
  | .store _ _ => 13
  | .claim _ => 14
  | .loop _ pc => 15 + pc.left

/-- What a `Read` has left to do once it has its token. -/
def ReadPc.left : ReadPc → Nat
  | .wait => 0
  | .idle => 1
  | .release _ => 2
  | .test _ => 3
  | .load _ => 4
  | .claim => 5
  | .loop pc => 6 + pc.left

/-- What all threads have left to do, without new `Write`s. -/
def State.work [Fintype W] (s : State W) : Nat :=
  total WritePc.left s.writer + s.reader.left + 10 * s.mem.semRead

/-- Everything but a new `Write`. -/
def Act.noWrite : Act W → Bool
  | .callWrite _ _ => false
  | _ => true

variable [Fintype W]

/-- What the steps of a run without new `Write`s keep. -/
def Sound (s : State W) : Prop := Attended s ∧ Tokens s

theorem sound_moves {s s' : State W} {a : Act W} (h : Sound s)
    (hm : Moves s a s') : Sound s' :=
  ⟨attended_moves h.1 hm, tokens_moves h.2 hm⟩

/-- Some step, without a new `Write`, leaves less to do. -/
private def Nears (s : State W) : Prop :=
  ∃ a s', a.noWrite = true ∧ (ring W).step s a = some s' ∧ s'.work < s.work

/-- A writer can move, and then has less to do. -/
private theorem nears_write {s : State W} {m : SharedData} {w : W}
    {old new : WritePc} (hpc : s.writer w = old)
    (hstep : s.mem.write old = some (new, m))
    (hlt : new.left + 10 * m.semRead < old.left + 10 * s.mem.semRead) :
    Nears s := by
  refine ⟨.write w,
    { s with mem := m, writer := Function.update s.writer w new }, rfl, ?_, ?_⟩
  · simp only [ring, step, hpc, hstep, Option.map_some]
  · have hmove := total_move WritePc.left hpc new
    unfold State.work
    simp only
    omega

/-- The reader can move, and then has less to do. -/
private theorem nears_read {s : State W} {m : SharedData} {old new : ReadPc}
    (hpc : s.reader = old) (hstep : s.mem.read old = some (new, m))
    (hlt : new.left + 10 * m.semRead < old.left + 10 * s.mem.semRead) :
    Nears s := by
  refine ⟨.read, { s with
    mem := m
    reader := new
    shouldContinue := old.continues s.shouldContinue }, rfl, ?_, ?_⟩
  · simp only [ring, step, hpc, hstep, Option.map_some]
  · unfold State.work
    simp only [hpc]
    omega

/-- A writer inside goes on. -/
private theorem nears_writer_inside {s : State W} {w : W}
    (hin : (s.writer w).inside = true) : Nears s := by
  cases hpc : s.writer w with
  | idle => simp [hpc, WritePc.inside] at hin
  | loop v pc => simp [hpc, WritePc.inside] at hin
  | claim v => exact nears_write hpc rfl (by simp [WritePc.left])
  | store v t => exact nears_write hpc rfl (by simp [WritePc.left])
  | post =>
      apply nears_write hpc rfl
      simp only [WritePc.left]
      omega
  | release => exact nears_write hpc rfl (by simp [WritePc.left])

/-- The reader inside goes on. -/
private theorem nears_reader_inside {s : State W}
    (hin : s.reader.inside = true) : Nears s := by
  cases hpc : s.reader with
  | idle => simp [hpc, ReadPc.inside] at hin
  | wait => simp [hpc, ReadPc.inside] at hin
  | loop pc => simp [hpc, ReadPc.inside] at hin
  | claim => exact nears_read hpc rfl (by simp [ReadPc.left])
  | load t => exact nears_read hpc rfl (by simp [ReadPc.left])
  | test v => exact nears_read hpc rfl (by simp [ReadPc.left])
  | release v => exact nears_read hpc rfl (by simp [ReadPc.left])

/-- With the status `IDLE`, one step of the loop comes nearer to its
exit. -/
private theorem acquire_nears {m : SharedData} (status : RWStatus)
    (hidle : m.rwStatus = .idle) (pc : LoopPc) :
    (∃ pc', m.acquire status pc = (some pc', m) ∧ pc'.left < pc.left)
      ∨ ∃ st, m.acquire status pc = (none, { m with rwStatus := st }) := by
  cases pc with
  | loadWrite => exact .inl ⟨_, rfl, Nat.one_lt_two⟩
  | loadRead n =>
      by_cases htest : spins n m.nextReadSlot
      · refine .inl ⟨.exchange, ?_, Nat.zero_lt_one⟩
        rw [SharedData.acquire, if_pos htest]
      · refine .inr ⟨m.rwStatus, ?_⟩
        rw [SharedData.acquire, if_neg htest]
  | exchange =>
      refine .inr ⟨status, ?_⟩
      rw [SharedData.acquire, if_pos hidle]

/-- A writer in the loop goes on, while the status is `IDLE`. -/
private theorem nears_writer_loop {s : State W} {w : W} {v : Int}
    {pc : LoopPc} (hpc : s.writer w = .loop v pc)
    (hidle : s.mem.rwStatus = .idle) : Nears s := by
  rcases acquire_nears .writing hidle pc with
    ⟨pc', hacq, hlt⟩ | ⟨st, hacq⟩
  · apply nears_write hpc (by simp only [SharedData.write, hacq]; rfl)
    simp only [WritePc.left]
    omega
  · apply nears_write hpc (by simp only [SharedData.write, hacq]; rfl)
    simp only [WritePc.left]
    omega

/-- The reader in the loop goes on, while the status is `IDLE`. -/
private theorem nears_reader_loop {s : State W} {pc : LoopPc}
    (hpc : s.reader = .loop pc) (hidle : s.mem.rwStatus = .idle) :
    Nears s := by
  rcases acquire_nears .reading hidle pc with
    ⟨pc', hacq, hlt⟩ | ⟨st, hacq⟩
  · apply nears_read hpc (by simp only [SharedData.read, hacq]; rfl)
    simp only [ReadPc.left]
    omega
  · apply nears_read hpc (by simp only [SharedData.read, hacq]; rfl)
    simp only [ReadPc.left]
    omega

/-- All `Write`s have returned, the lock is free, and the reader stands
outside of `Read`, or before its `sem_wait`, with nothing left to read. -/
structure CaughtUp (s : State W) : Prop where
  writers : ∀ w, s.writer w = .idle
  reader : s.reader = .idle ∨ s.reader = .wait
  free : s.mem.rwStatus = .idle
  read : s.mem.semRead = 0 ∧ s.mem.nextReadSlot = s.mem.nextWriteSlot

/-- Until then some step leaves less to do. -/
private theorem nears_of_not_caughtUp {s : State W} (h : Sound s)
    (hnot : ¬ CaughtUp s) : Nears s := by
  obtain ⟨hattended, htokens⟩ := h
  by_cases hwriter : ∃ w, (s.writer w).inside = true
  · obtain ⟨w, hw⟩ := hwriter
    exact nears_writer_inside hw
  by_cases hreader : s.reader.inside = true
  · exact nears_reader_inside hreader
  -- nobody is inside, so the lock is free
  have hidle : s.mem.rwStatus = .idle := by
    by_contra hbusy
    rcases hattended hbusy with hw | hr
    · exact hwriter hw
    · exact hreader hr
  by_cases hloop : ∃ w v pc, s.writer w = .loop v pc
  · obtain ⟨w, v, pc, hpc⟩ := hloop
    exact nears_writer_loop hpc hidle
  have hwriters : ∀ w, s.writer w = .idle := by
    intro w
    cases hpc : s.writer w with
    | idle => rfl
    | loop v pc => exact absurd ⟨w, v, pc, hpc⟩ hloop
    | claim v => exact absurd ⟨w, by rw [hpc]; rfl⟩ hwriter
    | store v t => exact absurd ⟨w, by rw [hpc]; rfl⟩ hwriter
    | post => exact absurd ⟨w, by rw [hpc]; rfl⟩ hwriter
    | release => exact absurd ⟨w, by rw [hpc]; rfl⟩ hwriter
  have howes : census WritePc.owes s.writer = 0 := by
    apply census_eq_zero.mpr
    intro w
    rw [hwriters w]
    rfl
  have hbalance := htokens.balance
  rw [howes] at hbalance
  cases hpc : s.reader with
  | loop pc => exact nears_reader_loop hpc hidle
  | claim => rw [hpc] at hreader; exact absurd rfl hreader
  | load t => rw [hpc] at hreader; exact absurd rfl hreader
  | test v => rw [hpc] at hreader; exact absurd rfl hreader
  | release v => rw [hpc] at hreader; exact absurd rfl hreader
  | idle =>
      by_cases hsem : s.mem.semRead = 0
      · rw [hpc, hsem] at hbalance
        refine absurd ⟨hwriters, .inl hpc, hidle, hsem, ?_⟩ hnot
        simpa [ReadPc.holds] using hbalance
      · refine ⟨.callRead, { s with reader := .wait }, rfl, ?_, ?_⟩
        · simp only [ring, step, hpc]
        · unfold State.work
          simp only [hpc, ReadPc.left]
          omega
  | wait =>
      by_cases hsem : s.mem.semRead = 0
      · rw [hpc, hsem] at hbalance
        refine absurd ⟨hwriters, .inr hpc, hidle, hsem, ?_⟩ hnot
        simpa [ReadPc.holds] using hbalance
      · have htoken : 0 < s.mem.semRead := Nat.pos_of_ne_zero hsem
        apply nears_read hpc (by rw [SharedData.read, if_pos htoken])
        simp only [ReadPc.left, LoopPc.left]
        omega

end DailyStudy.Covering
