/-
The covering ring, one whole call at a time.

`writeCall` and `readCall` are what a `Write` and a `Read` do to the
segment when nobody else moves until they return. `solo_write` and
`solo_read` run the threads of the ring, step by step, and find exactly
that: in a segment whose status is `IDLE` the acquisition loop ends at
its first pass, with the lock or without.
-/
import DailyStudy.Covering.Basic

namespace DailyStudy.Covering

open Interleave

/-- What a whole `Write(value)` does. -/
def SharedData.writeCall (m : SharedData) (value : Int) : SharedData :=
  { m with
    nextWriteSlot := m.nextWriteSlot + 1
    data := Function.update m.data (slot numSlots m.nextWriteSlot) value
    semRead := m.semRead + 1
    rwStatus := .idle }

/-- What a whole `Read` does, and the value it returns; none when it
cannot pass its `sem_wait`. -/
def SharedData.readCall (m : SharedData) : Option (Int × SharedData) :=
  if 0 < m.semRead then
    some (m.data (slot numSlots m.nextReadSlot),
      { m with
        semRead := m.semRead - 1
        nextReadSlot := m.nextReadSlot + 1
        rwStatus := .idle })
  else none

/-- A `Read` that returns took a token and the oldest unread ticket. -/
theorem readCall_eq_some {m m' : SharedData} {value : Int}
    (h : m.readCall = some (value, m')) :
    0 < m.semRead ∧ value = m.data (slot numSlots m.nextReadSlot)
      ∧ m' = { m with
          semRead := m.semRead - 1
          nextReadSlot := m.nextReadSlot + 1
          rwStatus := .idle } := by
  by_cases hsem : 0 < m.semRead
  · rw [SharedData.readCall, if_pos hsem] at h
    obtain ⟨rfl, rfl⟩ := Prod.ext_iff.mp (Option.some.inj h)
    exact ⟨hsem, rfl, rfl⟩
  · rw [SharedData.readCall, if_neg hsem] at h
    cases h

-- ======================================================== threads on their own

variable {W : Type} [DecidableEq W]

/-- One step of a writer, from its program point. -/
private theorem run_write {s : State W} {w : W} {pc pc' : WritePc}
    {m' : SharedData} {acts : List (Act W)} (hpc : s.writer w = pc)
    (hstep : s.mem.write pc = some (pc', m')) :
    (ring W).run s (.write w :: acts)
      = (ring W).run
          { s with
            mem := m'
            writer := Function.update s.writer w pc' } acts := by
  simp [System.run, ring, step, hpc, hstep]

/-- One step of the reader, from its program point. -/
private theorem run_read {s : State W} {pc pc' : ReadPc} {m' : SharedData}
    {acts : List (Act W)} (hpc : s.reader = pc)
    (hstep : s.mem.read pc = some (pc', m')) :
    (ring W).run s (.read :: acts)
      = (ring W).run
          { s with
            mem := m'
            reader := pc'
            shouldContinue := pc.continues s.shouldContinue } acts := by
  simp [System.run, ring, step, hpc, hstep]

/-- Past the loop, four steps finish the `Write`, whatever the status. -/
private theorem finish_write {s : State W} {w : W} {value : Int}
    (hpc : s.writer w = .claim value) :
    (ring W).run s [.write w, .write w, .write w, .write w]
      = some { s with
          mem := s.mem.writeCall value
          writer := Function.update s.writer w .idle } := by
  rw [run_write hpc rfl,
    run_write (Function.update_self ..) rfl,
    run_write (Function.update_self ..) rfl,
    run_write (Function.update_self ..) rfl]
  simp only [Function.update_idem]
  rfl

/-- Past the loop, four steps finish the `Read`, whatever the status. -/
private theorem finish_read {s : State W} (hpc : s.reader = .claim) :
    (ring W).run s [.read, .read, .read, .read]
      = some { s with
          mem := { s.mem with
            nextReadSlot := s.mem.nextReadSlot + 1
            rwStatus := .idle }
          reader := .idle
          shouldContinue :=
            if s.mem.data (slot numSlots s.mem.nextReadSlot) = endFlag
            then false else s.shouldContinue } := by
  rw [run_read hpc rfl, run_read rfl rfl, run_read rfl rfl, run_read rfl rfl]
  rfl

/-- A writer alone passes the loop: at the first test of its condition,
or at the first exchange. -/
private theorem pass_write {s : State W} {w : W} {value : Int}
    (hpc : s.writer w = .idle) (hidle : s.mem.rwStatus = .idle) :
    ∃ acts status, (∀ a ∈ acts, a = .write w)
      ∧ (ring W).run s (.callWrite w value :: acts)
        = some { s with
            mem := { s.mem with rwStatus := status }
            writer := Function.update s.writer w (.claim value) } := by
  by_cases htest : spins s.mem.nextWriteSlot s.mem.nextReadSlot
  · refine ⟨[.write w, .write w, .write w], .writing, by simp, ?_⟩
    simp [System.run, ring, step, SharedData.write, SharedData.acquire, hpc,
      htest, hidle]
  · refine ⟨[.write w, .write w], .idle, by simp, ?_⟩
    simp [System.run, ring, step, SharedData.write, SharedData.acquire, hpc,
      htest, ← hidle]

/-- The reader alone passes its `sem_wait` and the loop. -/
private theorem pass_read {s : State W} (hpc : s.reader = .idle)
    (hidle : s.mem.rwStatus = .idle) (hsem : 0 < s.mem.semRead) :
    ∃ acts status, (∀ a ∈ acts, a = .read)
      ∧ (ring W).run s (.callRead :: acts)
        = some { s with
            mem := { s.mem with
              semRead := s.mem.semRead - 1
              rwStatus := status }
            reader := .claim } := by
  by_cases htest : spins s.mem.nextWriteSlot s.mem.nextReadSlot
  · refine ⟨[.read, .read, .read, .read], .reading, by simp, ?_⟩
    simp [System.run, ring, step, SharedData.read, SharedData.acquire,
      ReadPc.continues, hpc, hsem, htest, hidle]
  · refine ⟨[.read, .read, .read], .idle, by simp, ?_⟩
    simp [System.run, ring, step, SharedData.read, SharedData.acquire,
      ReadPc.continues, hpc, hsem, htest, ← hidle]

/-- A writer alone runs `Write(value)` to its end, and the segment is
then what `writeCall` says. -/
theorem solo_write {s : State W} {w : W} {value : Int}
    (hpc : s.writer w = .idle) (hidle : s.mem.rwStatus = .idle) :
    ∃ acts, (∀ a ∈ acts, a = .write w)
      ∧ (ring W).run s (.callWrite w value :: acts)
        = some { s with mem := s.mem.writeCall value } := by
  obtain ⟨acts, status, hacts, hpass⟩ := pass_write hpc hidle
  have hrun := System.run_append hpass
    (finish_write (Function.update_self ..))
  refine ⟨_, ?_, hrun.trans ?_⟩
  · intro a ha
    rcases List.mem_append.mp ha with ha | ha
    · exact hacts a ha
    · simpa using ha
  · have hback : Function.update s.writer w .idle = s.writer := by
      rw [← hpc, Function.update_eq_self]
    simp only [Function.update_idem, hback]
    rfl

/-- The reader alone runs `Read` to its end, and the segment is then
what `readCall` says. -/
theorem solo_read {s : State W} {value : Int} {m' : SharedData}
    (hpc : s.reader = .idle) (hidle : s.mem.rwStatus = .idle)
    (hcall : s.mem.readCall = some (value, m')) :
    ∃ acts, (∀ a ∈ acts, a = .read)
      ∧ (ring W).run s (.callRead :: acts)
        = some { s with
            mem := m'
            shouldContinue :=
              if value = endFlag then false else s.shouldContinue } := by
  obtain ⟨hsem, rfl, rfl⟩ := readCall_eq_some hcall
  obtain ⟨acts, status, hacts, hpass⟩ := pass_read hpc hidle hsem
  have hrun := System.run_append hpass (finish_read rfl)
  refine ⟨_, ?_, hrun.trans ?_⟩
  · intro a ha
    rcases List.mem_append.mp ha with ha | ha
    · exact hacts a ha
    · simpa using ha
  · simp only [← hpc]

-- =========================================================== calls in sequence

/-- One call of a sequence. The value of a `Write` is named by how many
`Write`s came before it. -/
inductive Call
  | write
  | read
  deriving DecidableEq, Repr

/-- One writer and one reader after a single writer start, each call
running to its end before the next begins: the `i`-th `Write` passes
`vals i`, and a `Read` is issued only when `sem_read` is positive. -/
def serial (vals : Nat → Int) : System SharedData Call where
  init := SharedData.fresh.construct
  step m
    | .write => some (m.writeCall (vals m.nextWriteSlot))
    | .read => m.readCall.map Prod.snd

/-- A sequence of whole calls is a run of the ring: both threads are
between two calls again at its end. -/
theorem serial_runs {vals : Nat → Int} {calls : List Call}
    {m : SharedData}
    (hrun : (serial vals).run (serial vals).init calls = some m) :
    ∃ acts b, (ring Unit).run (ring Unit).init acts
      = some ⟨m, fun _ => .idle, .idle, b⟩ := by
  suffices h : ∀ (calls : List Call) (m₀ : SharedData) (b₀ : Bool),
      m₀.rwStatus = .idle → (serial vals).run m₀ calls = some m →
      ∃ acts b, (ring Unit).run ⟨m₀, fun _ => .idle, .idle, b₀⟩ acts
        = some ⟨m, fun _ => .idle, .idle, b⟩ from
    h calls _ true rfl hrun
  intro calls
  induction calls with
  | nil =>
      intro m₀ b₀ _ hrun
      simp only [System.run, Option.some.injEq] at hrun
      exact ⟨[], b₀, by rw [hrun]; rfl⟩
  | cons call rest ih =>
      intro m₀ b₀ hidle hrun
      obtain ⟨m₁, hcall, hrest⟩ := System.run_cons_eq_some.mp hrun
      cases call with
      | write =>
          obtain rfl : m₀.writeCall (vals m₀.nextWriteSlot) = m₁ :=
            Option.some.inj hcall
          obtain ⟨acts₁, -, hacts₁⟩ :=
            @solo_write Unit _ ⟨m₀, fun _ => .idle, .idle, b₀⟩ ()
              (vals m₀.nextWriteSlot) rfl hidle
          obtain ⟨acts₂, b, hacts₂⟩ := ih _ b₀ rfl hrest
          exact ⟨_, b, System.run_append hacts₁ hacts₂⟩
      | read =>
          obtain ⟨⟨value, m'⟩, hread, rfl⟩ := Option.map_eq_some_iff.mp hcall
          have hidle' : m'.rwStatus = .idle := by
            rw [(readCall_eq_some hread).2.2]
          obtain ⟨acts₁, -, hacts₁⟩ := solo_read (W := Unit)
            (s := ⟨m₀, fun _ => .idle, .idle, b₀⟩) rfl hidle hread
          obtain ⟨acts₂, b, hacts₂⟩ := ih _ _ hidle' hrest
          exact ⟨_, b, System.run_append hacts₁ hacts₂⟩

/-- The value a call returns, if it is a `Read`. -/
def returns (m : SharedData) : Call → List Int
  | .write => []
  | .read => [m.data (slot numSlots m.nextReadSlot)]

/-- The values the `Read`s of a sequence returned. -/
def returned (vals : Nat → Int) (calls : List Call) : List Int :=
  (serial vals).trace returns (serial vals).init calls

end DailyStudy.Covering
