/-
The semaphore ring, one whole call at a time. The bodies of `Write` and
`Read` are those of mmap4_sem.cc, mmap5 and mmap6 alike; the programs
differ in where the members they use live and how long these last.

`solo_write` and `solo_read` run one thread of the ring, step by step,
and find that a call which can pass its `sem_wait` does exactly what
`writeCall` and `readCall` say.

The processes of mmap5 and mmap6 have counters of their own, of 32 bits,
and their calls compute slots from them (`Private.write`, `Private.read`).
Until a counter turns these are the calls of the ring (`write_ring`,
`read_ring`); after `2 ^ 31` of them the slot is negative.
-/
import DailyStudy.Lib.Wrap
import DailyStudy.Sem.Basic

namespace DailyStudy.Sem

open Interleave

/-- What a whole `Write(value)` does; none while it cannot pass its
`sem_wait`. -/
def SharedMemory.writeCall (m : SharedMemory) (value : Int) :
    Option SharedMemory :=
  if 0 < m.semWrite then
    some { m with
      semWrite := m.semWrite - 1
      nextWriteSlot := m.nextWriteSlot + 1
      memory := Function.update m.memory (slot numSlots m.nextWriteSlot) value
      semRead := m.semRead + 1 }
  else none

/-- What a whole `Read` does, and the value it returns; none while it
cannot pass its `sem_wait`. -/
def SharedMemory.readCall (m : SharedMemory) :
    Option (Int × SharedMemory) :=
  if 0 < m.semRead then
    some (m.memory (slot numSlots m.nextReadSlot),
      { m with
        semRead := m.semRead - 1
        nextReadSlot := m.nextReadSlot + 1
        semWrite := m.semWrite + 1 })
  else none

/-- What a `Write` that returns did. -/
theorem writeCall_eq_some {m m' : SharedMemory} {value : Int}
    (h : m.writeCall value = some m') :
    0 < m.semWrite ∧ m' = { m with
      semWrite := m.semWrite - 1
      nextWriteSlot := m.nextWriteSlot + 1
      memory := Function.update m.memory (slot numSlots m.nextWriteSlot) value
      semRead := m.semRead + 1 } := by
  unfold SharedMemory.writeCall at h
  by_cases hsem : 0 < m.semWrite
  · rw [if_pos hsem] at h
    exact ⟨hsem, (Option.some.inj h).symm⟩
  · rw [if_neg hsem] at h
    cases h

/-- What a `Read` that returns did. -/
theorem readCall_eq_some {m m' : SharedMemory} {value : Int}
    (h : m.readCall = some (value, m')) :
    0 < m.semRead ∧ value = m.memory (slot numSlots m.nextReadSlot)
      ∧ m' = { m with
        semRead := m.semRead - 1
        nextReadSlot := m.nextReadSlot + 1
        semWrite := m.semWrite + 1 } := by
  unfold SharedMemory.readCall at h
  by_cases hsem : 0 < m.semRead
  · rw [if_pos hsem] at h
    obtain ⟨rfl, rfl⟩ := Prod.ext_iff.mp (Option.some.inj h)
    exact ⟨hsem, rfl, rfl⟩
  · rw [if_neg hsem] at h
    cases h

-- ======================================================== calls of a process

/-- The counters of `SharedMemory` where they are private members of a
process, as in mmap5 and mmap6: two `std::atomic<int>`. -/
structure Private where
  nextWriteSlot : BitVec 32
  nextReadSlot : BitVec 32
  deriving DecidableEq, Repr

/-- Both counters, as every constructor leaves them. -/
def Private.new : Private where
  nextWriteSlot := 0
  nextReadSlot := 0

/-- The members that all processes share. -/
structure Shared where
  memory : Fin numSlots → Int
  semWrite : Nat
  semRead : Nat

/-- What a call comes to: it cannot be made or cannot pass its `sem_wait`,
it accesses the memory outside the ring, which is undefined, or it is
done. -/
inductive Call (α : Type)
  | blocked
  | undefined
  | done (a : α)

/-- A call, with something made of its result. -/
def Call.map {α β : Type} (f : α → β) : Call α → Call β
  | .blocked => .blocked
  | .undefined => .undefined
  | .done a => .done (f a)

/-- The call as a step of a system: nothing is known (none) after one that
is undefined. -/
def Call.step {α : Type} : Call α → Option (Option α)
  | .blocked => none
  | .undefined => some none
  | .done a => some (some a)

theorem Call.map_eq_done {α β : Type} {f : α → β} {x : Call α} {b : β}
    (h : x.map f = .done b) : ∃ a, x = .done a ∧ f a = b := by
  cases x with
  | done a => exact ⟨a, rfl, Call.done.inj h⟩
  | blocked => cases h
  | undefined => cases h

theorem Call.map_eq_undefined {α β : Type} {f : α → β} {x : Call α}
    (h : x.map f = .undefined) : x = .undefined := by
  cases x with
  | undefined => rfl
  | blocked => cases h
  | done a => cases h

theorem Call.step_eq_some {α : Type} {x : Call α} {o : Option α}
    (h : x.step = some o) :
    x = .undefined ∧ o = none ∨ ∃ a, x = .done a ∧ o = some a := by
  cases x with
  | blocked => cases h
  | undefined => exact .inl ⟨rfl, (Option.some.inj h).symm⟩
  | done a => exact .inr ⟨a, rfl, (Option.some.inj h).symm⟩

/-- The slot `old % NUM_SLOTS`, by C++'s truncating `%` (none: it is not
in the ring). -/
def slotOf (old : BitVec 32) : Option (Fin numSlots) :=
  let rem := old.toInt.tmod numSlots
  if h : 0 ≤ rem ∧ rem < numSlots then
    some ⟨rem.toNat, (Int.toNat_lt h.1).mpr h.2⟩
  else none

/-- `Write(value)` in a process with the counters `p`. -/
def Private.write (p : Private) (m : Shared) (value : Int) :
    Call (Private × Shared) :=
  if 0 < m.semWrite then
    match slotOf p.nextWriteSlot with
    | none => .undefined
    | some c =>
        .done ({ p with nextWriteSlot := p.nextWriteSlot + 1 },
          { semWrite := m.semWrite - 1
            memory := Function.update m.memory c value
            semRead := m.semRead + 1 })
  else .blocked

/-- `Read` in a process with the counters `p`, with the value. -/
def Private.read (p : Private) (m : Shared) :
    Call (Int × Private × Shared) :=
  if 0 < m.semRead then
    match slotOf p.nextReadSlot with
    | none => .undefined
    | some c =>
        .done (m.memory c,
          { p with nextReadSlot := p.nextReadSlot + 1 },
          { m with
            semRead := m.semRead - 1
            semWrite := m.semWrite + 1 })
  else .blocked

/-- What a `Write` that is done did. -/
theorem write_eq_done {p : Private} {m : Shared} {value : Int}
    {res : Private × Shared} (h : p.write m value = .done res) :
    0 < m.semWrite ∧ ∃ c, slotOf p.nextWriteSlot = some c
      ∧ res = ({ p with nextWriteSlot := p.nextWriteSlot + 1 },
          { semWrite := m.semWrite - 1
            memory := Function.update m.memory c value
            semRead := m.semRead + 1 }) := by
  unfold Private.write at h
  split at h
  next hsem =>
    cases hc : slotOf p.nextWriteSlot with
    | none =>
        rw [hc] at h
        cases h
    | some c =>
        rw [hc] at h
        exact ⟨hsem, c, rfl, (Call.done.inj h).symm⟩
  next => cases h

/-- One that is undefined computed a slot that is not in the ring. -/
theorem write_eq_undefined {p : Private} {m : Shared} {value : Int}
    (h : p.write m value = .undefined) : slotOf p.nextWriteSlot = none := by
  unfold Private.write at h
  split at h
  next =>
    cases hc : slotOf p.nextWriteSlot with
    | none => rfl
    | some c =>
        rw [hc] at h
        cases h
  next => cases h

/-- What a `Read` that is done did. -/
theorem read_eq_done {p : Private} {m : Shared}
    {res : Int × Private × Shared} (h : p.read m = .done res) :
    0 < m.semRead ∧ ∃ c, slotOf p.nextReadSlot = some c
      ∧ res = (m.memory c,
          { p with nextReadSlot := p.nextReadSlot + 1 },
          { m with
            semRead := m.semRead - 1
            semWrite := m.semWrite + 1 }) := by
  unfold Private.read at h
  split at h
  next hsem =>
    cases hc : slotOf p.nextReadSlot with
    | none =>
        rw [hc] at h
        cases h
    | some c =>
        rw [hc] at h
        exact ⟨hsem, c, rfl, (Call.done.inj h).symm⟩
  next => cases h

/-- One that is undefined computed a slot that is not in the ring. -/
theorem read_eq_undefined {p : Private} {m : Shared}
    (h : p.read m = .undefined) : slotOf p.nextReadSlot = none := by
  unfold Private.read at h
  split at h
  next =>
    cases hc : slotOf p.nextReadSlot with
    | none => rfl
    | some c =>
        rw [hc] at h
        cases h
  next => cases h

/-- The first `2 ^ 31` values of a counter are those of the unbounded one;
the next is negative, and so is its remainder. -/
theorem slotOf_ofNat {n : Nat} (hn : n ≤ 2 ^ 31) :
    slotOf (.ofNat 32 n)
      = if n < 2 ^ 31 then some (slot numSlots n) else none := by
  by_cases hlt : n < 2 ^ 31
  · have hrem := Wrap.tmod_ofNat (w := 32) (by decide) hlt numSlots
    have hmod := Nat.mod_lt n (by decide : 0 < numSlots)
    rw [if_pos hlt]
    unfold slotOf
    simp only [hrem]
    rw [dif_pos (by omega)]
    rfl
  · obtain rfl : n = 2 ^ 31 := Nat.le_antisymm hn (Nat.le_of_not_lt hlt)
    decide

/-- The members a process sees, in a ring with the true counts. -/
def Shared.ring (m : Shared) (w r : Nat) : SharedMemory where
  memory := m.memory
  nextWriteSlot := w
  nextReadSlot := r
  semWrite := m.semWrite
  semRead := m.semRead

/-- A `Write` before its counter turns is one of the ring. -/
theorem write_ring {p p' : Private} {m m' : Shared} {value : Int} {w : Nat}
    (r : Nat) (hw : w < 2 ^ 31) (hp : p.nextWriteSlot = .ofNat 32 w)
    (h : p.write m value = .done (p', m')) :
    (m.ring w r).writeCall value = some (m'.ring (w + 1) r)
      ∧ p'.nextWriteSlot = .ofNat 32 (w + 1) := by
  obtain ⟨hsem, c, hc, hres⟩ := write_eq_done h
  rw [hp, slotOf_ofNat hw.le, if_pos hw] at hc
  cases hc
  cases hres
  refine ⟨if_pos hsem, ?_⟩
  rw [← Wrap.ofNat_add_one, ← hp]

/-- And so is a `Read`. -/
theorem read_ring {p p' : Private} {m m' : Shared} {value : Int} {r : Nat}
    (w : Nat) (hr : r < 2 ^ 31) (hp : p.nextReadSlot = .ofNat 32 r)
    (h : p.read m = .done (value, p', m')) :
    (m.ring w r).readCall = some (value, m'.ring w (r + 1))
      ∧ p'.nextReadSlot = .ofNat 32 (r + 1) := by
  obtain ⟨hsem, c, hc, hres⟩ := read_eq_done h
  rw [hp, slotOf_ofNat hr.le, if_pos hr] at hc
  cases hc
  cases hres
  refine ⟨if_pos hsem, ?_⟩
  rw [← Wrap.ofNat_add_one, ← hp]

-- ======================================================== threads on their own

variable {W R : Type} [DecidableEq W] [DecidableEq R]

/-- A writer alone runs `Write(value)` to its end, and the memory is
then what `writeCall` says. -/
theorem solo_write {s : State W R} {w : W} {value : Int}
    {m' : SharedMemory} (hpc : s.writer w = .idle)
    (hcall : s.mem.writeCall value = some m') :
    (ring W R).run s
        [.callWrite w value, .write w, .write w, .write w, .write w]
      = some { s with mem := m' } := by
  obtain ⟨hsem, rfl⟩ := writeCall_eq_some hcall
  have hback : Function.update s.writer w .idle = s.writer := by
    rw [← hpc, Function.update_eq_self]
  simp [System.run, ring, step, SharedMemory.write, hpc, hsem, hback]

/-- A reader alone runs `Read` to its end, and the memory is then what
`readCall` says. -/
theorem solo_read {s : State W R} {r : R} {value : Int}
    {m' : SharedMemory} (hpc : s.reader r = .idle)
    (hcall : s.mem.readCall = some (value, m')) :
    (ring W R).run s [.callRead r, .read r, .read r, .read r, .read r]
      = some { s with mem := m' } := by
  obtain ⟨hsem, -, rfl⟩ := readCall_eq_some hcall
  have hback : Function.update s.reader r .idle = s.reader := by
    rw [← hpc, Function.update_eq_self]
  simp [System.run, ring, step, SharedMemory.read, hpc, hsem, hback]

end DailyStudy.Sem
