/-
No wake-up is lost in the condition-variable ring, although a `Write`
wakes one reader only.

# The invariant

While some reader sleeps, the items in the ring are accounted for: each
has a reader that was woken for it and has not looked yet, up to the one
item `itemsDue` allows the critical section. A `Write` raises the count
by one item and pays with its `notify_one`. A woken reader that takes
the mutex stops being counted and either takes an item with it or finds
the ring empty, and then nothing is to be accounted for. A reader that
barges in takes an item and no wake-up, which is the harmless direction.

While some writer sleeps, the ring is full, up to the one slot a `Read`
has freed and not announced yet; `notify_all` then leaves no sleeper.
-/
import DailyStudy.Lib.Census
import DailyStudy.Cv.Proofs.Queue

namespace DailyStudy.Cv

open Interleave

-- ============================================================ the invariant

/-- Woken, by a notification or spuriously, and not yet back at its
predicate. -/
def ReadPc.isWoken : ReadPc → Bool
  | .woken => true
  | _ => false

/-- The items the critical section still owes a wake-up: the one being
written, and the one for which a woken reader just took the mutex. -/
def itemsDue : WritePc ⊕ ReadPc → Nat
  | .inl (.store _ _) | .inl (.notify _) | .inr .check | .inr .claim => 1
  | _ => 0

/-- The slots the critical section freed and did not announce yet. -/
def roomDue : WritePc ⊕ ReadPc → Nat
  | .inr (.load _) | .inr (.notify _) => 1
  | _ => 0

variable {W R : Type}

/-- A reader sleeps in `data_ready_.wait`. -/
def SomeReaderAsleep (s : State W R) : Prop := ∃ r, s.reader r = .asleep

/-- A writer sleeps in `data_available_.wait`. -/
def SomeWriterAsleep (s : State W R) : Prop := ∃ w v, s.writer w = .asleep v

/-- Every thread is asleep. -/
def AllAsleep (s : State W R) : Prop :=
  (∀ w, ∃ v, s.writer w = .asleep v) ∧ ∀ r, s.reader r = .asleep

/-- Sleepers are accounted for, on both sides. -/
structure Wakeups [Fintype R] (s : State W R) : Prop where
  readers : SomeReaderAsleep s → s.mem.nextWriteSlot
    ≤ s.mem.nextReadSlot + census ReadPc.isWoken s.reader
      + itemsDue (phase s)
  writers : SomeWriterAsleep s → numSlots + s.mem.nextReadSlot
    ≤ s.mem.nextWriteSlot + roomDue (phase s)

-- ============================================================= preservation

theorem WritePc.wake_ne_asleep (pc : WritePc) (v : Int) :
    pc.wake ≠ .asleep v := by
  cases pc <;> simp [WritePc.wake]

variable [DecidableEq W] [DecidableEq R]

omit [DecidableEq W] in
/-- A reader that moves and does not fall asleep adds no sleeper. -/
private theorem asleep_of_reader {f : R → ReadPc} {r : R} {new : ReadPc}
    (h : ∃ r', Function.update f r new r' = .asleep)
    (hne : new ≠ .asleep) : ∃ r', f r' = .asleep := by
  obtain ⟨r', hr'⟩ := h
  exact ⟨r', (of_update_eq hr' hne).2⟩

omit [DecidableEq R] in
/-- A writer that moves and does not fall asleep adds no sleeper. -/
private theorem asleep_of_writer {f : W → WritePc} {w : W} {new : WritePc}
    (h : ∃ w' v, Function.update f w new w' = .asleep v)
    (hne : ∀ v, new ≠ .asleep v) : ∃ w' v, f w' = .asleep v := by
  obtain ⟨w', v, hw'⟩ := h
  exact ⟨w', v, (of_update_eq hw' (hne v)).2⟩

variable [Fintype R]

theorem wakeups_init : Wakeups (ring W R).init where
  readers := by
    intro h
    obtain ⟨r, hr⟩ := h
    cases hr
  writers := by
    intro h
    obtain ⟨w, v, hw⟩ := h
    cases hw

section Move

variable {s s' : State W R} {p p' : WritePc ⊕ ReadPc}

omit [DecidableEq W] in
/-- A reader that moves and does not fall asleep: the item it takes with
it, the wake-up it uses up and what is due balance. -/
private theorem Wakeups.items (hn : Wakeups s) (hp : phase s = p)
    (hp' : phase s' = p') {r : R} {old new : ReadPc}
    (hpc : s.reader r = old)
    (hreader : s'.reader = Function.update s.reader r new)
    (hwrite : s'.mem.nextWriteSlot = s.mem.nextWriteSlot)
    (hne : new ≠ .asleep)
    (hitems : s.mem.nextReadSlot + old.isWoken.toNat + itemsDue p
      ≤ s'.mem.nextReadSlot + new.isWoken.toNat + itemsDue p') :
    SomeReaderAsleep s' → s'.mem.nextWriteSlot
      ≤ s'.mem.nextReadSlot + census ReadPc.isWoken s'.reader
        + itemsDue (phase s') := by
  intro h
  unfold SomeReaderAsleep at h
  rw [hreader] at h
  have hle := hn.readers (asleep_of_reader h hne)
  have hc := census_move ReadPc.isWoken hpc new
  rw [hp] at hle
  rw [hreader, hwrite, hp']
  omega

omit [DecidableEq R] in
/-- A writer that moves and does not fall asleep: the room it takes and
what is due balance. -/
private theorem Wakeups.room (hn : Wakeups s) (hp : phase s = p)
    (hp' : phase s' = p') {w : W} {new : WritePc}
    (hwriter : s'.writer = Function.update s.writer w new)
    (hread : s'.mem.nextReadSlot = s.mem.nextReadSlot)
    (hne : ∀ v, new ≠ .asleep v)
    (hroom : s.mem.nextWriteSlot + roomDue p
      ≤ s'.mem.nextWriteSlot + roomDue p') :
    SomeWriterAsleep s' → numSlots + s'.mem.nextReadSlot
      ≤ s'.mem.nextWriteSlot + roomDue (phase s') := by
  intro h
  unfold SomeWriterAsleep at h
  rw [hwriter] at h
  have hle := hn.writers (asleep_of_writer h hne)
  rw [hp] at hle
  rw [hread, hp']
  omega

omit [DecidableEq R] in
/-- A writer moves and every reader stays where it is. -/
private theorem Wakeups.writer_moves (hn : Wakeups s) (hp : phase s = p)
    (hp' : phase s' = p') {w : W} {new : WritePc}
    (hwriter : s'.writer = Function.update s.writer w new)
    (hreader : s'.reader = s.reader)
    (hread : s'.mem.nextReadSlot = s.mem.nextReadSlot)
    (hne : ∀ v, new ≠ .asleep v)
    (hitems : s'.mem.nextWriteSlot + itemsDue p
      ≤ s.mem.nextWriteSlot + itemsDue p')
    (hroom : s.mem.nextWriteSlot + roomDue p
      ≤ s'.mem.nextWriteSlot + roomDue p') : Wakeups s' := by
  refine ⟨fun h => ?_, hn.room hp hp' hwriter hread hne hroom⟩
  unfold SomeReaderAsleep at h
  rw [hreader] at h
  have hle := hn.readers h
  rw [hp] at hle
  rw [hreader, hread, hp']
  omega

omit [DecidableEq W] in
/-- A reader moves and every writer stays where it is. -/
private theorem Wakeups.reader_moves (hn : Wakeups s) (hp : phase s = p)
    (hp' : phase s' = p') {r : R} {old new : ReadPc}
    (hpc : s.reader r = old)
    (hreader : s'.reader = Function.update s.reader r new)
    (hwriter : s'.writer = s.writer)
    (hwrite : s'.mem.nextWriteSlot = s.mem.nextWriteSlot)
    (hne : new ≠ .asleep)
    (hitems : s.mem.nextReadSlot + old.isWoken.toNat + itemsDue p
      ≤ s'.mem.nextReadSlot + new.isWoken.toNat + itemsDue p')
    (hroom : s'.mem.nextReadSlot + roomDue p
      ≤ s.mem.nextReadSlot + roomDue p') : Wakeups s' := by
  refine ⟨hn.items hp hp' hpc hreader hwrite hne hitems, fun h => ?_⟩
  unfold SomeWriterAsleep at h
  rw [hwriter] at h
  have hle := hn.writers h
  rw [hp] at hle
  rw [hwrite, hp']
  omega

end Move

/-- Every step keeps the sleepers accounted for. -/
theorem wakeups_moves {s s' : State W R} {a : Act W R}
    {es : List (QueueOp Int)} (hx : Exclusive s) (hn : Wakeups s)
    (hm : Moves s a s' es) : Wakeups s' := by
  have hx' := exclusive_moves hx hm
  cases hm with
  | callWrite hpc =>
      exact hn.writer_moves rfl (hx.phase_outside_writer hpc rfl)
        rfl rfl rfl nofun (Nat.le_refl _) (Nat.le_refl _)
  | lockWrite _ hfree =>
      have hp' := hx'.phase_writer (Function.update_self ..) rfl
      exact hn.writer_moves (phase_free hfree) hp' rfl rfl rfl nofun
        (Nat.le_refl _) (Nat.le_refl _)
  | passWrite hpc _ =>
      have hp := hx.phase_writer hpc rfl
      have hp' := hx'.phase_writer (Function.update_self ..) rfl
      exact hn.writer_moves hp hp' rfl rfl rfl nofun
        (Nat.le_refl _) (Nat.le_refl _)
  | sleepWrite hpc hpred =>
      have hp := hx.phase_writer hpc rfl
      refine ⟨fun h => ?_, fun _ => ?_⟩
      · have hle := hn.readers h
        rw [hp] at hle
        rw [phase_free rfl]
        exact hle
      · -- it falls asleep because the ring is full
        unfold SharedMemory.canWrite at hpred
        show numSlots + s.mem.nextReadSlot ≤ s.mem.nextWriteSlot + _
        omega
  | claimWrite hpc =>
      -- the new item is due a wake-up
      have hp := hx.phase_writer hpc rfl
      have hp' := hx'.phase_writer (Function.update_self ..) rfl
      exact hn.writer_moves hp hp' rfl rfl rfl nofun
        (Nat.le_refl _) (Nat.le_succ _)
  | store hpc =>
      have hp := hx.phase_writer hpc rfl
      have hp' := hx'.phase_writer (Function.update_self ..) rfl
      exact hn.writer_moves hp hp' rfl rfl rfl nofun
        (Nat.le_refl _) (Nat.le_refl _)
  | notifyOne hpc hr =>
      -- the item's debt becomes a woken reader
      have hp := hx.phase_writer hpc rfl
      have hp' := hx'.phase_writer (Function.update_self ..) rfl
      exact ⟨hn.items hp hp' hr rfl rfl nofun (Nat.le_refl _),
        hn.room hp hp' rfl rfl nofun (Nat.le_refl _)⟩
  | notifyNone hpc hnone =>
      have hp := hx.phase_writer hpc rfl
      have hp' := hx'.phase_writer (Function.update_self ..) rfl
      refine ⟨fun ⟨r, hr⟩ => absurd hr (hnone r), ?_⟩
      exact hn.room hp hp' rfl rfl nofun (Nat.le_refl _)
  | unlockWrite hpc =>
      have hp := hx.phase_writer hpc rfl
      exact hn.writer_moves hp (phase_free rfl) rfl rfl rfl nofun
        (Nat.le_refl _) (Nat.le_refl _)
  | spuriousWrite hpc =>
      exact hn.writer_moves rfl (hx.phase_outside_writer hpc rfl)
        rfl rfl rfl nofun (Nat.le_refl _) (Nat.le_refl _)
  | callRead hpc =>
      exact hn.reader_moves rfl (hx.phase_outside_reader hpc rfl) hpc
        rfl rfl rfl nofun (Nat.le_refl _) (Nat.le_refl _)
  | lockRead hpc hfree =>
      -- at most one woken reader stops being counted
      have hp' := hx'.phase_reader (Function.update_self ..) rfl
      rcases hpc with hpc | hpc
      · exact hn.reader_moves (phase_free hfree) hp' hpc rfl rfl rfl nofun
          (Nat.le_succ _) (Nat.le_refl _)
      · exact hn.reader_moves (phase_free hfree) hp' hpc rfl rfl rfl nofun
          (Nat.le_refl _) (Nat.le_refl _)
  | passRead hpc _ =>
      have hp := hx.phase_reader hpc rfl
      have hp' := hx'.phase_reader (Function.update_self ..) rfl
      exact hn.reader_moves hp hp' hpc rfl rfl rfl nofun
        (Nat.le_refl _) (Nat.le_refl _)
  | sleepRead hpc hpred =>
      have hp := hx.phase_reader hpc rfl
      refine ⟨fun _ => ?_, fun h => ?_⟩
      · -- it falls asleep because the ring is empty
        unfold SharedMemory.canRead at hpred
        show s.mem.nextWriteSlot ≤ s.mem.nextReadSlot + _ + _
        omega
      · have hle := hn.writers h
        rw [hp] at hle
        rw [phase_free rfl]
        exact hle
  | claimRead hpc =>
      -- it takes the item with it, and the slot is not announced yet
      have hp := hx.phase_reader hpc rfl
      have hp' := hx'.phase_reader (Function.update_self ..) rfl
      exact hn.reader_moves hp hp' hpc rfl rfl rfl nofun
        (Nat.le_refl _) (Nat.le_refl _)
  | load hpc =>
      have hp := hx.phase_reader hpc rfl
      have hp' := hx'.phase_reader (Function.update_self ..) rfl
      exact hn.reader_moves hp hp' hpc rfl rfl rfl nofun
        (Nat.le_refl _) (Nat.le_refl _)
  | notifyAll hpc =>
      have hp := hx.phase_reader hpc rfl
      have hp' := hx'.phase_reader (Function.update_self ..) rfl
      refine ⟨hn.items hp hp' hpc rfl rfl nofun (Nat.le_refl _), ?_⟩
      -- nobody is left asleep
      rintro ⟨w, v', hw⟩
      exact absurd hw (WritePc.wake_ne_asleep _ _)
  | unlockRead hpc =>
      have hp := hx.phase_reader hpc rfl
      exact hn.reader_moves hp (phase_free rfl) hpc rfl rfl rfl nofun
        (Nat.le_refl _) (Nat.le_refl _)
  | spuriousRead hpc =>
      refine hn.reader_moves rfl (hx.phase_outside_reader hpc rfl) hpc
        rfl rfl rfl nofun ?_ (Nat.le_refl _)
      show s.mem.nextReadSlot + 0 + _ ≤ s.mem.nextReadSlot + 1 + _
      omega

-- ============================================================= no lost wake-up

omit [DecidableEq W] [DecidableEq R] [Fintype R] in
/-- With everyone asleep nobody owns the mutex. -/
theorem AllAsleep.mutex_free {s : State W R} (hx : Exclusive s)
    (h : AllAsleep s) : s.mem.mutex = none := by
  apply hx.mutex_free
  · intro w
    obtain ⟨v, hv⟩ := h.1 w
    rw [hv]
    rfl
  · intro r
    rw [h.2 r]
    rfl

/-- What every reachable state has: the mutex is exclusive, the memory
abstracts to some queue, and the sleepers are accounted for. -/
theorem wakeups_reachable {s : State W R} (h : (ring W R).Reachable s) :
    (∃ q, Refines s q) ∧ Wakeups s := by
  refine h.invariant (I := fun s => (∃ q, Refines s q) ∧ Wakeups s)
    ⟨⟨_, refines_simulation.init⟩, wakeups_init⟩ ?_
  intro s a s' _ hi hstep
  obtain ⟨⟨q, hq⟩, hn⟩ := hi
  have hm := step_moves hstep
  obtain ⟨q', -, hq'⟩ := refines_moves hq hm
  exact ⟨⟨q', hq'⟩, wakeups_moves hq.exclusive hn hm⟩

/-- No lost wake-up. Whenever the mutex is free: while a reader sleeps,
the ring holds at most one item for each woken reader; while a writer
sleeps, the ring is full. And with a thread on each side the threads are
never all asleep. -/
theorem no_lost_wakeup {s : State W R} (h : (ring W R).Reachable s) :
    (s.mem.mutex = none → SomeReaderAsleep s →
      (s.mem.nextWriteSlot : Int) - s.mem.nextReadSlot
        ≤ census ReadPc.isWoken s.reader)
    ∧ (s.mem.mutex = none → SomeWriterAsleep s →
      (s.mem.nextWriteSlot : Int) - s.mem.nextReadSlot = numSlots)
    ∧ (Nonempty W → Nonempty R → ¬ AllAsleep s) := by
  obtain ⟨⟨q, hx, hab⟩, hR, hW⟩ := wakeups_reachable h
  refine ⟨fun hfree hr => ?_, fun hfree hw => ?_, fun ⟨w⟩ ⟨r⟩ hall => ?_⟩
  · have hle := hR hr
    rw [phase_free hfree] at hle
    simp only [itemsDue] at hle
    omega
  · have hle := hW hw
    rw [phase_free hfree] at hle hab
    obtain ⟨-, hlive⟩ : Rests s.mem q := hab
    have hlen := hlive.length
    have hroom := hlive.room
    simp only [roomDue] at hle
    omega
  · -- the ring would be empty and full
    have hfree := hall.mutex_free hx
    have hleR := hR ⟨r, hall.2 r⟩
    have hleW := hW ⟨w, hall.1 w⟩
    have hzero : census ReadPc.isWoken s.reader = 0 :=
      census_eq_zero.mpr fun r' => by
        rw [hall.2 r']
        rfl
    rw [phase_free hfree, hzero] at hleR
    rw [phase_free hfree] at hleW
    simp only [itemsDue, roomDue] at hleR hleW
    have hpos : 0 < numSlots := by decide
    omega

/-- Two readers fall asleep; a `Write` wakes one of them, and the other
sleeps on with the item and the woken reader both there. -/
def oneOfTwoWoken : List (Act Unit Bool) :=
  [.callRead false, .read false, .read false, .callRead true, .read true,
    .read true, .callWrite () 7, .write (), .write (), .write (), .write (),
    .notifyOne () (some true), .write ()]

/-- The theorem at the end of that run. -/
theorem no_lost_wakeup_one_of_two :
    ∃ s, (ring Unit Bool).run (ring Unit Bool).init oneOfTwoWoken
        = some s
      ∧ s.mem.mutex = none
      ∧ s.reader false = .asleep
      ∧ census ReadPc.isWoken s.reader = 1
      ∧ (s.mem.nextWriteSlot : Int) - s.mem.nextReadSlot
        ≤ census ReadPc.isWoken s.reader
      ∧ (SomeWriterAsleep s →
        (s.mem.nextWriteSlot : Int) - s.mem.nextReadSlot = numSlots)
      ∧ ¬ AllAsleep s := by
  obtain ⟨s, hrun, hend⟩ := Option.map_eq_some_iff.mp
    (by decide : ((ring Unit Bool).run (ring Unit Bool).init
      oneOfTwoWoken).map (fun s =>
        (s.mem.mutex, s.reader false, census ReadPc.isWoken s.reader))
      = some (none, .asleep, 1))
  simp only [Prod.mk.injEq] at hend
  obtain ⟨hfree, hasleep, hwoken⟩ := hend
  obtain ⟨hR, hW, hall⟩ :=
    no_lost_wakeup (System.reachable_iff_run.mpr ⟨_, hrun⟩)
  exact ⟨s, hrun, hfree, hasleep, hwoken, hR hfree ⟨false, hasleep⟩,
    hW hfree, hall ⟨()⟩ ⟨false⟩⟩

end DailyStudy.Cv
