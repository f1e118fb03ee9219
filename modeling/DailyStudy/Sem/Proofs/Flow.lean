/-
Flow control of the semaphore ring: where the tokens are, how far the
counters can be apart, and why the ring cannot deadlock.

# The invariant

`Flow` is five equations between the semaphores, the counters, the
accesses done so far (read off the log) and the number of threads at
each program point. Every one of them is kept by every step of every
thread on its own account: a step moves one thread from one point to the
next and one unit between two summands (`census_move`), so each case is
linear arithmetic.

The bounds on the tickets are sums of the equations with nonnegative
terms dropped, and deadlock freedom is the first equation: all tokens in
neither semaphore means somebody is between a wait and a post.
-/
import DailyStudy.Lib.Census
import DailyStudy.Sem.Basic

namespace DailyStudy.Sem

open Interleave

-- ========================================================== program points

/-- Past the `sem_wait` of `Write` and not yet past its `sem_post`. -/
def WritePc.inside : WritePc → Bool
  | .claim _ | .store _ _ | .post => true
  | _ => false

def WritePc.atClaim : WritePc → Bool
  | .claim _ => true
  | _ => false

def WritePc.atStore : WritePc → Bool
  | .store _ _ => true
  | _ => false

def WritePc.atPost : WritePc → Bool
  | .post => true
  | _ => false

/-- Past the `sem_wait` of `Read` and not yet past its `sem_post`. -/
def ReadPc.inside : ReadPc → Bool
  | .claim | .load _ | .post _ => true
  | _ => false

def ReadPc.atClaim : ReadPc → Bool
  | .claim => true
  | _ => false

def ReadPc.atLoad : ReadPc → Bool
  | .load _ => true
  | _ => false

def ReadPc.atPost : ReadPc → Bool
  | .post _ => true
  | _ => false

-- ============================================================ the invariant

variable {W R : Type} [Fintype W] [Fintype R]

/-- The conservation laws of the ring. -/
structure Flow (s : State W R) (l : List Event) : Prop where
  tokens : s.mem.semWrite + s.mem.semRead
    + (census WritePc.inside s.writer + census ReadPc.inside s.reader)
      = numSlots
  written : s.mem.nextWriteSlot
    = l.count .stored + census WritePc.atStore s.writer
  readable : l.count .stored
    = census WritePc.atPost s.writer + s.mem.semRead
      + s.mem.nextReadSlot + census ReadPc.atClaim s.reader
  read : s.mem.nextReadSlot
    = l.count .loaded + census ReadPc.atLoad s.reader
  room : numSlots + l.count .loaded
    = census ReadPc.atPost s.reader + s.mem.semWrite
      + s.mem.nextWriteSlot + census WritePc.atClaim s.writer

-- ====================================================== what follows from it

/-- Blocked in `sem_wait`: there, and the semaphore is zero. -/
def WriterBlocked (s : State W R) (w : W) : Prop :=
  (∃ v, s.writer w = .wait v) ∧ s.mem.semWrite = 0

def ReaderBlocked (s : State W R) (r : R) : Prop :=
  s.reader r = .wait ∧ s.mem.semRead = 0

/-- Every thread is blocked in `sem_wait`. -/
def AllBlocked (s : State W R) : Prop :=
  (∀ w, WriterBlocked s w) ∧ ∀ r, ReaderBlocked s r

/-- The tickets stay within one ring of each other, with the accesses
done in between. -/
theorem Flow.tickets {s : State W R} {l : List Event} (hf : Flow s l) :
    s.mem.nextReadSlot ≤ l.count .stored
      ∧ l.count .stored ≤ s.mem.nextWriteSlot
      ∧ s.mem.nextWriteSlot ≤ numSlots + l.count .loaded := by
  obtain ⟨-, hwri, hrdb, -, hroom⟩ := hf
  omega

/-- With a thread on each side, the threads cannot all be blocked: the
tokens would be nowhere. -/
theorem Flow.not_allBlocked {s : State W R} {l : List Event}
    (hf : Flow s l) (w : W) (r : R) : ¬ AllBlocked s := by
  rintro ⟨hW, hR⟩
  have hw0 := (hW w).2
  have hr0 := (hR r).2
  have hWin : census WritePc.inside s.writer = 0 :=
    census_eq_zero.mpr fun w' => by
      obtain ⟨v, hv⟩ := (hW w').1
      rw [hv]
      rfl
  have hRin : census ReadPc.inside s.reader = 0 :=
    census_eq_zero.mpr fun r' => by
      rw [(hR r').1]
      rfl
  have htok := hf.tokens
  rw [hw0, hr0, hWin, hRin] at htok
  exact absurd htok (by decide)

-- ============================================================= preservation

variable [DecidableEq W] [DecidableEq R]

theorem flow_init : Flow (ring W R).init [] where
  tokens := by
    simp only [ring, SharedMemory.new]
    rw [census_const rfl, census_const rfl]
    rfl
  written := by
    simp only [ring, SharedMemory.new]
    rw [census_const rfl]
    rfl
  readable := by
    simp only [ring, SharedMemory.new]
    rw [census_const rfl, census_const rfl]
    rfl
  read := by
    simp only [ring, SharedMemory.new]
    rw [census_const rfl]
    rfl
  room := by
    simp only [ring, SharedMemory.new]
    rw [census_const rfl, census_const rfl]
    rfl

/-- One writer moves: what the four writer censuses do. -/
private theorem writer_moves {f : W → WritePc} {w : W} {old : WritePc}
    (hpc : f w = old) (new : WritePc) :
    census WritePc.inside (Function.update f w new) + old.inside.toNat
        = census WritePc.inside f + new.inside.toNat
      ∧ census WritePc.atClaim (Function.update f w new)
          + old.atClaim.toNat
        = census WritePc.atClaim f + new.atClaim.toNat
      ∧ census WritePc.atStore (Function.update f w new)
          + old.atStore.toNat
        = census WritePc.atStore f + new.atStore.toNat
      ∧ census WritePc.atPost (Function.update f w new) + old.atPost.toNat
        = census WritePc.atPost f + new.atPost.toNat :=
  ⟨census_move _ hpc _, census_move _ hpc _, census_move _ hpc _,
    census_move _ hpc _⟩

/-- One reader moves: what the four reader censuses do. -/
private theorem reader_moves {f : R → ReadPc} {r : R} {old : ReadPc}
    (hpc : f r = old) (new : ReadPc) :
    census ReadPc.inside (Function.update f r new) + old.inside.toNat
        = census ReadPc.inside f + new.inside.toNat
      ∧ census ReadPc.atClaim (Function.update f r new)
          + old.atClaim.toNat
        = census ReadPc.atClaim f + new.atClaim.toNat
      ∧ census ReadPc.atLoad (Function.update f r new) + old.atLoad.toNat
        = census ReadPc.atLoad f + new.atLoad.toNat
      ∧ census ReadPc.atPost (Function.update f r new) + old.atPost.toNat
        = census ReadPc.atPost f + new.atPost.toNat :=
  ⟨census_move _ hpc _, census_move _ hpc _, census_move _ hpc _,
    census_move _ hpc _⟩

/-- Every step keeps the conservation laws. -/
theorem flow_moves {s s' : State W R} {l es : List Event} {a : Act W R}
    (hf : Flow s l) (hm : Moves s a s' es) : Flow s' (l ++ es) := by
  obtain ⟨htok, hwri, hrdb, hrd, hroom⟩ := hf
  cases hm with
  | @callWrite w v hpc =>
      obtain ⟨h1, h2, h3, h4⟩ := writer_moves hpc (.wait v)
      simp only [WritePc.inside, WritePc.atClaim, WritePc.atStore,
        WritePc.atPost, Bool.toNat_false] at h1 h2 h3 h4
      constructor <;> simp only [List.append_nil] <;> omega
  | @waitWrite w v hpc hsem =>
      obtain ⟨h1, h2, h3, h4⟩ := writer_moves hpc (.claim v)
      simp only [WritePc.inside, WritePc.atClaim, WritePc.atStore,
        WritePc.atPost, Bool.toNat_false, Bool.toNat_true] at h1 h2 h3 h4
      constructor <;> simp only [List.append_nil] <;> omega
  | @claimWrite w v hpc =>
      obtain ⟨h1, h2, h3, h4⟩ := writer_moves hpc
        (.store v s.mem.nextWriteSlot)
      simp only [WritePc.inside, WritePc.atClaim, WritePc.atStore,
        WritePc.atPost, Bool.toNat_false, Bool.toNat_true] at h1 h2 h3 h4
      constructor <;> simp [List.count_append] <;> omega
  | @store w v t hpc =>
      obtain ⟨h1, h2, h3, h4⟩ := writer_moves hpc .post
      simp only [WritePc.inside, WritePc.atClaim, WritePc.atStore,
        WritePc.atPost, Bool.toNat_false, Bool.toNat_true] at h1 h2 h3 h4
      constructor <;> simp [List.count_append] <;> omega
  | @postWrite w hpc =>
      obtain ⟨h1, h2, h3, h4⟩ := writer_moves hpc .idle
      simp only [WritePc.inside, WritePc.atClaim, WritePc.atStore,
        WritePc.atPost, Bool.toNat_false, Bool.toNat_true] at h1 h2 h3 h4
      constructor <;> simp only [List.append_nil] <;> omega
  | @callRead r hpc =>
      obtain ⟨h1, h2, h3, h4⟩ := reader_moves hpc .wait
      simp only [ReadPc.inside, ReadPc.atClaim, ReadPc.atLoad,
        ReadPc.atPost, Bool.toNat_false] at h1 h2 h3 h4
      constructor <;> simp only [List.append_nil] <;> omega
  | @waitRead r hpc hsem =>
      obtain ⟨h1, h2, h3, h4⟩ := reader_moves hpc .claim
      simp only [ReadPc.inside, ReadPc.atClaim, ReadPc.atLoad,
        ReadPc.atPost, Bool.toNat_false, Bool.toNat_true] at h1 h2 h3 h4
      constructor <;> simp only [List.append_nil] <;> omega
  | @claimRead r hpc =>
      obtain ⟨h1, h2, h3, h4⟩ := reader_moves hpc
        (.load s.mem.nextReadSlot)
      simp only [ReadPc.inside, ReadPc.atClaim, ReadPc.atLoad,
        ReadPc.atPost, Bool.toNat_false, Bool.toNat_true] at h1 h2 h3 h4
      constructor <;> simp only [List.append_nil] <;> omega
  | @load r t hpc =>
      obtain ⟨h1, h2, h3, h4⟩ := reader_moves hpc
        (.post (s.mem.memory (slot numSlots t)))
      simp only [ReadPc.inside, ReadPc.atClaim, ReadPc.atLoad,
        ReadPc.atPost, Bool.toNat_false, Bool.toNat_true] at h1 h2 h3 h4
      constructor <;> simp [List.count_append] <;> omega
  | @postRead r v hpc =>
      obtain ⟨h1, h2, h3, h4⟩ := reader_moves hpc .idle
      simp only [ReadPc.inside, ReadPc.atClaim, ReadPc.atLoad,
        ReadPc.atPost, Bool.toNat_false, Bool.toNat_true] at h1 h2 h3 h4
      constructor <;> simp [List.count_append] <;> omega

/-- The conservation laws hold in every reachable state. -/
theorem flow_reachable {s : State W R} {l : List Event}
    (h : (logged W R).Reachable (s, l)) : Flow s l := by
  refine h.invariant (I := fun sl => Flow sl.1 sl.2) flow_init ?_
  rintro ⟨s, l⟩ a ⟨s', l'⟩ - hf hstep
  obtain ⟨es, hm, rfl⟩ := logged_moves hstep
  exact flow_moves hf hm

/-- Flow control, in every reachable state of the ring: the tokens are
conserved, the tickets are bounded by the accesses done, and with a
thread on each side somebody can always move. -/
theorem flow_control {s : State W R} {l : List Event}
    (h : (logged W R).Reachable (s, l)) :
    (s.mem.semWrite + s.mem.semRead
        + (census WritePc.inside s.writer + census ReadPc.inside s.reader)
      = numSlots)
    ∧ (s.mem.nextReadSlot ≤ l.count .stored
      ∧ l.count .stored ≤ s.mem.nextWriteSlot
      ∧ s.mem.nextWriteSlot ≤ numSlots + l.count .loaded)
    ∧ (Nonempty W → Nonempty R → ¬ AllBlocked s) := by
  have hf := flow_reachable h
  exact ⟨hf.tokens, hf.tickets, fun ⟨w⟩ ⟨r⟩ => hf.not_allBlocked w r⟩

/-- Two writers and a reader: one `Write` has its ticket, the other has
stored, the reader waits. -/
def midwayRun : List (Act Bool Unit) :=
  [.callWrite false 7, .write false, .write false, .callWrite true 8,
    .write true, .write true, .write true, .callRead ()]

/-- The law at the end of that run. -/
theorem flow_control_midway :
    ∃ s l, (logged Bool Unit).run (logged Bool Unit).init midwayRun
        = some (s, l)
      ∧ l = [.claimed 0 7, .claimed 1 8, .stored]
      ∧ s.mem.semWrite + s.mem.semRead
          + (census WritePc.inside s.writer + census ReadPc.inside s.reader)
        = numSlots
      ∧ (s.mem.nextReadSlot ≤ l.count .stored
        ∧ l.count .stored ≤ s.mem.nextWriteSlot
        ∧ s.mem.nextWriteSlot ≤ numSlots + l.count .loaded)
      ∧ ¬ AllBlocked s := by
  obtain ⟨⟨s, l⟩, hrun, hlog⟩ := Option.map_eq_some_iff.mp
    (by decide : ((logged Bool Unit).run (logged Bool Unit).init
        midwayRun).map Prod.snd
      = some [.claimed 0 7, .claimed 1 8, .stored])
  obtain ⟨htok, htick, hlive⟩ :=
    flow_control (System.reachable_iff_run.mpr ⟨_, hrun⟩)
  exact ⟨s, l, hrun, hlog, htok, htick, hlive ⟨false⟩ ⟨()⟩⟩

end DailyStudy.Sem
