/-
A batch of calls: how many calls a run makes, who is still under way, and
where the batch comes to rest.

Each action of a run is of some kind, and `made` counts the actions of one
kind; it is the account of a run that the censuses of its last state are
compared with. A thread is `busy` away from the place where it stands
between its calls. At rest the calls of a bounded buffer are blocked on
one side at most, and the account says how many they are
(`calls_at_rest`).
-/
import DailyStudy.Lib.Census

namespace Interleave

-- =================================================================== the calls

/-- What an action is to the account of a batch: a call of one of the two
operations, a wake-up nobody sent, or a step of a call under way. -/
inductive Kind
  | write
  | read
  | spurious
  | step
  deriving DecidableEq, Repr

/-- The actions of a program whose threads call two operations. -/
class Calls (α : Type*) where
  kind : α → Kind

export Calls (kind)

section Made

variable {α : Type*} [Calls α]

/-- How many actions of a run are of the kind `k`. -/
def made (k : Kind) (acts : List α) : Nat :=
  acts.countP fun a => decide (kind a = k)

theorem made_append (k : Kind) (l l' : List α) :
    made k (l ++ l') = made k l + made k l' :=
  List.countP_append

end Made

-- ============================================================= calls under way

section Busy

variable {ι σ : Type*} [Fintype ι] [DecidableEq σ]

/-- Away from where a thread stands between its calls. -/
def busy (idle pc : σ) : Bool := decide (pc ≠ idle)

/-- Nobody is busy exactly when everybody is between two calls. -/
theorem census_busy {idle : σ} {f : ι → σ} :
    census (busy idle) f = 0 ↔ ∀ i, f i = idle := by
  rw [census_eq_zero]
  exact forall_congr' fun i => by simp [busy]

end Busy

-- ===================================================================== at rest

/-- Where `n` puts and `m` gets of a bounded buffer have come to rest:
with a put blocked only while it is full, and a get only while it is
empty, the blocked ones are those that the other side leaves over. -/
theorem blocked_calls {cap held n m putting getting : Nat} (hcap : 0 < cap)
    (hflow : held + m + putting = n + getting) (hle : held ≤ cap)
    (hfull : 0 < putting → held = cap) (hempty : 0 < getting → held = 0) :
    putting = n - (m + cap) ∧ getting = m - n := by
  rcases Nat.eq_zero_or_pos putting with hp | hp
  · rcases Nat.eq_zero_or_pos getting with hg | hg
    · omega
    · have hnone := hempty hg
      omega
  · have hall := hfull hp
    have hg : getting = 0 := by
      by_contra hg
      exact absurd (hempty (Nat.pos_of_ne_zero hg)) (by omega)
    omega

/-- The same for the threads that make the calls: the censuses of those
that do not return, and when all of them do. -/
theorem calls_at_rest {ι κ σ τ : Type*} [Fintype ι] [Fintype κ]
    [DecidableEq σ] [DecidableEq τ] {put : ι → σ} {get : κ → τ}
    {a : σ} {b : τ} {cap held n m : Nat} (hcap : 0 < cap)
    (hflow : held + m + census (busy a) put = n + census (busy b) get)
    (hle : held ≤ cap)
    (hfull : ∀ i, busy a (put i) = true → held = cap)
    (hempty : ∀ j, busy b (get j) = true → held = 0) :
    census (busy a) put = n - (m + cap)
      ∧ census (busy b) get = m - n
      ∧ ((∀ i, put i = a) ∧ (∀ j, get j = b) ↔ m ≤ n ∧ n ≤ m + cap) := by
  obtain ⟨hput, hget⟩ := blocked_calls hcap hflow hle
    (fun hpos => (exists_of_census_pos hpos).elim hfull)
    (fun hpos => (exists_of_census_pos hpos).elim hempty)
  refine ⟨hput, hget, ?_⟩
  rw [← census_busy, ← census_busy, hput, hget]
  omega

end Interleave
