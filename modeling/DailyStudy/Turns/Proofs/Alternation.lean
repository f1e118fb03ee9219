/-
The two threads take turns, print in order, and never wait for each
other forever.

# The argument

All three follow from `InTurn`. The owner of the mutex can always move.
While the mutex is free, whoever's turn it is is awake, since a turn
nobody was notified of has its notifier inside; and when he is done, the
other has had all his turns too, so he is on his way out and not asleep.
The lines printed are those of the finished turns and the first lines of
the one being taken, and there are two turns to a round.
-/
import DailyStudy.Turns.Proofs.InTurn

namespace DailyStudy.Turns

open Interleave

-- ============================================================== nobody stuck

section Progress

variable {count k : Nat} {s : State}

/-- With the mutex free, a thread moves unless it is asleep or done. -/
theorem move_of_free {t : Thread} (hi : InTurn count s k)
    (hfree : s.mtex = none) (hdone : s.pc t ≠ .done)
    (hasleep : ∀ i, s.pc t ≠ .asleep i) :
    (step count s (.move t)).isSome = true := by
  have hout : (s.pc t).critical ≠ true := fun h => by
    rw [hi.owner t, hfree] at h
    cases h
  cases hpc : s.pc t with
  | loop i => simp [step, move, hpc]
  | lock i => simp [step, move, hpc, lock, hfree]
  | woken i => simp [step, move, hpc, lock, hfree]
  | asleep i => exact absurd hpc (hasleep i)
  | done => exact absurd hpc hdone
  | _ => exact absurd (by rw [hpc]; rfl) hout

/-- The owner of the mutex moves. -/
theorem owner_moves {t : Thread} (hin : (s.pc t).critical = true) :
    ∃ a, a.isSpurious = false ∧ (step count s a).isSome = true := by
  cases hpc : s.pc t with
  | check i =>
      refine ⟨.move t, rfl, ?_⟩
      by_cases hturn : t.num = s.flag
      · simp [step, move, hpc, hturn]
      · simp [step, move, hpc, hturn]
  | print i j =>
      refine ⟨.move t, rfl, ?_⟩
      by_cases hlt : j < t.num
      · simp [step, move, hpc, hlt]
      · simp [step, move, hpc, hlt]
  | toggle i => exact ⟨.move t, rfl, by simp [step, move, hpc]⟩
  | unlock i => exact ⟨.move t, rfl, by simp [step, move, hpc]⟩
  | notify i =>
      by_cases hsome : ∃ t' i', s.pc t' = .asleep i'
      · obtain ⟨t', i', hpc'⟩ := hsome
        exact ⟨.notifyOne t (some t'), rfl, by simp [step, hpc, hpc']⟩
      · refine ⟨.notifyOne t none, rfl, ?_⟩
        have hnone : ∀ t', (s.pc t').isAsleep = false := fun t' => by
          cases hpc' : s.pc t' with
          | asleep i' => exact absurd ⟨t', i', hpc'⟩ hsome
          | _ => rfl
        simp [step, hpc, hnone]
  | _ =>
      rw [hpc] at hin
      cases hin

/-- Who has finished has had all his turns. -/
theorem turns_of_done {t : Thread} (hi : InTurn count s k)
    (hdone : s.pc t = .done) : turnsOf k t = count := by
  rw [← hi.rounds t, hdone]
  rfl

/-- As long as somebody is left, somebody moves without a spurious
wake-up. -/
theorem progress (hi : InTurn count s k) (hleft : ∃ t, s.pc t ≠ .done) :
    ∃ a, a.isSpurious = false ∧ (step count s a).isSome = true := by
  cases hm : s.mtex with
  | some t => exact owner_moves ((hi.owner t).mpr hm)
  | none =>
      -- whoever's turn it is cannot be asleep: his notifier would hold the
      -- mutex
      have hawake : ∀ i, s.pc (turn k) ≠ .asleep i := fun i h => by
        obtain ⟨i', hn⟩ := hi.wakes i h
        have hown := (hi.owner (turn k).other).mp (by rw [hn]; rfl)
        rw [hm] at hown
        cases hown
      by_cases hdone : s.pc (turn k) = .done
      · -- then the other has had all its turns too, and is on its way out
        refine ⟨.move (turn k).other, rfl, move_of_free hi hm ?_ ?_⟩
        · intro h
          obtain ⟨t, ht⟩ := hleft
          rcases eq_or_ne t (turn k) with rfl | hne
          · exact ht hdone
          · exact ht (Thread.eq_other.mp hne ▸ h)
        · intro i h
          have hin := hi.within (turn k).other
          have hrounds := hi.rounds (turn k).other
          rw [h] at hin hrounds
          have hin' : i < count := hin
          have hrounds' : i = turnsOf k (turn k).other := hrounds
          have hall := turns_of_done hi hdone
          have hle := turnsOf_le_other k
          omega
      · exact ⟨.move (turn k), rfl, move_of_free hi hm hdone hawake⟩

end Progress

-- ================================================================= the output

/-- What one round of both threads prints. -/
def block : List String :=
  List.replicate 10 "child" ++ List.replicate 100 "father"

/-- The output of the whole program with `n` rounds. -/
def expected (n : Nat) : List String := (List.replicate n block).flatten

theorem turn_even (n : Nat) : turn (2 * n) = .child := by
  unfold turn
  rw [if_pos (by omega)]

theorem turn_odd (n : Nat) : turn (2 * n + 1) = .father := by
  rw [turn_succ, turn_even]
  rfl

/-- Two turns are a round. -/
theorem printed_two_mul (n : Nat) : printed (2 * n) = expected n := by
  induction n with
  | zero => rfl
  | succ n ih =>
      show printed (2 * n + 1 + 1) = expected (n + 1)
      calc printed (2 * n + 1 + 1)
          = printed (2 * n) ++ List.replicate 10 "child"
              ++ List.replicate 100 "father" := by
            rw [printed_succ, printed_succ, turn_odd, turn_even]
            rfl
        _ = expected n ++ block := by rw [ih, List.append_assoc, block]
        _ = expected (n + 1) := by
            unfold expected
            rw [List.replicate_succ', List.flatten_append,
              List.flatten_singleton]

theorem printed_mono {k m : Nat} (h : k ≤ m) :
    printed k <+: printed m := by
  induction h with
  | refl => exact List.prefix_refl _
  | step _ ih => exact ih.trans (List.prefix_append _ _)

section Output

variable {count k : Nat} {s : State}

/-- No thread has more turns than rounds. -/
theorem turnsOf_le (hi : InTurn count s k) (t : Thread) :
    turnsOf k t ≤ count := by
  rw [← hi.rounds t]
  exact Pc.rounds_le (hi.within t)

/-- The flag is flipped at most twice a round. -/
theorem flips_le (hi : InTurn count s k) : k ≤ 2 * count := by
  have hchild := turnsOf_le hi .child
  have hfather := turnsOf_le hi .father
  have hk := turnsOf_add k
  omega

/-- A turn being taken is one of the turns. -/
theorem flips_lt (hi : InTurn count s k)
    (hbusy : (s.pc (turn k)).busy = true) : k + 1 ≤ 2 * count := by
  have hmine : turnsOf k (turn k) < count := by
    rw [← hi.rounds (turn k)]
    exact Pc.rounds_lt (hi.within (turn k)) hbusy
  have hother := turnsOf_le hi (turn k).other
  have hk := turnsOf_add k
  cases hturn : turn k with
  | child =>
      rw [hturn] at hmine hother
      change turnsOf k .father ≤ count at hother
      omega
  | father =>
      rw [hturn] at hmine hother
      change turnsOf k .child ≤ count at hother
      omega

/-- The lines of a turn being taken are the first lines of the turn. -/
theorem lines_within (hi : InTurn count s k) (t : Thread) :
    (s.pc t).lines t <+: List.replicate t.num t.str := by
  cases hpc : s.pc t with
  | print i j =>
      have hj := hi.most t i j hpc
      refine ⟨List.replicate (t.num - j) t.str, ?_⟩
      show List.replicate j t.str ++ _ = _
      rw [List.replicate_append_replicate, Nat.add_sub_cancel' hj]
  | toggle i => exact List.prefix_refl _
  | _ => exact List.nil_prefix

/-- At every moment the output is a prefix of the expected one. -/
theorem out_within (hi : InTurn count s k) : s.out <+: expected count := by
  rw [← printed_two_mul, hi.out]
  cases hbusy : (s.pc (turn k)).busy with
  | true =>
      have hturn : printed k ++ (s.pc (turn k)).lines (turn k)
          <+: printed (k + 1) :=
        (List.prefix_append_right_inj _).mpr (lines_within hi (turn k))
      exact hturn.trans (printed_mono (flips_lt hi hbusy))
  | false =>
      rw [Pc.lines_of_not_busy _ hbusy, List.append_nil]
      exact printed_mono (flips_le hi)

/-- When both have finished, everything is printed. -/
theorem out_full (hi : InTurn count s k) (hdone : ∀ t, s.pc t = .done) :
    s.out = expected count := by
  have hk : k = 2 * count := by
    have hchild := turns_of_done hi (hdone .child)
    have hfather := turns_of_done hi (hdone .father)
    have hadd := turnsOf_add k
    omega
  rw [hi.out, hdone, ← printed_two_mul, hk]
  exact List.append_nil _

end Output

/-- Whatever the schedule and the spurious wake-ups: the output is always
a prefix of `n` rounds of child and father, somebody moves on his own as
long as somebody is left, and at the end the output is the `n` rounds. -/
theorem takes_turns {n : Nat} {s : State} (h : (program n).Reachable s) :
    s.out <+: expected n
      ∧ ((∃ t, s.pc t ≠ .done) →
          ∃ a, a.isSpurious = false
            ∧ ((program n).step s a).isSome = true)
      ∧ ((∀ t, s.pc t = .done) → s.out = expected n) := by
  obtain ⟨k, hi⟩ := inTurn h
  exact ⟨out_within hi, progress hi, out_full hi⟩

/-- A schedule in which the father comes first, sleeps and is woken by
nobody, before the child prints its first line. -/
def fatherFirst : List Act :=
  [.move .father, .move .father, .move .father, .spurious .father,
    .move .father, .move .father, .move .child, .move .child, .move .child,
    .move .child]

/-- The father is asleep again then, and the child moves on. -/
theorem takes_turns_father_first :
    ∃ s, (program 2).run (program 2).init fatherFirst = some s
      ∧ s.out = ["child"] ∧ s.pc .father = .asleep 0
      ∧ s.out <+: expected 2
      ∧ ∃ a, a.isSpurious = false
          ∧ ((program 2).step s a).isSome = true := by
  obtain ⟨s, hrun, hs⟩ := Option.map_eq_some_iff.mp
    (by decide : ((program 2).run (program 2).init fatherFirst).map
      (fun s => (s.out, s.pc .father)) = some (["child"], .asleep 0))
  have hout : s.out = ["child"] := congrArg (·.1) hs
  have hfather : s.pc .father = .asleep 0 := congrArg (·.2) hs
  obtain ⟨hout_le, hmove, -⟩ :=
    takes_turns (System.reachable_iff_run.mpr ⟨_, hrun⟩)
  refine ⟨s, hrun, hout, hfather, hout_le, hmove ⟨.father, ?_⟩⟩
  rw [hfather]
  exact Pc.noConfusion

end DailyStudy.Turns
