/-
The two threads finish: a bound on the steps of every schedule, spurious
wake-ups included.

# The measure

`Pc.left` is what a thread still does if it never falls asleep for
nothing. Falling asleep takes one off it and being woken puts two back,
so whoever wakes a thread has to pay: `notify` has two steps more than it
takes, and a spurious wake-up, which nobody sends, adds three to the
bound.
-/
import DailyStudy.Turns.Proofs.Alternation

namespace DailyStudy.Turns

open Interleave

-- ================================================================= the measure

/-- The steps to the next test of the loop, this one included. -/
def Pc.roundLeft (t : Thread) : Pc → Nat
  | .loop _ => 1
  | .lock _ | .woken _ => 9 + t.num
  | .check _ => 8 + t.num
  | .asleep _ => 7 + t.num
  | .print _ j => 7 + (t.num - j)
  | .toggle _ => 6
  | .notify _ => 5
  | .unlock _ => 2
  | .done => 0

/-- The counter at the next test of the loop. -/
def Pc.next (count : Nat) : Pc → Nat
  | .loop i => i
  | .lock i | .check i | .asleep i | .woken i | .print i _ | .toggle i
  | .notify i | .unlock i => i + 1
  | .done => count

/-- The steps of the thread to its end. -/
def Pc.left (count : Nat) (t : Thread) (pc : Pc) : Nat :=
  pc.roundLeft t + (count - pc.next count) * (9 + t.num)

/-- The steps of both threads to the end. -/
def left (count : Nat) (pc : Thread → Pc) : Nat :=
  (pc .child).left count .child + (pc .father).left count .father

/-- One thread moves. -/
theorem left_update (count : Nat) (pc : Thread → Pc) (t : Thread)
    (new : Pc) :
    left count (Function.update pc t new) + (pc t).left count t
      = left count pc + new.left count t := by
  have hother : Function.update pc t new t.other = pc t.other :=
    Function.update_of_ne (by cases t <;> decide) ..
  have hself : Function.update pc t new t = new := Function.update_self ..
  unfold left
  cases t with
  | child =>
      change Function.update pc .child new .father = pc .father at hother
      rw [hother, hself]
      omega
  | father =>
      change Function.update pc .father new .child = pc .child at hother
      rw [hother, hself]
      omega

variable {count : Nat} {s s' : State}

/-- A thread inside a round moves on in it. -/
private theorem left_round {t : Thread} {old new : Pc} {n : Nat}
    (hpc : s.pc t = old) (hpc' : s'.pc = Function.update s.pc t new)
    (hnext : new.next count = old.next count)
    (hround : new.roundLeft t + 1 ≤ old.roundLeft t + n) :
    left count s'.pc + 1 ≤ left count s.pc + n := by
  have hmove := left_update count s.pc t new
  unfold Pc.left at hmove
  rw [hpc, hnext] at hmove
  rw [hpc']
  omega

/-- Every step takes one off the measure, or is a spurious wake-up. -/
theorem left_moves {a : Act} (hm : Moves count s a s') :
    left count s'.pc + 1 ≤ left count s.pc + 3 * a.isSpurious.toNat := by
  cases hm with
  | @enter t i hpc hlt =>
      have hmove := left_update count s.pc t (.lock i)
      have hround : (count - i) * (9 + t.num)
          = (count - (i + 1)) * (9 + t.num) + (9 + t.num) := by
        rw [← Nat.succ_mul]
        congr 1
        omega
      simp only [hpc, Pc.left, Pc.roundLeft, Pc.next] at hmove
      show left count (Function.update s.pc t (.lock i)) + 1 ≤ _ + 0
      omega
  | @leave t i hpc hge =>
      have hmove := left_update count s.pc t .done
      have hnone : count - i = 0 := by omega
      simp only [hpc, Pc.left, Pc.roundLeft, Pc.next, hnone, Nat.sub_self,
        Nat.zero_mul] at hmove
      show left count (Function.update s.pc t .done) + 1 ≤ _ + 0
      omega
  | lock hpc _ =>
      rcases hpc with hpc | hpc
      · refine left_round hpc rfl rfl ?_
        show 8 + _ + 1 ≤ 9 + _ + 0
        omega
      · refine left_round hpc rfl rfl ?_
        show 8 + _ + 1 ≤ 9 + _ + 0
        omega
  | pass hpc _ =>
      refine left_round hpc rfl rfl ?_
      show 7 + (_ - 0) + 1 ≤ 8 + _ + 0
      omega
  | sleep hpc _ =>
      refine left_round hpc rfl rfl ?_
      show 7 + _ + 1 ≤ 8 + _ + 0
      omega
  | @print t i j hpc hlt =>
      refine left_round hpc rfl rfl ?_
      show 7 + (t.num - (j + 1)) + 1 ≤ 7 + (t.num - j) + 0
      omega
  | printed hpc _ =>
      refine left_round hpc rfl rfl ?_
      show 6 + 1 ≤ 7 + _ + 0
      omega
  | toggle hpc => exact left_round hpc rfl rfl (Nat.le_refl _)
  | @notifyOne t t' i i' hpc hpc' =>
      have hne : t' ≠ t := by
        intro h
        rw [h, hpc] at hpc'
        cases hpc'
      have hfirst := left_update count s.pc t (.unlock i)
      have hsecond := left_update count
        (Function.update s.pc t (.unlock i)) t' (.woken i')
      rw [Function.update_of_ne hne] at hsecond
      simp only [hpc, hpc', Pc.left, Pc.roundLeft, Pc.next]
        at hfirst hsecond
      show left count (Function.update
        (Function.update s.pc t (.unlock i)) t' (.woken i')) + 1 ≤ _ + 0
      omega
  | notifyNone hpc _ =>
      exact left_round hpc rfl rfl (Nat.le_add_right 3 2)
  | unlock hpc => exact left_round hpc rfl rfl (Nat.le_refl _)
  | spurious hpc =>
      refine left_round hpc rfl rfl ?_
      show 9 + _ + 1 ≤ 7 + _ + 3
      omega

-- ===================================================================== the end

/-- With `n` rounds, a schedule takes no more steps than 128 for a round,
two, and three for each spurious wake-up in it; and where it cannot go on
without another, both threads have finished and the `n` rounds are
printed. -/
theorem turns_finish {n : Nat} {acts : List Act} {s : State}
    (hrun : (program n).run (program n).init acts = some s) :
    acts.length ≤ 128 * n + 2 + 3 * acts.countP Act.isSpurious
    ∧ ((∀ a, a.isSpurious = false → step n s a = none) →
        (∀ t, s.pc t = .done) ∧ s.out = expected n) := by
  obtain ⟨k, hi⟩ := inTurn (System.Reachable.init.run hrun)
  constructor
  · have hbound := System.run_invariant (l := [])
      (I := fun s l => l.length + left n s.pc
        ≤ 128 * n + 2 + 3 * l.countP Act.isSpurious)
      (fun {s l a s'} hs hstep => by
        have hleft := left_moves (step_moves hstep)
        rw [List.length_append, List.length_singleton,
          System.countP_concat]
        omega)
      (by
        show 0 + (1 + (n - 0) * 19 + (1 + (n - 0) * 109)) ≤ _
        omega) hrun
    rw [List.nil_append] at hbound
    omega
  · intro hstuck
    have hdone : ∀ t, s.pc t = .done := by
      by_contra hleft
      obtain ⟨a, ha, hsome⟩ := progress hi (not_forall.mp hleft)
      rw [hstuck a ha] at hsome
      cases hsome
    exact ⟨hdone, out_full hi hdone⟩

/-- One round: the child has it first, and then the father. -/
def oneRound : List Act :=
  List.replicate 15 (.move .child) ++ [.notifyOne .child none]
    ++ List.replicate 2 (.move .child)
    ++ List.replicate 105 (.move .father) ++ [.notifyOne .father none]
    ++ List.replicate 2 (.move .father)

set_option maxRecDepth 4000 in
/-- The theorem at the end of that schedule. -/
theorem turns_finish_one_round :
    ∃ s, (program 1).run (program 1).init oneRound = some s
      ∧ (∀ t, s.pc t = .done) ∧ s.out = expected 1 := by
  obtain ⟨s, hrun, hend⟩ := Option.map_eq_some_iff.mp
    (by decide : ((program 1).run (program 1).init oneRound).map
      (fun s => (s.pc .child, s.pc .father)) = some (.done, .done))
  have hdone : ∀ t, s.pc t = .done := by
    intro t
    cases t with
    | child => exact congrArg (·.1) hend
    | father => exact congrArg (·.2) hend
  have hstuck : ∀ a, a.isSpurious = false → step 1 s a = none := by
    intro a _
    cases a with
    | move t => simp [step, move, hdone t]
    | notifyOne t waiter => simp [step, hdone t]
    | spurious t => simp [step, hdone t]
  exact ⟨s, hrun, (turns_finish hrun).2 hstuck⟩

end DailyStudy.Turns
