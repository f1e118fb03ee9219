/-
The threads that have a reference to `tmp`. Giving each round its own
`tmp` keeps the later rounds from changing what a thread reads, and not
the end of the round from taking it away.

# When it is read in time

`main` never waits inside the loop, so a `T2` reads its number exactly
when it comes to it before `main` leaves the body of its round
(`reads_alive_iff`).

# What can happen

Nothing makes one thread fast or slow with another: whichever threads are
chosen, some schedule has exactly these read a `tmp` that has ended
(`some_read_late`).
-/
import DailyStudy.Threads.Proofs.Copies

namespace DailyStudy.Threads

open Interleave

variable {rounds : Nat}

-- ============================================================== read in time

/-- A `T2` is at its reference while `main` is at the end of its round. -/
def InRound (s : State) : Act → Prop
  | .t2 k => s.main = .endBody k
  | _ => True

instance (s : State) : ∀ a, Decidable (InRound s a)
  | .main => inferInstanceAs (Decidable True)
  | .t1 _ => inferInstanceAs (Decidable True)
  | .t2 _ => inferInstanceAs (Decidable (_ = _))

/-- What was read so far was read in time. -/
def Alive (s : State) : Prop :=
  ∃ l, Prints s.t2 l ∧ loads s.output = l.map some

theorem Alive.none_not_mem {s : State} (h : Alive s) :
    none ∉ loads s.output := by
  obtain ⟨l, -, hl⟩ := h
  rw [hl]
  simp

/-- A `T2` that is started reads its number while `main` is at the end of
its round, and nothing at any other time. -/
theorem load_eq {s : State} (h : Spawned rounds s) {k : Nat}
    (hk : s.t2 k = .ready k) :
    s.load k = if s.main = .endBody k then some k else none := by
  have htmp := h.tmp
  have hrefs := h.startedRef
  have hbegun : ¬ s.main.emplaced rounds ≤ k := by
    intro hle
    rw [(hrefs.absent k).mpr hle] at hk
    cases hk
  unfold State.load
  rw [htmp]
  cases hpc : s.main with
  | endBody i =>
      by_cases hi : i = k
      · rw [hi]
        simp [MainPc.tmp]
      · simp [MainPc.tmp, hi]
  | emplaceBack i =>
      -- The `tmp` is one that no thread has yet.
      rw [hpc] at hbegun
      have hi : i ≠ k := by
        intro h
        exact hbegun (Nat.le_of_eq h)
      simp [MainPc.tmp, hi]
  | _ => simp [MainPc.tmp]

/-- What was printed stays printed. -/
theorem loads_grow {s s' : State} {a : Act} (hm : Moves rounds s a s') :
    loads s.output <+: loads s'.output := by
  cases hm with
  | t1 hpc => exact ⟨[], (List.append_nil _).trans (loads_t1 ..).symm⟩
  | t2 hpc => exact ⟨_, (loads_t2 ..).symm⟩
  | _ => exact List.prefix_refl _

/-- In time, the numbers read stay those of the threads that are done. -/
theorem alive_moves {s s' : State} {a : Act} (h : Spawned rounds s)
    (hs : Alive s) (hc : InRound s a) (hm : Moves rounds s a s') :
    Alive s' := by
  obtain ⟨l, hl, hloads⟩ := hs
  cases hm with
  | @emplaceBack i hpc =>
      have habsent : s.t2 i = .absent := by
        have hrefs := h.startedRef
        rw [hpc] at hrefs
        exact (hrefs.absent i).mpr (Nat.le_refl i)
      exact ⟨l, hl.start habsent i, hloads⟩
  | t1 hpc => exact ⟨l, hl, (loads_t1 ..).trans hloads⟩
  | @t2 k r hpc =>
      obtain rfl := h.startedRef.ready k r hpc
      change s.main = .endBody r at hc
      refine ⟨l ++ [r], hl.finish hpc, ?_⟩
      show loads (s.output ++ [.t2 (s.load r)]) = _
      rw [loads_t2, load_eq h hpc, if_pos hc, hloads, List.map_append]
      rfl
  | _ => exact ⟨l, hl, hloads⟩

theorem alive_init : Alive (program rounds).init :=
  ⟨[], ⟨List.nodup_nil, fun _ => by simp [program]⟩, rfl⟩

/-- Two rounds, and each `T2` prints before its round ends. -/
def promptRun : List Act :=
  [.main, .main, .main, .main, .t2 0, .main, .main, .main, .main, .main,
    .t2 1, .t1 1, .main, .main, .t1 0] ++ List.replicate 6 .main

/-- The program before round `i`, every thread so far done; the rounds
that `late` names have read a `tmp` that had ended. -/
def before (late : Nat → Bool) (i : Nat) : State where
  main := .loop i
  tmp := none
  t1 k := if k < i then .done else .absent
  t2 k := if k < i then .done else .absent
  output := (List.range i).flatMap fun k =>
    [.t1 k, .t2 (if late k then none else some k)]

/-- A round: its `T2` comes to its number before `main` leaves the body of
the loop, or after. -/
def roundActs (late : Nat → Bool) (i : Nat) : List Act :=
  [.main, .main, .t1 i, .main, .main]
    ++ if late i then [.main, .t2 i] else [.t2 i, .main]

/-- A thread that was started in round `i` and is done. -/
private theorem update_done (i : Nat) :
    Function.update (Function.update
      (fun k => if k < i then ThreadPc.done else .absent) i (.ready i)) i .done
      = fun k => if k < i + 1 then ThreadPc.done else .absent := by
  funext k
  by_cases hk : k = i
  · subst hk
    simp
  · have hlt : k < i + 1 ↔ k < i := by omega
    simp [Function.update_of_ne hk, hlt]

theorem before_output (late : Nat → Bool) (i : Nat) :
    (before late (i + 1)).output = (before late i).output ++ [.t1 i]
      ++ [.t2 (if late i then none else some i)] := by
  unfold before
  rw [List.range_succ, List.flatMap_append, List.flatMap_singleton,
    List.append_assoc]
  rfl

theorem run_round (late : Nat → Bool) {i : Nat} (hi : i < rounds) :
    (program rounds).run (before late i) (roundActs late i)
      = some (before late (i + 1)) := by
  have hnext : before late (i + 1)
      = { main := .loop (i + 1)
          tmp := none
          t1 := Function.update (Function.update (before late i).t1 i
            (.ready i)) i .done
          t2 := Function.update (Function.update (before late i).t2 i
            (.ready i)) i .done
          output := (before late i).output ++ [.t1 i]
            ++ [.t2 (if late i then none else some i)] } := by
    rw [← before_output]
    unfold before
    rw [update_done]
  rw [hnext]
  unfold roundActs
  cases hlate : late i with
  | true =>
      simp [System.run, program, step, State.mainStep, before, State.load, hi]
  | false =>
      simp [System.run, program, step, State.mainStep, before, State.load, hi]

/-- Rounds one after the other. -/
theorem run_rounds (rounds : Nat) (late : Nat → Bool) :
    (program rounds).run (program rounds).init
      ((List.range rounds).flatMap (roundActs late))
      = some (before late rounds) := by
  have hinit : (program rounds).init = before late 0 := by
    simp [program, before]
  rw [hinit]
  exact System.run_loop (before late) (roundActs late) fun i hi =>
    run_round late hi

/-- The loop that joins the `T1` threads. -/
theorem run_join (rounds : Nat) {s : State}
    (hdone : ∀ k < rounds, s.t1 k = .done) :
    (program rounds).run { s with main := .join 0 }
      ((List.range rounds).flatMap (fun _ => [.main]) ++ [.main])
      = some { s with main := .joinRef 0 } := by
  have hjoins := System.run_loop (M := program rounds) (n := rounds)
    (fun k => { s with main := .join k }) (fun _ => [.main])
    fun k hk => by
      simp [System.run, program, step, State.mainStep, hk, hdone]
  apply System.run_append hjoins
  simp [System.run, program, step, State.mainStep]

/-- The loop that joins the `T2` threads. -/
theorem run_joinRef (rounds : Nat) {s : State}
    (hdone : ∀ k < rounds, s.t2 k = .done) :
    (program rounds).run { s with main := .joinRef 0 }
      ((List.range rounds).flatMap (fun _ => [.main]) ++ [.main])
      = some { s with main := .ended } := by
  have hjoins := System.run_loop (M := program rounds) (n := rounds)
    (fun k => { s with main := .joinRef k }) (fun _ => [.main])
    fun k hk => by
      simp [System.run, program, step, State.mainStep, hk, hdone]
  apply System.run_append hjoins
  simp [System.run, program, step, State.mainStep]

theorem loads_before (late : Nat → Bool) (n : Nat) :
    loads (before late n).output
      = (List.range n).map fun i => if late i then none else some i := by
  induction n with
  | zero => rfl
  | succ n ih =>
      rw [before_output, loads_t2, loads_t1, ih, List.range_succ,
        List.map_append]
      rfl

/-- Whichever rounds are chosen, some schedule runs to the end with the
`T2` of exactly these reading a `tmp` that has ended. -/
theorem some_read_late (rounds : Nat) (late : Nat → Bool) :
    ∃ acts s, (program rounds).run (program rounds).init acts = some s
      ∧ s.main = .ended
      ∧ loads s.output
        = (List.range rounds).map fun i => if late i then none else some i := by
  have hleave : (program rounds).run (before late rounds) [.main]
      = some { before late rounds with main := .join 0 } := by
    simp [System.run, program, step, State.mainStep, before]
  have hdone : ∀ k < rounds,
      (if k < rounds then ThreadPc.done else .absent) = .done :=
    fun k hk => if_pos hk
  have hjoin := run_join rounds (s := before late rounds) hdone
  have hjoinRef := run_joinRef rounds (s := before late rounds) hdone
  exact ⟨_, _, System.run_append (System.run_append
    (System.run_append (run_rounds rounds late) hleave) hjoin) hjoinRef, rfl,
    loads_before late rounds⟩

end DailyStudy.Threads
