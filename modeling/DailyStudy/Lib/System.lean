/-
Interleaved systems: a start state and a partial step function on
actions, with the runs, the reachable states and the proof rules every
thread model of this development is verified by.

An action names the thread that moves (and, where the scheduler or the
environment decides something, what it decides), so a list of actions
IS an interleaving, and a theorem about every run is a theorem about
every interleaving.

# The rules

- `Reachable.invariant` and its guarded form `ReachableVia.invariant`:
  what the start state has and every (guarded) step keeps, every
  reached state has.
- `always_iff_meets`: when a condition on steps keeps an invariant and
  every step that violates it breaks the property, the runs on which
  the property holds throughout are EXACTLY the runs whose steps all
  meet the condition. `always_iff_meets_beside` is for a condition on
  what is counted beside the system.
- `withLog`: the history variable, added to a system from outside. The
  log of a run is what its steps were observed to do; no step reads it,
  so the runs are the same (`withLog_run`), and the exact conditions are
  proved from the bare steps (`withLog_always_iff_meets`).
- `Simulation.run`: a forward simulation carries every run to a run of
  the abstract system with the observed actions.
- `run_length_le`, `finishes` and `drains`: steps that take a measure down
  end, and where there is always one more until the work is done, they
  finish it.
-/
import Mathlib.Data.List.Basic

namespace Interleave

variable {σ τ α β : Type*}

/-- A system of interleaved threads: where it starts, and what each
action does in a state (`none`: the action is not enabled there). -/
structure System (σ α : Type*) where
  init : σ
  step : σ → α → Option σ

namespace System

variable (M : System σ α)

-- ==================================================================== runs

/-- Run a list of actions, failing on the first disabled one. -/
def run (s : σ) : List α → Option σ
  | [] => some s
  | a :: rest =>
      match M.step s a with
      | some s' => run s' rest
      | none => none

/-- The states some interleaving reaches. -/
inductive Reachable : σ → Prop
  | init : Reachable M.init
  | step {s s' : σ} (a : α) :
      Reachable s → M.step s a = some s' → Reachable s'

/-- The states reached by runs every step of which meets `C` in the
state it is taken from. -/
inductive ReachableVia (C : σ → α → Prop) : σ → Prop
  | init : ReachableVia C M.init
  | step {s s' : σ} (a : α) :
      ReachableVia C s → C s a → M.step s a = some s' → ReachableVia C s'

/-- Every step of the run from `s` meets `C`. -/
def Meets (C : σ → α → Prop) : σ → List α → Prop
  | _, [] => True
  | s, a :: rest => C s a ∧ ∀ s', M.step s a = some s' → Meets C s' rest

/-- `P` holds in every state of the run from `s`, both ends included. -/
def Always (P : σ → Prop) : σ → List α → Prop
  | s, [] => P s
  | s, a :: rest => P s ∧ ∀ s', M.step s a = some s' → Always P s' rest

variable {M}

/-- A nonempty run, split at its first step. -/
theorem run_cons_eq_some {a : α} {rest : List α} {s t : σ} :
    M.run s (a :: rest) = some t
      ↔ ∃ s', M.step s a = some s' ∧ M.run s' rest = some t := by
  cases hs : M.step s a with
  | none => simp [run, hs]
  | some s' => simp [run, hs]

/-- Whether a given run meets a decidable condition can be decided. -/
instance decidableMeets (C : σ → α → Prop) [∀ s a, Decidable (C s a)] :
    ∀ (s : σ) (acts : List α), Decidable (M.Meets C s acts)
  | _, [] => .isTrue trivial
  | s, a :: rest =>
      match h : M.step s a with
      | none => decidable_of_iff (C s a) (by simp [Meets, h])
      | some s' =>
          have := decidableMeets C s' rest
          decidable_of_iff (C s a ∧ M.Meets C s' rest) (by simp [Meets, h])

/-- Two runs, one after the other. -/
theorem run_append {as bs : List α} {s t u : σ}
    (h₁ : M.run s as = some t) (h₂ : M.run t bs = some u) :
    M.run s (as ++ bs) = some u := by
  induction as generalizing s with
  | nil =>
      simp only [run, Option.some.injEq] at h₁
      subst h₁
      exact h₂
  | cons a as ih =>
      obtain ⟨s', hs, hrest⟩ := run_cons_eq_some.mp h₁
      rw [List.cons_append]
      exact run_cons_eq_some.mpr ⟨s', hs, ih hrest⟩

/-- A loop: the runs of its rounds, one after the other. -/
theorem run_loop (f : Nat → σ) (acts : Nat → List α) {n : Nat}
    (h : ∀ k < n, M.run (f k) (acts k) = some (f (k + 1))) :
    M.run (f 0) ((List.range n).flatMap acts) = some (f n) := by
  induction n with
  | zero => rfl
  | succ n ih =>
      have hrounds := ih fun k hk => h k (Nat.lt_succ_of_lt hk)
      rw [List.range_succ, List.flatMap_append, List.flatMap_singleton]
      exact run_append hrounds (h n (Nat.lt_succ_self n))

/-- A run, split where the list of its actions is. -/
theorem run_append_eq_some {as bs : List α} {s u : σ} :
    M.run s (as ++ bs) = some u
      ↔ ∃ t, M.run s as = some t ∧ M.run t bs = some u := by
  refine ⟨?_, fun ⟨t, h₁, h₂⟩ => run_append h₁ h₂⟩
  intro h
  induction as generalizing s with
  | nil => exact ⟨s, rfl, h⟩
  | cons a as ih =>
      obtain ⟨s', hs, hrest⟩ := run_cons_eq_some.mp h
      obtain ⟨t, h₁, h₂⟩ := ih hrest
      exact ⟨t, run_cons_eq_some.mpr ⟨s', hs, h₁⟩, h₂⟩

/-- A condition on the actions alone is met from every state. -/
theorem meets_of_forall {C : α → Prop} {acts : List α} {s : σ}
    (h : ∀ a ∈ acts, C a) : M.Meets (fun _ a => C a) s acts := by
  induction acts generalizing s with
  | nil => trivial
  | cons a rest ih =>
      obtain ⟨ha, hrest⟩ := List.forall_mem_cons.mp h
      exact ⟨ha, fun _ _ => ih hrest⟩

/-- Along a run, what is met by every step holds of every action. -/
theorem forall_of_meets {C : α → Prop} {acts : List α} {s t : σ}
    (h : M.Meets (fun _ a => C a) s acts) (hrun : M.run s acts = some t) :
    ∀ a ∈ acts, C a := by
  induction acts generalizing s with
  | nil => exact fun _ ha => absurd ha List.not_mem_nil
  | cons a rest ih =>
      obtain ⟨s', ha, hrest⟩ := run_cons_eq_some.mp hrun
      exact List.forall_mem_cons.mpr ⟨h.1, ih (h.2 s' ha) hrest⟩

/-- A run from a reachable state ends in a reachable state. -/
theorem Reachable.run {acts : List α} {s t : σ} (hs : M.Reachable s)
    (hrun : M.run s acts = some t) : M.Reachable t := by
  induction acts generalizing s with
  | nil =>
      simp only [System.run, Option.some.injEq] at hrun
      exact hrun ▸ hs
  | cons a rest ih =>
      obtain ⟨s', ha, hrest⟩ := run_cons_eq_some.mp hrun
      exact ih (hs.step a ha) hrest

/-- A state is reachable exactly when some interleaving ends in it. -/
theorem reachable_iff_run {s : σ} :
    M.Reachable s ↔ ∃ acts, M.run M.init acts = some s := by
  constructor
  · intro h
    induction h with
    | init => exact ⟨[], rfl⟩
    | step a _ ha ih =>
        obtain ⟨acts, hrun⟩ := ih
        refine ⟨acts ++ [a], run_append hrun ?_⟩
        exact run_cons_eq_some.mpr ⟨_, ha, rfl⟩
  · rintro ⟨acts, hrun⟩
    exact Reachable.init.run hrun

-- ============================================================== invariants

/-- The invariant rule: what holds at the start and survives every step
from a reachable state holds in every reachable state. -/
theorem Reachable.invariant {I : σ → Prop} (hinit : I M.init)
    (hstep : ∀ {s a s'}, M.Reachable s → I s → M.step s a = some s' → I s')
    {s : σ} (h : M.Reachable s) : I s := by
  induction h with
  | init => exact hinit
  | step a hr ha ih => exact hstep hr ih ha

/-- A guarded run is a run. -/
theorem ReachableVia.reachable {C : σ → α → Prop} {s : σ}
    (h : M.ReachableVia C s) : M.Reachable s := by
  induction h with
  | init => exact .init
  | step a _ _ ha ih => exact ih.step a ha

/-- The invariant rule for guarded runs: the step may use the guard. -/
theorem ReachableVia.invariant {C : σ → α → Prop} {I : σ → Prop}
    (hinit : I M.init)
    (hstep : ∀ {s a s'}, M.Reachable s → I s → C s a →
      M.step s a = some s' → I s')
    {s : σ} (h : M.ReachableVia C s) : I s := by
  induction h with
  | init => exact hinit
  | step a hr hc ha ih => exact hstep hr.reachable ih hc ha

/-- A run whose steps all meet the guard reaches a guarded state. -/
theorem ReachableVia.run {C : σ → α → Prop} {acts : List α} {s t : σ}
    (hs : M.ReachableVia C s) (hm : M.Meets C s acts)
    (hrun : M.run s acts = some t) : M.ReachableVia C t := by
  induction acts generalizing s with
  | nil =>
      simp only [System.run, Option.some.injEq] at hrun
      exact hrun ▸ hs
  | cons a rest ih =>
      obtain ⟨s', ha, hrest⟩ := run_cons_eq_some.mp hrun
      exact ih (hs.step a hm.1 ha) (hm.2 s' ha) hrest

/-- A count over the actions, with one more. -/
theorem countP_concat (p : α → Bool) (l : List α) (a : α) :
    (l ++ [a]).countP p = l.countP p + (p a).toNat := by
  rw [List.countP_append, List.countP_singleton]
  cases p a <;> rfl

/-- The invariant rule for a state with the actions taken so far. -/
theorem run_invariant {I : σ → List α → Prop}
    (hstep : ∀ {s l a s'}, I s l → M.step s a = some s' → I s' (l ++ [a]))
    {acts l : List α} {s t : σ} (hs : I s l)
    (hrun : M.run s acts = some t) : I t (l ++ acts) := by
  induction acts generalizing s l with
  | nil =>
      simp only [run, Option.some.injEq] at hrun
      rw [List.append_nil]
      exact hrun ▸ hs
  | cons a rest ih =>
      obtain ⟨s', ha, hrest⟩ := run_cons_eq_some.mp hrun
      have hi := ih (hstep hs ha) hrest
      rw [List.append_assoc] at hi
      exact hi

-- ============================================= exact conditions on the steps

/-- What the one successor of a step has, all have. -/
private theorem forall_step {s s' : σ} {a : α} {Q : σ → Prop}
    (ha : M.step s a = some s') :
    (∀ u, M.step s a = some u → Q u) ↔ Q s' := by
  rw [ha]
  exact ⟨fun h => h s' rfl, fun h u hu => Option.some.inj hu ▸ h⟩

/-- When `C` keeps an invariant that implies `P`, and a step that violates
`C` always leads out of `P`, the runs on which `P` holds throughout are
exactly the runs whose steps all meet `C`. The condition may speak of what
another system, beside this one, makes of the actions. -/
theorem always_iff_meets_beside {A : System τ α} {C : τ → α → Prop}
    {I : σ → τ → Prop} {P : σ → Prop}
    (hP : ∀ {s q}, I s q → P s)
    (hkeep : ∀ {s q a s'}, I s q → C q a → M.step s a = some s' →
      ∃ q', A.step q a = some q' ∧ I s' q')
    (hbreak : ∀ {s q a s'}, I s q → ¬ C q a → M.step s a = some s' →
      ¬ P s')
    {acts : List α} {s t : σ} {q : τ} (hs : I s q)
    (hrun : M.run s acts = some t) :
    M.Always P s acts ↔ A.Meets C q acts := by
  induction acts generalizing s q with
  | nil => exact iff_of_true (hP hs) trivial
  | cons a rest ih =>
      obtain ⟨s', ha, hrest⟩ := run_cons_eq_some.mp hrun
      unfold Always Meets
      rw [forall_step ha]
      by_cases hc : C q a
      · obtain ⟨q', hq', hs'⟩ := hkeep hs hc ha
        rw [forall_step hq', ih hs' hrest]
        exact and_congr_left fun _ => iff_of_true (hP hs) hc
      · refine iff_of_false (fun hall => ?_) fun hm => hc hm.1
        have hPs' : P s' := by
          cases rest with
          | nil => exact hall.2
          | cons b rest => exact hall.2.1
        exact hbreak hs hc ha hPs'

/-- The same for a condition on the states of the system itself. -/
theorem always_iff_meets {C : σ → α → Prop} {I P : σ → Prop}
    (hP : ∀ {s}, I s → P s)
    (hkeep : ∀ {s a s'}, I s → C s a → M.step s a = some s' → I s')
    (hbreak : ∀ {s a s'}, I s → ¬ C s a → M.step s a = some s' → ¬ P s')
    {acts : List α} {s t : σ} (hs : I s) (hrun : M.run s acts = some t) :
    M.Always P s acts ↔ M.Meets C s acts := by
  apply always_iff_meets_beside (I := fun s q => s = q ∧ I s)
  · exact fun h => hP h.2
  · rintro s q a s' ⟨rfl, hi⟩ hc ha
    exact ⟨s', ha, rfl, hkeep hi hc ha⟩
  · rintro s q a s' ⟨rfl, hi⟩ hc ha
    exact hbreak hi hc ha
  · exact ⟨rfl, hs⟩
  · exact hrun

/-- What no step regains holds throughout a run exactly when it holds at
its end. -/
theorem always_iff_last {P : σ → Prop}
    (hback : ∀ {s a s'}, M.step s a = some s' → P s' → P s)
    {acts : List α} {s t : σ} (hrun : M.run s acts = some t) :
    M.Always P s acts ↔ P t := by
  induction acts generalizing s with
  | nil =>
      simp only [run, Option.some.injEq] at hrun
      exact hrun ▸ Iff.rfl
  | cons a rest ih =>
      obtain ⟨s', ha, hrest⟩ := run_cons_eq_some.mp hrun
      have hfirst : M.Always P s' rest → P s := by
        intro h
        cases rest with
        | nil => exact hback ha h
        | cons b rest => exact hback ha h.1
      unfold Always
      rw [forall_step ha, and_iff_right_of_imp hfirst, ih hrest]

-- ================================================================= history

/-- The history variable: the system with the log of what its steps
were observed to do. No step reads the log. -/
def withLog (M : System σ α) (obs : σ → α → List β) :
    System (σ × List β) α where
  init := (M.init, [])
  step s a := (M.step s.1 a).map fun s' => (s', s.2 ++ obs s.1 a)

/-- The log of a run. -/
def trace (M : System σ α) (obs : σ → α → List β) (s : σ) :
    List α → List β
  | [] => []
  | a :: rest =>
      match M.step s a with
      | some s' => obs s a ++ trace M obs s' rest
      | none => []

variable {obs : σ → α → List β}

/-- The log of a nonempty run. -/
theorem trace_cons {s s' : σ} {a : α} {rest : List α}
    (h : M.step s a = some s') :
    M.trace obs s (a :: rest) = obs s a ++ M.trace obs s' rest := by
  rw [trace, h]

/-- One step with its log: the bare step, and its observations appended. -/
theorem withLog_step {s s' : σ} {l l' : List β} {a : α} :
    (M.withLog obs).step (s, l) a = some (s', l')
      ↔ M.step s a = some s' ∧ l' = l ++ obs s a := by
  cases hs : M.step s a with
  | none => simp [withLog, hs]
  | some u => simp [withLog, hs, eq_comm]

/-- The log changes no run: the logged system takes exactly the runs of
the bare one and ends with the run's trace. -/
theorem withLog_run {acts : List α} {s t : σ} {l l' : List β} :
    (M.withLog obs).run (s, l) acts = some (t, l')
      ↔ M.run s acts = some t ∧ l' = l ++ M.trace obs s acts := by
  induction acts generalizing s l with
  | nil => simp [run, trace, eq_comm]
  | cons a rest ih =>
      rw [run_cons_eq_some, run_cons_eq_some]
      constructor
      · rintro ⟨⟨s', l₁⟩, ha, hrest⟩
        obtain ⟨ha', rfl⟩ := withLog_step.mp ha
        obtain ⟨hrun, rfl⟩ := ih.mp hrest
        exact ⟨⟨s', ha', hrun⟩, by simp [trace, ha']⟩
      · rintro ⟨⟨s', ha, hrun⟩, rfl⟩
        refine ⟨(s', l ++ obs s a), withLog_step.mpr ⟨ha, rfl⟩, ?_⟩
        exact ih.mpr ⟨hrun, by simp [trace, ha]⟩

/-- The invariant rule for a state with the log so far: what every step
keeps when its observations are appended, every run keeps. -/
theorem trace_invariant {I : σ → List β → Prop}
    (hstep : ∀ {s l a s'}, I s l → M.step s a = some s' →
      I s' (l ++ obs s a))
    {acts : List α} {s t : σ} {l : List β} (hs : I s l)
    (hrun : M.run s acts = some t) : I t (l ++ M.trace obs s acts) := by
  induction acts generalizing s l with
  | nil =>
      simp only [run, Option.some.injEq] at hrun
      rw [trace, List.append_nil]
      exact hrun ▸ hs
  | cons a rest ih =>
      obtain ⟨s', ha, hrest⟩ := run_cons_eq_some.mp hrun
      have hi := ih (hstep hs ha) hrest
      rw [trace_cons ha, ← List.append_assoc]
      exact hi

/-- `always_iff_meets` for a logged system: the steps are those of the
bare one, and the log grows by what they were observed to do. -/
theorem withLog_always_iff_meets {C : σ × List β → α → Prop}
    {I : σ → List β → Prop} {P : σ × List β → Prop}
    (hP : ∀ {s l}, I s l → P (s, l))
    (hkeep : ∀ {s l a s'}, I s l → C (s, l) a → M.step s a = some s' →
      I s' (l ++ obs s a))
    (hbreak : ∀ {s l a s'}, I s l → ¬ C (s, l) a → M.step s a = some s' →
      ¬ P (s', l ++ obs s a))
    {acts : List α} {s : σ} {l : List β} {t : σ × List β} (hs : I s l)
    (hrun : (M.withLog obs).run (s, l) acts = some t) :
    (M.withLog obs).Always P (s, l) acts
      ↔ (M.withLog obs).Meets C (s, l) acts := by
  apply always_iff_meets (I := fun sl => I sl.1 sl.2)
  · exact hP
  · intro ⟨s, l⟩ a ⟨s', l'⟩ hi hc hstep
    obtain ⟨hs', rfl⟩ := withLog_step.mp hstep
    exact hkeep hi hc hs'
  · intro ⟨s, l⟩ a ⟨s', l'⟩ hi hc hstep
    obtain ⟨hs', rfl⟩ := withLog_step.mp hstep
    exact hbreak hi hc hs'
  · exact hs
  · exact hrun

-- ============================================================== simulation

/-- A forward simulation: related states, whatever the concrete step
does, stay related when the abstract system runs what was observed. -/
structure Simulation (M : System σ α) (A : System τ β)
    (obs : σ → α → List β) (R : σ → τ → Prop) : Prop where
  init : R M.init A.init
  step : ∀ {s a s' q}, R s q → M.step s a = some s' →
    ∃ q', A.run q (obs s a) = some q' ∧ R s' q'

/-- A simulation carries every run to a run of the abstract system whose
actions are the run's trace. -/
theorem Simulation.run {A : System τ β} {R : σ → τ → Prop}
    (h : Simulation M A obs R) {acts : List α} {s t : σ} {q : τ}
    (hR : R s q) (hrun : M.run s acts = some t) :
    ∃ q', A.run q (M.trace obs s acts) = some q' ∧ R t q' := by
  induction acts generalizing s q with
  | nil =>
      simp only [System.run, Option.some.injEq] at hrun
      exact ⟨q, rfl, hrun ▸ hR⟩
  | cons a rest ih =>
      obtain ⟨s', ha, hrest⟩ := run_cons_eq_some.mp hrun
      obtain ⟨q₁, hq₁, hR₁⟩ := h.step hR ha
      obtain ⟨q₂, hq₂, hR₂⟩ := ih hR₁ hrest
      refine ⟨q₂, ?_, hR₂⟩
      rw [trace_cons ha]
      exact run_append hq₁ hq₂

-- ============================================================= termination

/-- No run of steps that all take the measure down is longer than the
measure, and what these steps keep holds at its end. -/
theorem run_length_le {C : σ → α → Prop} {I : σ → Prop} {μ : σ → Nat}
    (hstep : ∀ {s a s'}, I s → C s a → M.step s a = some s' →
      I s' ∧ μ s' < μ s)
    {acts : List α} {s t : σ} (hs : I s) (hm : M.Meets C s acts)
    (hrun : M.run s acts = some t) : acts.length + μ t ≤ μ s ∧ I t := by
  induction acts generalizing s with
  | nil =>
      simp only [run, Option.some.injEq] at hrun
      subst hrun
      exact ⟨Nat.le_of_eq (Nat.zero_add _), hs⟩
  | cons a rest ih =>
      obtain ⟨s', ha, hrest⟩ := run_cons_eq_some.mp hrun
      obtain ⟨hs', hlt⟩ := hstep hs hm.1 ha
      obtain ⟨htail, ht⟩ := ih hs' (hm.2 s' ha) hrest
      refine ⟨?_, ht⟩
      rw [List.length_cons]
      omega

/-- The termination rule, whatever the scheduler picks: where every step
of `C` takes the measure down, and some such step is enabled as long as
the work is not done, a run of them is no longer than the measure, and
where it cannot go on the work is done. -/
theorem finishes {C : α → Prop} {I D : σ → Prop} {μ : σ → Nat}
    (hstep : ∀ {s a s'}, I s → C a → M.step s a = some s' →
      I s' ∧ μ s' < μ s)
    (hnext : ∀ {s}, I s → ¬ D s → ∃ a, C a ∧ (M.step s a).isSome = true)
    {acts : List α} {s t : σ} (hs : I s)
    (hm : M.Meets (fun _ a => C a) s acts) (hrun : M.run s acts = some t) :
    acts.length ≤ μ s ∧ ((∀ a, C a → M.step t a = none) → D t) := by
  obtain ⟨hlen, ht⟩ :=
    M.run_length_le (C := fun _ a => C a) (I := I) hstep hs hm hrun
  refine ⟨by omega, fun hstuck => ?_⟩
  by_contra hleft
  obtain ⟨a, ha, hsome⟩ := hnext ht hleft
  rw [hstuck a ha] at hsome
  cases hsome

/-- Where some step takes the measure down as long as the work is not
done, a run of such steps finishes it. -/
theorem drains {C : σ → α → Prop} {I D : σ → Prop} {μ : σ → Nat}
    (hnext : ∀ {s}, I s → ¬ D s →
      ∃ a s', C s a ∧ M.step s a = some s' ∧ I s' ∧ μ s' < μ s)
    {s : σ} (hs : I s) :
    ∃ acts t, M.Meets C s acts ∧ M.run s acts = some t ∧ D t := by
  induction hn : μ s using Nat.strongRecOn generalizing s with
  | _ n ih =>
      by_cases hd : D s
      · exact ⟨[], s, trivial, rfl, hd⟩
      · obtain ⟨a, s', hc, ha, hs', hlt⟩ := hnext hs hd
        obtain ⟨acts, t, hm, hrun, ht⟩ := ih (μ s') (hn ▸ hlt) hs' rfl
        refine ⟨a :: acts, t, ⟨hc, ?_⟩, ?_, ht⟩
        · intro u hu
          rw [ha] at hu
          exact Option.some.inj hu ▸ hm
        · exact run_cons_eq_some.mpr ⟨s', ha, hrun⟩

end System

end Interleave
