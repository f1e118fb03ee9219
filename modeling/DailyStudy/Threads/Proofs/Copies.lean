/-
The threads that have a copy: whatever the schedule, `main` joins every
thread and ends, and each `T1` has printed the number of its round once.

# The invariant

The threads started are those of the rounds `main` has behind it
(`Started`), and the numbers printed are those of the threads that are
done (`Prints`). Both speak of one family of threads and serve for either
(`Spawned`).
-/
import DailyStudy.Threads.Basic
import Mathlib.Data.List.Nodup
import Mathlib.Data.List.Perm.Subperm
import Mathlib.Data.List.Range

namespace DailyStudy.Threads

open Interleave

-- ================================================================ one family

/-- The threads of the first `n` rounds are started, each with the number
of its round. -/
structure Started (n : Nat) (t : Nat → ThreadPc) : Prop where
  absent : ∀ k, t k = .absent ↔ n ≤ k
  ready : ∀ k a, t k = .ready a → a = k

/-- The numbers printed are those of the threads that are done, each
once. -/
structure Prints (t : Nat → ThreadPc) (l : List Nat) : Prop where
  once : l.Nodup
  done : ∀ k, k ∈ l ↔ t k = .done

section Family

variable {n k : Nat} {t : Nat → ThreadPc} {l : List Nat}

theorem Started.start (h : Started n t) :
    Started (n + 1) (Function.update t n (.ready n)) where
  absent k := by
    by_cases hk : k = n
    · subst hk
      rw [Function.update_self]
      exact iff_of_false (by simp) (by omega)
    · rw [Function.update_of_ne hk, h.absent]
      omega
  ready k a ha := by
    by_cases hk : k = n
    · subst hk
      rw [Function.update_self] at ha
      cases ha
      rfl
    · rw [Function.update_of_ne hk] at ha
      exact h.ready k a ha

theorem Started.finish (h : Started n t) {a : Nat} (hk : t k = .ready a) :
    Started n (Function.update t k .done) where
  absent j := by
    by_cases hj : j = k
    · subst hj
      have habsent := h.absent j
      rw [hk] at habsent
      rw [Function.update_self]
      exact iff_of_false (by simp) fun hle => by cases habsent.mpr hle
    · rw [Function.update_of_ne hj]
      exact h.absent j
  ready j b hb := by
    by_cases hj : j = k
    · subst hj
      rw [Function.update_self] at hb
      cases hb
    · rw [Function.update_of_ne hj] at hb
      exact h.ready j b hb

/-- A thread that is started is done, or about to print its number. -/
theorem Started.cases (h : Started n t) (hk : k < n) :
    t k = .done ∨ t k = .ready k := by
  cases hpc : t k with
  | absent => exact absurd ((h.absent k).mp hpc) (by omega)
  | ready a => exact .inr (h.ready k a hpc ▸ rfl)
  | done => exact .inl rfl

theorem Prints.start (h : Prints t l) (hk : t k = .absent) (a : Nat) :
    Prints (Function.update t k (.ready a)) l where
  once := h.once
  done j := by
    by_cases hj : j = k
    · subst hj
      rw [Function.update_self, h.done, hk]
      simp
    · rw [Function.update_of_ne hj]
      exact h.done j

theorem Prints.finish (h : Prints t l) {a : Nat} (hk : t k = .ready a) :
    Prints (Function.update t k .done) (l ++ [k]) where
  once := by
    have hnew : k ∉ l := by
      rw [h.done, hk]
      simp
    exact List.concat_eq_append ▸ h.once.concat hnew
  done j := by
    rw [List.mem_append, List.mem_singleton, h.done]
    by_cases hj : j = k
    · subst hj
      rw [Function.update_self]
      exact iff_of_true (.inr rfl) rfl
    · rw [Function.update_of_ne hj]
      exact or_iff_left hj

/-- The numbers are those of rounds begun. -/
theorem Prints.lt (h : Prints t l) (hs : Started n t) (hk : k ∈ l) :
    k < n := by
  by_contra hge
  have hdone := (h.done k).mp hk
  rw [(hs.absent k).mpr (Nat.not_lt.mp hge)] at hdone
  cases hdone

theorem Prints.length_le (h : Prints t l) (hs : Started n t) :
    l.length ≤ n := by
  have hsub : l ⊆ List.range n := fun k hk =>
    List.mem_range.mpr (h.lt hs hk)
  have hle := (List.subperm_of_subset h.once hsub).length_le
  rwa [List.length_range] at hle

/-- When all are done, the numbers are those of all rounds. -/
theorem Prints.perm (h : Prints t l) (hs : Started n t)
    (hall : ∀ k < n, t k = .done) : l.Perm (List.range n) := by
  refine (List.perm_ext_iff_of_nodup h.once List.nodup_range).mpr ?_
  intro k
  rw [List.mem_range]
  exact ⟨h.lt hs, fun hk => (h.done k).mpr (hall k hk)⟩

end Family

-- ============================================================== program points

/-- The rounds whose `T1` is started. -/
def MainPc.pushed (rounds : Nat) : MainPc → Nat
  | .loop i | .pushBack i => i
  | .declare i | .emplaceBack i | .endBody i => i + 1
  | .join _ | .joinRef _ | .ended => rounds

/-- The rounds whose `T2` is started. -/
def MainPc.emplaced (rounds : Nat) : MainPc → Nat
  | .loop i | .pushBack i | .declare i | .emplaceBack i => i
  | .endBody i => i + 1
  | .join _ | .joinRef _ | .ended => rounds

/-- The `T1` threads that `main` has joined. -/
def MainPc.joined (rounds : Nat) : MainPc → Nat
  | .join k => k
  | .joinRef _ | .ended => rounds
  | _ => 0

/-- The `T2` threads that `main` has joined. -/
def MainPc.joinedRef (rounds : Nat) : MainPc → Nat
  | .joinRef k => k
  | .ended => rounds
  | _ => 0

/-- The counters stay within the loops. -/
def MainPc.within (rounds : Nat) : MainPc → Prop
  | .loop i | .join i | .joinRef i => i ≤ rounds
  | .pushBack i | .declare i | .emplaceBack i | .endBody i => i < rounds
  | .ended => True

/-- The `tmp` that is alive. -/
def MainPc.tmp : MainPc → Option (Nat × Nat)
  | .emplaceBack i | .endBody i => some (i, i)
  | _ => none

/-- The steps `main` has taken. -/
def MainPc.taken (rounds : Nat) : MainPc → Nat
  | .loop i => 5 * i
  | .pushBack i => 5 * i + 1
  | .declare i => 5 * i + 2
  | .emplaceBack i => 5 * i + 3
  | .endBody i => 5 * i + 4
  | .join k => 5 * rounds + 1 + k
  | .joinRef k => 6 * rounds + 2 + k
  | .ended => 7 * rounds + 3

theorem MainPc.taken_le {rounds : Nat} {pc : MainPc}
    (h : pc.within rounds) : pc.taken rounds ≤ 7 * rounds + 3 := by
  cases pc with
  | ended => exact Nat.le_refl _
  | _ =>
      simp only [MainPc.within] at h
      simp only [MainPc.taken]
      omega

-- ============================================================== the invariant

/-- What every schedule keeps: where `main` is tells which threads are
started, which are joined, and which `tmp` is alive. -/
structure Spawned (rounds : Nat) (s : State) : Prop where
  within : s.main.within rounds
  started : Started (s.main.pushed rounds) s.t1
  startedRef : Started (s.main.emplaced rounds) s.t2
  printed : Prints s.t1 (copies s.output)
  loaded : ∃ l, Prints s.t2 l ∧ l.length = (loads s.output).length
  joined : ∀ k < s.main.joined rounds, s.t1 k = .done
  joinedRef : ∀ k < s.main.joinedRef rounds, s.t2 k = .done
  tmp : s.tmp = s.main.tmp

theorem copies_t1 (l : List Line) (a : Nat) :
    copies (l ++ [.t1 a]) = copies l ++ [a] :=
  List.filterMap_append ..

theorem copies_t2 (l : List Line) (a : Option Nat) :
    copies (l ++ [.t2 a]) = copies l :=
  (List.filterMap_append ..).trans (List.append_nil _)

theorem loads_t1 (l : List Line) (a : Nat) :
    loads (l ++ [.t1 a]) = loads l :=
  (List.filterMap_append ..).trans (List.append_nil _)

theorem loads_t2 (l : List Line) (a : Option Nat) :
    loads (l ++ [.t2 a]) = loads l ++ [a] :=
  List.filterMap_append ..

variable {rounds : Nat}

theorem spawned_init : Spawned rounds (program rounds).init where
  within := Nat.zero_le rounds
  started :=
    ⟨fun k => iff_of_true rfl (Nat.zero_le k), fun _ _ h => by cases h⟩
  startedRef :=
    ⟨fun k => iff_of_true rfl (Nat.zero_le k), fun _ _ h => by cases h⟩
  printed := ⟨List.nodup_nil, fun _ => by simp [program, copies]⟩
  loaded := ⟨[], ⟨List.nodup_nil, fun _ => by simp [program]⟩, rfl⟩
  joined _ h := absurd h (Nat.not_lt_zero _)
  joinedRef _ h := absurd h (Nat.not_lt_zero _)
  tmp := rfl

/-- Every step keeps the invariant. -/
theorem spawned_moves {s s' : State} {a : Act} (h : Spawned rounds s)
    (hm : Moves rounds s a s') : Spawned rounds s' := by
  obtain ⟨hwithin, hcopies, hrefs, hprinted, hloaded, hjoined, hjoinedRef,
    htmp⟩ := h
  cases hm with
  | @enter i hpc hlt =>
      rw [hpc] at hcopies hrefs htmp hjoined hjoinedRef
      exact ⟨hlt, hcopies, hrefs, hprinted, hloaded, hjoined, hjoinedRef,
        htmp⟩
  | @leave i hpc hge =>
      rw [hpc] at hwithin hcopies hrefs htmp hjoined hjoinedRef
      have hi : i = rounds := Nat.le_antisymm hwithin (Nat.not_lt.mp hge)
      subst hi
      exact ⟨Nat.zero_le _, hcopies, hrefs, hprinted, hloaded, hjoined,
        hjoinedRef, htmp⟩
  | @pushBack i hpc =>
      rw [hpc] at hwithin hcopies hrefs htmp hjoined hjoinedRef
      have habsent : s.t1 i = .absent := (hcopies.absent i).mpr (Nat.le_refl i)
      exact ⟨hwithin, hcopies.start, hrefs, hprinted.start habsent i, hloaded,
        fun _ hk => absurd hk (Nat.not_lt_zero _), hjoinedRef, htmp⟩
  | @declare i hpc =>
      rw [hpc] at hwithin hcopies hrefs hjoined hjoinedRef
      exact ⟨hwithin, hcopies, hrefs, hprinted, hloaded, hjoined, hjoinedRef,
        rfl⟩
  | @emplaceBack i hpc =>
      rw [hpc] at hwithin hcopies hrefs htmp hjoined hjoinedRef
      have habsent : s.t2 i = .absent := (hrefs.absent i).mpr (Nat.le_refl i)
      obtain ⟨l, hl, hlength⟩ := hloaded
      exact ⟨hwithin, hcopies, hrefs.start, hprinted,
        ⟨l, hl.start habsent i, hlength⟩, hjoined,
        fun _ hk => absurd hk (Nat.not_lt_zero _), htmp⟩
  | @endBody i hpc =>
      rw [hpc] at hwithin hcopies hrefs hjoined hjoinedRef
      exact ⟨hwithin, hcopies, hrefs, hprinted, hloaded, hjoined, hjoinedRef,
        rfl⟩
  | @join k hpc hlt hdone =>
      rw [hpc] at hcopies hrefs htmp hjoined hjoinedRef
      refine ⟨hlt, hcopies, hrefs, hprinted, hloaded, ?_, hjoinedRef, htmp⟩
      intro j hj
      rcases Nat.lt_succ_iff_lt_or_eq.mp hj with hj | hj
      · exact hjoined j hj
      · exact hj ▸ hdone
  | @joined k hpc hge =>
      rw [hpc] at hwithin hcopies hrefs htmp hjoined hjoinedRef
      have hk : k = rounds := Nat.le_antisymm hwithin (Nat.not_lt.mp hge)
      subst hk
      exact ⟨Nat.zero_le _, hcopies, hrefs, hprinted, hloaded, hjoined,
        hjoinedRef, htmp⟩
  | @joinRef k hpc hlt hdone =>
      rw [hpc] at hcopies hrefs htmp hjoined hjoinedRef
      refine ⟨hlt, hcopies, hrefs, hprinted, hloaded, hjoined, ?_, htmp⟩
      intro j hj
      rcases Nat.lt_succ_iff_lt_or_eq.mp hj with hj | hj
      · exact hjoinedRef j hj
      · exact hj ▸ hdone
  | @finish k hpc hge =>
      rw [hpc] at hwithin hcopies hrefs htmp hjoined hjoinedRef
      have hk : k = rounds := Nat.le_antisymm hwithin (Nat.not_lt.mp hge)
      subst hk
      exact ⟨trivial, hcopies, hrefs, hprinted, hloaded, hjoined, hjoinedRef,
        htmp⟩
  | @t1 k a hpc =>
      obtain rfl := hcopies.ready k a hpc
      refine ⟨hwithin, hcopies.finish hpc, hrefs, ?_, ?_, ?_, hjoinedRef,
        htmp⟩
      · show Prints _ (copies (s.output ++ [.t1 a]))
        rw [copies_t1]
        exact hprinted.finish hpc
      · show ∃ l, Prints s.t2 l
          ∧ l.length = (loads (s.output ++ [.t1 a])).length
        rw [loads_t1]
        exact hloaded
      · intro j hj
        by_cases hja : j = a
        · rw [hja]
          exact Function.update_self ..
        · exact (Function.update_of_ne hja ..).trans (hjoined j hj)
  | @t2 k r hpc =>
      obtain rfl := hrefs.ready k r hpc
      refine ⟨hwithin, hcopies, hrefs.finish hpc, ?_, ?_, hjoined, ?_, htmp⟩
      · show Prints _ (copies (s.output ++ [.t2 _]))
        rw [copies_t2]
        exact hprinted
      · obtain ⟨l, hl, hlength⟩ := hloaded
        refine ⟨l ++ [r], hl.finish hpc, ?_⟩
        show _ = (loads (s.output ++ [.t2 _])).length
        rw [loads_t2, List.length_append, List.length_append, hlength]
        rfl
      · intro j hj
        by_cases hjr : j = r
        · rw [hjr]
          exact Function.update_self ..
        · exact (Function.update_of_ne hjr ..).trans (hjoinedRef j hj)

theorem spawned_reachable {s : State} (h : (program rounds).Reachable s) :
    Spawned rounds s :=
  h.invariant spawned_init fun _ hs hstep =>
    spawned_moves hs (step_moves hstep)

-- ===================================================================== the end

/-- The steps of `main` and the lines printed are the steps taken. -/
theorem taken_moves {s s' : State} {a : Act} (h : Spawned rounds s)
    (hm : Moves rounds s a s') :
    s'.main.taken rounds + s'.output.length
      = s.main.taken rounds + s.output.length + 1 := by
  have hwithin := h.within
  cases hm with
  | t1 hpc | t2 hpc =>
      rw [List.length_append, List.length_singleton, Nat.add_assoc]
  | leave hpc hge | joined hpc hge | finish hpc hge =>
      rw [hpc] at hwithin ⊢
      simp only [MainPc.within] at hwithin
      simp only [MainPc.taken]
      omega
  | pushBack hpc | declare hpc | emplaceBack hpc | endBody hpc
  | enter hpc hlt | join hpc hlt hdone | joinRef hpc hlt hdone =>
      rw [hpc]
      simp only [MainPc.taken]
      omega

theorem output_length (l : List Line) :
    l.length = (copies l).length + (loads l).length := by
  induction l with
  | nil => rfl
  | cons line rest ih =>
      cases line with
      | t1 a =>
          show _ = (a :: copies rest).length + (loads rest).length
          rw [List.length_cons, List.length_cons, ih]
          omega
      | t2 a =>
          show _ = (copies rest).length + (a :: loads rest).length
          rw [List.length_cons, List.length_cons, ih]
          omega

theorem MainPc.pushed_le {pc : MainPc} (h : pc.within rounds) :
    pc.pushed rounds ≤ rounds := by
  cases pc with
  | loop i => exact h
  | pushBack i => exact Nat.le_of_lt h
  | _ => first | exact h | exact Nat.le_refl _

theorem MainPc.emplaced_le {pc : MainPc} (h : pc.within rounds) :
    pc.emplaced rounds ≤ rounds := by
  cases pc with
  | loop i => exact h
  | endBody i => exact h
  | pushBack i => exact Nat.le_of_lt h
  | declare i => exact Nat.le_of_lt h
  | emplaceBack i => exact Nat.le_of_lt h
  | _ => exact Nat.le_refl _

/-- Until `main` has ended, it goes on or the thread it joins does. -/
theorem some_can_move {s : State} (h : Spawned rounds s)
    (hmain : s.main ≠ .ended) : ∃ a t, step rounds s a = some t := by
  have hstarted := h.started
  have hstartedRef := h.startedRef
  cases hpc : s.main with
  | ended => exact absurd hpc hmain
  | join k =>
      rw [hpc] at hstarted
      by_cases hlt : k < rounds
      · rcases hstarted.cases hlt with hdone | hready
        · exact ⟨.main, by simp [step, State.mainStep, hpc, hlt, hdone]⟩
        · exact ⟨.t1 k, by simp [step, hready]⟩
      · exact ⟨.main, by simp [step, State.mainStep, hpc, hlt]⟩
  | joinRef k =>
      rw [hpc] at hstartedRef
      by_cases hlt : k < rounds
      · rcases hstartedRef.cases hlt with hdone | hready
        · exact ⟨.main, by simp [step, State.mainStep, hpc, hlt, hdone]⟩
        · exact ⟨.t2 k, by simp [step, hready]⟩
      · exact ⟨.main, by simp [step, State.mainStep, hpc, hlt]⟩
  | _ => exact ⟨.main, by simp [step, State.mainStep, hpc]⟩

/-- Once `main` has ended nobody goes on. -/
theorem ended_stuck {s : State} (h : Spawned rounds s)
    (hmain : s.main = .ended) (a : Act) : step rounds s a = none := by
  obtain ⟨-, hstarted, hstartedRef, -, -, hjoined, hjoinedRef, -⟩ := h
  rw [hmain] at hstarted hstartedRef hjoined hjoinedRef
  cases a with
  | main => simp [step, State.mainStep, hmain]
  | t1 k =>
      rcases Nat.lt_or_ge k rounds with hk | hk
      · simp [step, hjoined k hk]
      · simp [step, (hstarted.absent k).mpr hk]
  | t2 k =>
      rcases Nat.lt_or_ge k rounds with hk | hk
      · simp [step, hjoinedRef k hk]
      · simp [step, (hstartedRef.absent k).mpr hk]

/-- Every schedule takes at most nine steps for a round and three; where
nobody can go on, `main` has ended, each `T1` has printed the number of
its round, and each `T2` something. -/
theorem threads_joined {acts : List Act} {s : State}
    (hrun : (program rounds).run (program rounds).init acts = some s) :
    acts.length ≤ 9 * rounds + 3
    ∧ ((∀ a, step rounds s a = none) →
        s.main = .ended ∧ (copies s.output).Perm (List.range rounds)
          ∧ (loads s.output).length = rounds) := by
  have h := spawned_reachable (System.Reachable.init.run hrun)
  constructor
  · have htaken := System.run_invariant (l := [])
      (I := fun s l => Spawned rounds s
        ∧ s.main.taken rounds + s.output.length = l.length)
      (fun {s l a s'} hs hstep => by
        have hm := step_moves hstep
        refine ⟨spawned_moves hs.1 hm, ?_⟩
        rw [taken_moves hs.1 hm, hs.2, List.length_append,
          List.length_singleton])
      ⟨spawned_init, rfl⟩ hrun
    obtain ⟨l, hl, hlength⟩ := h.loaded
    have hmain := MainPc.taken_le h.within
    have hcopies := h.printed.length_le h.started
    have hloads := hl.length_le h.startedRef
    have hpushed := MainPc.pushed_le h.within
    have hemplaced := MainPc.emplaced_le h.within
    have hout := output_length s.output
    rw [List.nil_append] at htaken
    omega
  · intro hstuck
    have hended : s.main = .ended := by
      by_contra hmain
      obtain ⟨a, t, ha⟩ := some_can_move h hmain
      rw [hstuck a] at ha
      cases ha
    have hstarted := h.started
    have hstartedRef := h.startedRef
    have hjoined := h.joined
    have hjoinedRef := h.joinedRef
    rw [hended] at hstarted hstartedRef hjoined hjoinedRef
    obtain ⟨l, hl, hlength⟩ := h.loaded
    refine ⟨hended, h.printed.perm hstarted hjoined, ?_⟩
    rw [← hlength, (hl.perm hstartedRef hjoinedRef).length_eq,
      List.length_range]
    rfl

/-- Two rounds in which every thread prints late, the last one first. -/
def lateRun : List Act :=
  List.replicate 11 .main ++ [.t2 1, .t1 1, .t2 0, .t1 0]
    ++ List.replicate 6 .main

/-- The theorem at the end of that schedule. -/
theorem threads_joined_late :
    ∃ s, (program 2).run (program 2).init lateRun = some s
      ∧ (copies s.output).Perm (List.range 2)
      ∧ copies s.output = [1, 0] := by
  obtain ⟨s, hrun, hend⟩ := Option.map_eq_some_iff.mp
    (by decide : ((program 2).run (program 2).init lateRun).map
      (fun s => (s.main, copies s.output)) = some (.ended, [1, 0]))
  have h := spawned_reachable (System.Reachable.init.run hrun)
  have hmain : s.main = .ended := congrArg (·.1) hend
  have hcopies : copies s.output = [1, 0] := congrArg (·.2) hend
  exact ⟨s, hrun, ((threads_joined hrun).2 (ended_stuck h hmain)).2.1,
    hcopies⟩

end DailyStudy.Threads
