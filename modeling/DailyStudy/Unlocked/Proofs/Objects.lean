/-
What the missing lock of `GetInstance` costs: how many objects there can
be.

Every thread that tests the pointer before the first assignment allocates
an object of its own. `main` deletes one of them, and the others stay
alive (`unlocked_leaks`). The number of objects can be any from one to the
number of threads, and no other (`unlocked_counts`): as many threads as
wanted test first, then these allocate, and then the others come.
-/
import DailyStudy.Lib.Census
import DailyStudy.Unlocked.Basic

namespace DailyStudy.Unlocked

open Interleave Instance

variable {T : Type} [DecidableEq T] [Fintype T]

-- =============================================================== the invariant

/-- No allocation in the step fails. -/
def Act.succeeds : Act T → Bool
  | .thread _ fails => !fails
  | .main => true

/-- The thread may still allocate. -/
def Pc.mayAllocate : Pc → Bool
  | .test | .alloc => true
  | _ => false

/-- The thread has found an object, or assigned one. -/
def Pc.served : Pc → Bool
  | .load | .print _ | .finished => true
  | _ => false

/-- What `main` has done: at `join` nothing, at the end deleted one of the
objects. -/
def MainPc.Done (s : State T) : MainPc → Prop
  | .join => s.heap.deleted = []
  | .check | .delete => s.heap.deleted = [] ∧ ∀ t, s.pc t = .finished
  | .reset | .finished => (∀ t, s.pc t = .finished)
      ∧ ∃ x, x < s.heap.allocated ∧ s.heap.deleted = [x]

/-- Every thread allocates once at most; whoever goes on with an object has
one, until `main` resets the pointer. -/
structure Counts (s : State T) : Prop where
  budget : s.heap.allocated + census Pc.mayAllocate s.pc ≤ Fintype.card T
  hands : ∀ t value, s.pc t = .assign value →
    ∃ x, value = some x ∧ x < s.heap.allocated
  pointed : ∀ x, s.singleInstance = some x → x < s.heap.allocated
  served : s.main ≠ .finished → ∀ t, (s.pc t).served = true →
    ∃ x, s.singleInstance = some x
  done : s.main.Done s

variable {s s' : State T}

theorem counts_init : Counts (program T).init where
  budget := by
    have hall : census Pc.mayAllocate (fun _ : T => Pc.test)
        = Fintype.card T := by simp [census, Pc.mayAllocate]
    show 0 + census Pc.mayAllocate (fun _ : T => Pc.test) ≤ _
    omega
  hands _ _ h := by cases h
  pointed _ h := by cases h
  served _ _ h := by cases h
  done := rfl

omit [DecidableEq T] in
/-- Where a thread is still on its way `main` has not joined it. -/
private theorem Counts.main_joins (h : Counts s) {t : T}
    (hpc : s.pc t ≠ .finished) : s.main = .join := by
  have hdone := h.done
  cases hmain : s.main with
  | join => rfl
  | check => rw [hmain] at hdone; exact absurd (hdone.2 t) hpc
  | delete => rw [hmain] at hdone; exact absurd (hdone.2 t) hpc
  | reset => rw [hmain] at hdone; exact absurd (hdone.1 t) hpc
  | finished => rw [hmain] at hdone; exact absurd (hdone.1 t) hpc

/-- A thread moves on without touching the pointer or the heap. -/
private theorem Counts.quiet (h : Counts s) {t : T} {old new : Pc}
    {printed : List (T × Option Nat)} (hpc : s.pc t = old)
    (hout : old ≠ .finished)
    (hmay : new.mayAllocate = true → old.mayAllocate = true)
    (hhands : ∀ value, new ≠ .assign value)
    (hserved : new.served = true → ∃ x, s.singleInstance = some x) :
    Counts { s with
      printed := printed
      pc := Function.update s.pc t new } := by
  have hmain := h.main_joins (t := t) (by rw [hpc]; exact hout)
  refine ⟨?_, ?_, h.pointed, ?_, ?_⟩
  · have hmove := census_move Pc.mayAllocate hpc new
    have hle : new.mayAllocate.toNat ≤ old.mayAllocate.toNat := by
      cases hnew : new.mayAllocate with
      | false => exact Nat.zero_le _
      | true => rw [hmay hnew]
    have hbudget := h.budget
    show s.heap.allocated + census Pc.mayAllocate (Function.update s.pc t new)
      ≤ _
    omega
  · intro u value hu
    rcases view_cases id hu with ⟨-, hnew⟩ | ⟨-, hold⟩
    · exact absurd hnew (hhands value)
    · exact h.hands u value hold
  · intro hne u hu
    rcases view_cases Pc.served hu with ⟨-, hnew⟩ | ⟨-, hold⟩
    · exact hserved hnew
    · exact h.served hne u hold
  · have hdone := h.done
    rw [hmain] at hdone
    show s.main.Done _
    rw [hmain]
    exact hdone

/-- Every step in which no allocation fails keeps the counts. -/
theorem counts_moves [Nonempty T] {a : Act T} (h : Counts s)
    (ha : a.succeeds = true) (hm : Moves s a s') : Counts s' := by
  cases hm with
  | absent hpc _ => exact h.quiet hpc nofun (fun _ => rfl) nofun nofun
  | @present t fails x hpc hptr =>
      exact h.quiet hpc nofun (fun _ => rfl) nofun fun _ => ⟨x, hptr⟩
  | @alloc t hpc =>
      have hmain := h.main_joins (t := t) (by rw [hpc]; nofun)
      refine ⟨?_, ?_, ?_, ?_, ?_⟩
      · have hmove := census_move Pc.mayAllocate hpc
          (.assign (some s.heap.allocated))
        have hbudget := h.budget
        simp only [Pc.mayAllocate, Bool.toNat_true, Bool.toNat_false]
          at hmove ⊢
        omega
      · intro u value hu
        rcases view_cases id hu with ⟨-, hnew⟩ | ⟨-, hold⟩
        · cases hnew
          exact ⟨_, rfl, Nat.lt_succ_self _⟩
        · obtain ⟨x, hx, hlt⟩ := h.hands u value hold
          exact ⟨x, hx, Nat.lt_succ_of_lt hlt⟩
      · exact fun x hx => Nat.lt_succ_of_lt (h.pointed x hx)
      · intro hne u hu
        rcases view_cases Pc.served hu with ⟨-, hnew⟩ | ⟨-, hold⟩
        · cases hnew
        · exact h.served hne u hold
      · have hdone := h.done
        rw [hmain] at hdone
        show s.main.Done _
        rw [hmain]
        exact hdone
  | allocFails _ => cases ha
  | @assign t fails value hpc =>
      have hmain := h.main_joins (t := t) (by rw [hpc]; nofun)
      obtain ⟨x, rfl, hlt⟩ := h.hands t value hpc
      refine ⟨?_, ?_, ?_, fun _ _ _ => ⟨x, rfl⟩, ?_⟩
      · have hmove := census_move Pc.mayAllocate hpc .load
        have hbudget := h.budget
        simp only [Pc.mayAllocate, Bool.toNat_false] at hmove ⊢
        omega
      · intro u value hu
        rcases view_cases id hu with ⟨-, hnew⟩ | ⟨-, hold⟩
        · cases hnew
        · exact h.hands u value hold
      · intro y hy
        exact Option.some.inj hy ▸ hlt
      · have hdone := h.done
        rw [hmain] at hdone
        show s.main.Done _
        rw [hmain]
        exact hdone
  | @load t fails hpc =>
      have hmain := h.main_joins (t := t) (by rw [hpc]; nofun)
      have hptr := h.served (by rw [hmain]; nofun) t (by rw [hpc]; rfl)
      exact h.quiet hpc nofun nofun nofun fun _ => hptr
  | @print t fails result hpc =>
      have hmain := h.main_joins (t := t) (by rw [hpc]; nofun)
      have hptr := h.served (by rw [hmain]; nofun) t (by rw [hpc]; rfl)
      exact h.quiet hpc nofun nofun nofun fun _ => hptr
  | join hpc hall =>
      have hdone := h.done
      rw [hpc] at hdone
      exact ⟨h.budget, h.hands, h.pointed,
        fun _ => h.served (by rw [hpc]; nofun), hdone, hall⟩
  | checkNull hpc hnull =>
      have hdone := h.done
      rw [hpc] at hdone
      obtain ⟨t⟩ := ‹Nonempty T›
      obtain ⟨x, hptr⟩ := h.served (by rw [hpc]; nofun) t
        (by rw [hdone.2 t]; rfl)
      rw [hnull] at hptr
      cases hptr
  | check hpc _ =>
      have hdone := h.done
      rw [hpc] at hdone
      exact ⟨h.budget, h.hands, h.pointed,
        fun _ => h.served (by rw [hpc]; nofun), hdone⟩
  | delete hpc =>
      have hdone := h.done
      rw [hpc] at hdone
      obtain ⟨t⟩ := ‹Nonempty T›
      have hserved := h.served (by rw [hpc]; nofun)
      obtain ⟨x, hptr⟩ := hserved t (by rw [hdone.2 t]; rfl)
      have hlt := h.pointed x hptr
      have hheap : s.heap.delete s.singleInstance
          = { s.heap with deleted := [x] } := by
        rw [hptr, Heap.delete, hdone.1, List.nil_append]
      rw [hheap]
      exact ⟨h.budget, h.hands, h.pointed, fun _ => hserved, hdone.2,
        x, hlt, rfl⟩
  | reset hpc =>
      have hdone := h.done
      rw [hpc] at hdone
      exact ⟨h.budget, h.hands, nofun, fun hne => absurd rfl hne, hdone⟩

/-- The states of the runs in which no allocation fails. -/
def Allocates (s : State T) : Prop :=
  (program T).ReachableVia (fun _ a => a.succeeds = true) s

theorem Allocates.counts [Nonempty T] (h : Allocates s) : Counts s := by
  refine System.ReachableVia.invariant counts_init ?_ h
  exact fun _ hc ha hstep => counts_moves hc ha (step_moves hstep)

/-- The one object that `main` deletes. -/
theorem Allocates.one_deleted [Nonempty T] (hs : Allocates s)
    (hmain : s.main = .finished) :
    ∃ x, x < s.heap.allocated ∧ s.heap.deleted = [x] := by
  have hdone := hs.counts.done
  rw [hmain] at hdone
  exact hdone.2

/-- Where `main` is finished and no allocation failed, one of the objects
is deleted, and all the others are still alive. -/
theorem unlocked_leaks [Nonempty T] (hs : Allocates s)
    (hmain : s.main = .finished) :
    ∃ x, x < s.heap.allocated ∧ s.heap.deleted = [x]
      ∧ ∀ y, s.heap.Live y ↔ y < s.heap.allocated ∧ y ≠ x := by
  obtain ⟨x, hlt, hdel⟩ := hs.one_deleted hmain
  refine ⟨x, hlt, hdel, ?_⟩
  intro y
  rw [Heap.Live, hdel, List.mem_singleton]

/-- Both threads test before one assigns. -/
def bothTest : List (Act Bool) :=
  [.thread false false, .thread true false]
    ++ List.replicate 4 (.thread false false)
    ++ List.replicate 4 (.thread true false) ++ List.replicate 4 .main

/-- The theorem at the end of that run: one of two objects is left. -/
theorem unlocked_leaks_both :
    ∃ s, (program Bool).run (program Bool).init bothTest = some s
      ∧ s.heap.allocated = 2
      ∧ ∃ x, x < s.heap.allocated ∧ s.heap.deleted = [x]
        ∧ ∀ y, s.heap.Live y ↔ y < s.heap.allocated ∧ y ≠ x := by
  have hend : ((program Bool).run (program Bool).init bothTest).map
      (fun s => (s.heap.allocated, s.main)) = some (2, .finished) := by
    decide
  obtain ⟨s, hrun, hs⟩ := Option.map_eq_some_iff.mp hend
  obtain ⟨hn, hmain⟩ := Prod.mk.inj hs
  refine ⟨s, hrun, hn, unlocked_leaks ?_ hmain⟩
  exact System.ReachableVia.init.run
    (System.meets_of_forall (by decide)) hrun

-- ================================================================ the numbers

/-- A thread goes from `p` to `q` and allocates `n` objects on the way; it
can do so where `I` holds, and leaves a state with `J`. -/
def Passes (I J : State T → Prop) (p q : Pc) (n : Nat) : Prop :=
  ∀ {s : State T} {t : T}, Allocates s → I s → s.pc t = p →
    ∃ s', Allocates s' ∧ J s' ∧ s'.pc = Function.update s.pc t q
      ∧ s'.heap.allocated = s.heap.allocated + n

/-- One thread after the other goes that way. -/
theorem Passes.all {I : State T → Prop} {p q : Pc} {n : Nat}
    (h : Passes I I p q n) {ts : List T} (hts : ts.Nodup)
    {s : State T} (hs : Allocates s) (hI : I s)
    (hpc : ∀ t ∈ ts, s.pc t = p) :
    ∃ s', Allocates s' ∧ I s' ∧ (∀ t ∈ ts, s'.pc t = q)
      ∧ (∀ t, t ∉ ts → s'.pc t = s.pc t)
      ∧ s'.heap.allocated = s.heap.allocated + n * ts.length := by
  induction ts generalizing s with
  | nil => exact ⟨s, hs, hI, nofun, fun _ _ => rfl, rfl⟩
  | cons t ts ih =>
      obtain ⟨hnot, hts⟩ := List.nodup_cons.mp hts
      obtain ⟨ht, hrest⟩ := List.forall_mem_cons.mp hpc
      obtain ⟨s₁, hs₁, hI₁, hpc₁, hn₁⟩ := h hs hI ht
      have hrest₁ : ∀ u ∈ ts, s₁.pc u = p := by
        intro u hu
        have hne : u ≠ t := fun heq => hnot (heq ▸ hu)
        rw [hpc₁, Function.update_of_ne hne]
        exact hrest u hu
      obtain ⟨s₂, hs₂, hI₂, hin, hout, hn₂⟩ := ih hts hs₁ hI₁ hrest₁
      refine ⟨s₂, hs₂, hI₂, ?_, ?_, ?_⟩
      · intro u hu
        rcases List.mem_cons.mp hu with rfl | hu
        · rw [hout u hnot, hpc₁, Function.update_self]
        · exact hin u hu
      · intro u hu
        rw [List.mem_cons, not_or] at hu
        obtain ⟨hne, hu⟩ := hu
        rw [hout u hu, hpc₁, Function.update_of_ne hne]
      · rw [hn₂, hn₁, List.length_cons, Nat.mul_succ]
        omega

/-- A step in which no allocation fails. -/
private theorem Allocates.step (h : Allocates s) (a : Act T)
    (ha : a.succeeds = true) (hstep : Unlocked.step s a = some s') :
    Allocates s' := System.ReachableVia.step a h ha hstep

/-- The threads run, and nobody has assigned yet. -/
def Untouched (s : State T) : Prop :=
  s.main = .join ∧ s.singleInstance = none

/-- The threads run, and the pointer is not null any more. -/
def Assigned (s : State T) : Prop :=
  s.main = .join ∧ ∃ x, s.singleInstance = some x

/-- A thread finds the pointer null. -/
private theorem passes_test :
    Passes (T := T) Untouched Untouched .test .alloc 0 := by
  intro s t hs ⟨hmain, hnull⟩ hpc
  refine ⟨{ s with pc := Function.update s.pc t .alloc }, ?_,
    ⟨hmain, hnull⟩, rfl, rfl⟩
  refine hs.step (.thread t false) rfl ?_
  simp only [Unlocked.step, State.thread, hpc, hnull]

/-- A thread that found it null allocates, and goes on to its end. -/
private theorem passes_alloc {I : State T → Prop}
    (hI : ∀ {s}, I s → s.main = .join) :
    Passes (T := T) I Assigned .alloc .finished 1 := by
  intro s t hs hi hpc
  have hmain := hI hi
  have h₁ := hs.step (.thread t false) rfl
    (by simp only [Unlocked.step, State.thread, hpc, Heap.new]; rfl)
  have h₂ := h₁.step (.thread t false) rfl
    (by simp only [Unlocked.step, State.thread, Function.update_self]; rfl)
  have h₃ := h₂.step (.thread t false) rfl
    (by simp only [Unlocked.step, State.thread, Function.update_self]; rfl)
  have h₄ := h₃.step (.thread t false) rfl
    (by simp only [Unlocked.step, State.thread, Function.update_self]; rfl)
  refine ⟨_, h₄, ⟨hmain, _, rfl⟩, ?_, rfl⟩
  simp only [Function.update_idem]

/-- A thread finds an object, and goes on to its end. -/
private theorem passes_present :
    Passes (T := T) Assigned Assigned .test .finished 0 := by
  intro s t hs ⟨hmain, x, hptr⟩ hpc
  have h₁ := hs.step (.thread t false) rfl
    (by simp only [Unlocked.step, State.thread, hpc, hptr]; rfl)
  have h₂ := h₁.step (.thread t false) rfl
    (by simp only [Unlocked.step, State.thread, Function.update_self]; rfl)
  have h₃ := h₂.step (.thread t false) rfl
    (by simp only [Unlocked.step, State.thread, Function.update_self]; rfl)
  refine ⟨_, h₃, ⟨hmain, x, rfl⟩, ?_, rfl⟩
  simp only [Function.update_idem]

/-- `main` joins the threads and deletes the object it finds. -/
private theorem main_finishes (hs : Allocates s) (hmain : s.main = .join)
    {x : Nat} (hptr : s.singleInstance = some x)
    (hall : ∀ t, s.pc t = .finished) :
    ∃ s' : State T, Allocates s' ∧ s'.main = .finished
      ∧ s'.heap.allocated = s.heap.allocated := by
  have h₁ := hs.step .main rfl
    (by simp only [Unlocked.step, State.mainStep, hmain, if_pos hall]; rfl)
  have h₂ := h₁.step .main rfl
    (by simp only [Unlocked.step, State.mainStep, hptr]; rfl)
  have h₃ := h₂.step .main rfl
    (by simp only [Unlocked.step, State.mainStep]; rfl)
  have h₄ := h₃.step .main rfl
    (by simp only [Unlocked.step, State.mainStep]; rfl)
  exact ⟨_, h₄, rfl, rfl⟩

/-- The first threads of a list test, then these allocate, and then the
rest comes. -/
private theorem exists_run (t : T) (first rest : List T)
    (hnodup : (t :: first ++ rest).Nodup)
    (hall : ∀ u, u ∈ t :: first ++ rest) :
    ∃ s : State T, Allocates s ∧ s.main = .finished
      ∧ s.heap.allocated = first.length + 1 := by
  obtain ⟨hfirst, hrest, hapart⟩ := List.nodup_append.mp hnodup
  obtain ⟨hnot, hfirst'⟩ := List.nodup_cons.mp hfirst
  -- everybody in the first part tests
  obtain ⟨s₁, hs₁, hI₁, hin₁, hout₁, hn₁⟩ := passes_test.all hfirst
    .init ⟨rfl, rfl⟩ fun _ _ => rfl
  -- the first of them allocates, and the pointer is not null any more
  obtain ⟨s₂, hs₂, hI₂, hpc₂, hn₂⟩ := passes_alloc (fun h => h.1) hs₁ hI₁
    (hin₁ t List.mem_cons_self)
  have hne : ∀ {u}, u ∈ first → u ≠ t := fun hu heq => hnot (heq ▸ hu)
  have hpc₂' : ∀ u ∈ first, s₂.pc u = .alloc := by
    intro u hu
    rw [hpc₂, Function.update_of_ne (hne hu)]
    exact hin₁ u (List.mem_cons_of_mem t hu)
  have hagain : Passes (T := T) Assigned Assigned .alloc .finished 1 :=
    passes_alloc fun h => h.1
  obtain ⟨s₃, hs₃, hI₃, hin₃, hout₃, hn₃⟩ :=
    hagain.all hfirst' hs₂ hI₂ hpc₂'
  -- the rest finds an object
  have hpc₃ : ∀ u ∈ rest, s₃.pc u = .test := by
    intro u hu
    have hu' : u ∉ t :: first := fun hmem => hapart u hmem u hu rfl
    rw [List.mem_cons, not_or] at hu'
    rw [hout₃ u hu'.2, hpc₂, Function.update_of_ne hu'.1,
      hout₁ u (by rw [List.mem_cons, not_or]; exact hu')]
    rfl
  obtain ⟨s₄, hs₄, ⟨hmain, x, hptr⟩, hin₄, hout₄, hn₄⟩ :=
    passes_present.all hrest hs₃ hI₃ hpc₃
  have hfinished : ∀ u, s₄.pc u = .finished := by
    intro u
    by_cases hu : u ∈ rest
    · exact hin₄ u hu
    · rw [hout₄ u hu]
      rcases List.mem_append.mp (hall u) with hmem | hmem
      · rcases List.mem_cons.mp hmem with rfl | hmem
        · rw [hout₃ u hnot, hpc₂, Function.update_self]
        · exact hin₃ u hmem
      · exact absurd hmem hu
  obtain ⟨s₅, hs₅, hdone, hn₅⟩ := main_finishes hs₄ hmain hptr hfinished
  refine ⟨s₅, hs₅, hdone, ?_⟩
  rw [hn₅, hn₄, hn₃, hn₂, hn₁]
  show 0 + 0 * _ + 1 + 1 * first.length + 0 * _ = _
  omega

/-- The numbers of objects that the program can have made when it ends,
where no allocation fails: from one to the number of threads, and no
others. -/
theorem unlocked_counts [Nonempty T] (n : Nat) :
    (∃ s : State T, Allocates s ∧ s.main = .finished
      ∧ s.heap.allocated = n) ↔ 1 ≤ n ∧ n ≤ Fintype.card T := by
  refine ⟨?_, ?_⟩
  · rintro ⟨s, hs, hmain, rfl⟩
    obtain ⟨x, hlt, -⟩ := hs.one_deleted hmain
    have hbudget := hs.counts.budget
    omega
  · rintro ⟨hpos, hle⟩
    have hcard : (Finset.univ : Finset T).toList.length = Fintype.card T :=
      Finset.length_toList _
    obtain ⟨k, rfl⟩ : ∃ k, n = k + 1 := ⟨n - 1, by omega⟩
    cases hts : (Finset.univ : Finset T).toList with
    | nil =>
        rw [hts] at hcard
        rw [← hcard] at hle
        cases hle
    | cons t ts =>
        rw [hts, List.length_cons] at hcard
        have hsplit : t :: ts.take k ++ ts.drop k = t :: ts := by
          rw [List.cons_append, List.take_append_drop]
        have hnodup : (t :: ts.take k ++ ts.drop k).Nodup := by
          rw [hsplit, ← hts]
          exact Finset.nodup_toList _
        have hall : ∀ u, u ∈ t :: ts.take k ++ ts.drop k := by
          intro u
          rw [hsplit, ← hts]
          exact Finset.mem_toList.mpr (Finset.mem_univ u)
        obtain ⟨s, hs, hmain, hn⟩ := exists_run t _ _ hnodup hall
        refine ⟨s, hs, hmain, ?_⟩
        rw [hn, List.length_take]
        omega

/-- The theorem for two threads: there can be two objects. -/
theorem unlocked_counts_two : ∃ s : State Bool, Allocates s
    ∧ s.main = .finished ∧ s.heap.allocated = 2 :=
  (unlocked_counts 2).mpr ⟨by decide, by decide⟩

end DailyStudy.Unlocked
