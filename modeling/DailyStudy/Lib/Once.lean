/-
The once cell, as an abstract system: the specification of a value that
is built at its first use and only read from then on.

The state is the value, or that there is none yet. A `build v` is enabled
while there is none; a `get v` is enabled when `v` is the value. The one
law (`once_law`): a run from the empty cell is empty, or one build
followed by gets of what was built.

# The guard

What implementations have: the first thread to reach the guard starts the
initialization, one that comes while it runs waits, one that comes later
passes. The thread that runs it is the guard's owner (`Lib.Owner`).
-/
import DailyStudy.Lib.System
import DailyStudy.Lib.Owner

namespace Interleave

variable {V : Type*}

/-- The operations of a once cell, as an observer sees them complete. -/
inductive OnceOp (V : Type*)
  | build (v : V)
  | get (v : V)
  deriving DecidableEq, Repr

variable [DecidableEq V]

/-- The once cell. -/
def once (V : Type*) [DecidableEq V] : System (Option V) (OnceOp V) where
  init := none
  step
    | none, .build v => some (some v)
    | none, .get _ => none
    | some _, .build _ => none
    | some v', .get v => if v' = v then some (some v') else none

theorem once_build {v : V} : (once V).run none [.build v] = some (some v) :=
  rfl

theorem once_get {v : V} : (once V).run (some v) [.get v] = some (some v) := by
  simp [System.run, once]

/-- Once there is a value, only gets of it follow. -/
theorem once_law_built {ops : List (OnceOp V)} {v : V} {c : Option V}
    (hrun : (once V).run (some v) ops = some c) :
    c = some v ∧ ∀ op ∈ ops, op = .get v := by
  induction ops with
  | nil =>
      simp only [System.run, Option.some.injEq] at hrun
      exact ⟨hrun.symm, fun _ h => absurd h List.not_mem_nil⟩
  | cons op rest ih =>
      obtain ⟨c', hop, hrest⟩ := System.run_cons_eq_some.mp hrun
      cases op with
      | build v' => cases hop
      | get v' =>
          by_cases hv : v = v'
          · simp only [once, if_pos hv, Option.some.injEq] at hop
            subst hop hv
            obtain ⟨hc, hall⟩ := ih hrest
            exact ⟨hc, List.forall_mem_cons.mpr ⟨rfl, hall⟩⟩
          · simp [once, hv] at hop

/-- From the empty cell: nothing, or one build and then gets of what was
built. -/
theorem once_law {ops : List (OnceOp V)} {c : Option V}
    (hrun : (once V).run (once V).init ops = some c) :
    ops = [] ∧ c = none
      ∨ ∃ v rest, ops = .build v :: rest ∧ c = some v
        ∧ ∀ op ∈ rest, op = .get v := by
  cases ops with
  | nil =>
      simp only [System.run, Option.some.injEq] at hrun
      exact .inl ⟨rfl, hrun.symm⟩
  | cons op rest =>
      obtain ⟨c', hop, hrest⟩ := System.run_cons_eq_some.mp hrun
      cases op with
      | build v =>
          cases hop
          obtain ⟨hc, hall⟩ := once_law_built hrest
          exact .inr ⟨v, rest, rfl, hc, hall⟩
      | get v => cases hop

-- ================================================================== the guard

/-- A guard: untouched, held by the thread that runs the initialization,
or passed. -/
inductive Guard (ι : Type*)
  | fresh
  | running (i : ι)
  | done
  deriving DecidableEq, Repr

/-- The thread that runs the initialization. -/
def Guard.owner {ι : Type*} : Guard ι → Option ι
  | .running i => some i
  | _ => none

/-- Thread `i` reaches the guard: it starts the initialization, waits, or
passes. -/
def Guard.enter {ι π : Type*} (g : Guard ι) (i : ι) (start pass : π) :
    Option (Guard ι × π) :=
  match g with
  | .fresh => some (.running i, start)
  | .running _ => none
  | .done => some (.done, pass)

@[simp] theorem Guard.owner_fresh {ι : Type*} :
    (Guard.fresh : Guard ι).owner = none := rfl

@[simp] theorem Guard.owner_running {ι : Type*} (i : ι) :
    (Guard.running i).owner = some i := rfl

@[simp] theorem Guard.owner_done {ι : Type*} :
    (Guard.done : Guard ι).owner = none := rfl

theorem Guard.owner_eq_some {ι : Type*} {g : Guard ι} {i : ι} :
    g.owner = some i ↔ g = .running i := by
  cases g with
  | fresh => simp
  | running j => simp
  | done => simp

end Interleave
