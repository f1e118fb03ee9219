/-
The local statics with an initializer of co2.cc (`get_initialized_value`),
InstanceAndThreadSafe2.cpp (`get_instance`) and InstanceqQueue.cpp
(`getInstance`), called by any number of threads, any number of times.

The language guards such a static: the first thread to reach it evaluates
the initializer, a thread that comes while it does waits, one that comes
later passes. An initializer that throws leaves the guard as it found it,
and the exception to its caller.

Each of the three functions is one `Program`: what its callers print, and
what the initializer prints and makes. Each operand of `<<` is a step of
its own, so the lines of different threads may mix.

# Values

- co2.cc: the int that `get_value` returns.
- InstanceAndThreadSafe2.cpp: the object has static storage, so there is
  one address it can have.
- InstanceqQueue.cpp: a heap object, numbered in the order of allocation;
  `new` may throw.
-/
import DailyStudy.Lib.Once

namespace DailyStudy.Static

open Interleave

-- ================================================================ the programs

/-- A function around a local static, and what its callers print. -/
structure Program (T V : Type) where
  /-- Printed before the call. -/
  greets : T → List String
  /-- Printed by the initializer. -/
  announces : List String
  /-- The value made, and the number of objects allocated then, from the
  number before; `fails` says whether an allocation in it does. -/
  construct : Nat → Bool → Option V × Nat
  /-- Printed after the call. -/
  reports : V → List String
  /-- What throws has allocated nothing. -/
  throws : ∀ {allocated fails allocated'},
    construct allocated fails = (none, allocated') → allocated' = allocated

variable {T V : Type}

/-- `thread_func`, `get_initialized_value` and `get_value` of co2.cc. -/
def getInitializedValue : Program T Int where
  greets _ := []
  announces := ["run get value!", "\n"]
  construct allocated _ := (some 1, allocated)
  reports res := ["Thread is running with value: ", toString res, "\n", "\n"]
  throws h := by cases h

/-- `PrintHello` and `get_instance` of InstanceAndThreadSafe2.cpp; `this`
is the text of the object's address. -/
def getInstanceExample (this : String) : Program Nat Unit where
  greets tid := ["Hi, 我是线程 ID:[", toString tid, "]", "\n"]
  announces := ["构造函数", this, "\n"]
  construct allocated _ := (some (), allocated)
  reports _ := ["我的实例内存地址是:", this, "\n"]
  throws h := by cases h

/-- `getInstance` of InstanceqQueue.cpp. -/
def getQueueSingleton : Program T Nat where
  greets _ := []
  announces := []
  construct allocated fails :=
    if fails then (none, allocated) else (some allocated, allocated + 1)
  reports _ := []
  throws {_ fails _} h := by
    cases fails with
    | false => cases h
    | true => exact (Prod.mk.inj h).2.symm

-- ================================================================== the system

/-- Where a thread stands: before the named step. -/
inductive Pc (V : Type)
  | idle
  | enter
  | construct
  | store (value : V)
  | release
  | load
  deriving DecidableEq, Repr

/-- What a thread prints first, and its step after that. -/
structure Thread (V : Type) where
  texts : List String
  pc : Pc V
  deriving DecidableEq, Repr

/-- The guard, the static's storage, the heap, the output and the
threads. -/
structure State (T V : Type) where
  guard : Guard T
  value : Option V
  allocated : Nat
  output : List (T × String)
  thread : T → Thread V

/-- What the scheduler picks: a thread to call the function, or a thread
to move. -/
inductive Act (T : Type)
  | call (t : T)
  | move (t : T) (fails : Bool)

variable [DecidableEq T]

/-- Thread `t` goes to `pc`, with `texts` to print on the way. -/
def State.goto (s : State T V) (t : T) (texts : List String) (pc : Pc V) :
    State T V :=
  { s with thread := Function.update s.thread t ⟨texts, pc⟩ }

/-- The step of thread `t` at a program point. -/
def State.move (p : Program T V) (s : State T V) (t : T) (fails : Bool) :
    Pc V → Option (State T V)
  | .idle => none
  | .enter =>
      (s.guard.enter t (p.announces, .construct) ([], .load)).map
        fun (guard, texts, pc) => { s with guard := guard }.goto t texts pc
  | .construct =>
      match p.construct s.allocated fails with
      | (some value, allocated) =>
          some ({ s with allocated := allocated }.goto t [] (.store value))
      | (none, allocated) =>
          some ({ s with guard := .fresh, allocated := allocated }.goto t []
            .idle)
  | .store value => some ({ s with value := some value }.goto t [] .release)
  | .release => some ({ s with guard := .done }.goto t [] .load)
  | .load => some (s.goto t ((s.value.map p.reports).getD []) .idle)

/-- One step of one thread. -/
def step (p : Program T V) (s : State T V) : Act T → Option (State T V)
  | .call t =>
      match s.thread t with
      | ⟨[], .idle⟩ => some (s.goto t (p.greets t) .enter)
      | _ => none
  | .move t fails =>
      match s.thread t with
      | ⟨text :: texts, pc⟩ =>
          some ({ s with output := s.output ++ [(t, text)] }.goto t texts pc)
      | ⟨[], pc⟩ => s.move p t fails pc

/-- The threads `T` around the static of `p`, from the start of the program
on. -/
def lazy (p : Program T V) : System (State T V) (Act T) where
  init := ⟨.fresh, none, 0, [], fun _ => ⟨[], .idle⟩⟩
  step := step p

-- ======================================================== what a step can do

/-- The steps, one constructor for each: the program point the thread
leaves, the guard and the effect. -/
inductive Moves (p : Program T V) (s : State T V) :
    Act T → State T V → Prop
  | call {t : T} (hpc : s.thread t = ⟨[], .idle⟩) :
      Moves p s (.call t) (s.goto t (p.greets t) .enter)
  | print {t : T} {fails : Bool} {text : String} {texts : List String}
      {pc : Pc V} (hpc : s.thread t = ⟨text :: texts, pc⟩) :
      Moves p s (.move t fails)
        ({ s with output := s.output ++ [(t, text)] }.goto t texts pc)
  | start {t : T} {fails : Bool} (hpc : s.thread t = ⟨[], .enter⟩)
      (hguard : s.guard = .fresh) :
      Moves p s (.move t fails)
        ({ s with guard := .running t }.goto t p.announces .construct)
  | pass {t : T} {fails : Bool} (hpc : s.thread t = ⟨[], .enter⟩)
      (hguard : s.guard = .done) :
      Moves p s (.move t fails) ({ s with guard := .done }.goto t [] .load)
  | construct {t : T} {fails : Bool} {value : V} {allocated : Nat}
      (hpc : s.thread t = ⟨[], .construct⟩)
      (hvalue : p.construct s.allocated fails = (some value, allocated)) :
      Moves p s (.move t fails)
        ({ s with allocated := allocated }.goto t [] (.store value))
  | throws {t : T} {fails : Bool} {allocated : Nat}
      (hpc : s.thread t = ⟨[], .construct⟩)
      (hvalue : p.construct s.allocated fails = (none, allocated)) :
      Moves p s (.move t fails)
        ({ s with guard := .fresh, allocated := allocated }.goto t [] .idle)
  | store {t : T} {fails : Bool} {value : V}
      (hpc : s.thread t = ⟨[], .store value⟩) :
      Moves p s (.move t fails)
        ({ s with value := some value }.goto t [] .release)
  | release {t : T} {fails : Bool} (hpc : s.thread t = ⟨[], .release⟩) :
      Moves p s (.move t fails) ({ s with guard := .done }.goto t [] .load)
  | load {t : T} {fails : Bool} (hpc : s.thread t = ⟨[], .load⟩) :
      Moves p s (.move t fails)
        (s.goto t ((s.value.map p.reports).getD []) .idle)

/-- Every step is one of them. -/
theorem step_moves {p : Program T V} {s s' : State T V} {a : Act T}
    (h : step p s a = some s') : Moves p s a s' := by
  cases a with
  | call t =>
      rcases hpc : s.thread t with ⟨texts, pc⟩
      cases texts with
      | cons text texts => simp [step, hpc] at h
      | nil =>
          cases pc with
          | idle =>
              simp only [step, hpc, Option.some.injEq] at h
              exact h ▸ .call hpc
          | _ => simp [step, hpc] at h
  | move t fails =>
      rcases hpc : s.thread t with ⟨texts, pc⟩
      cases texts with
      | cons text texts =>
          simp only [step, hpc, Option.some.injEq] at h
          exact h ▸ .print hpc
      | nil =>
          simp only [step, hpc] at h
          cases pc with
          | idle => cases h
          | enter =>
              cases hguard : s.guard with
              | fresh =>
                  simp only [State.move, Guard.enter, hguard, Option.map_some,
                    Option.some.injEq] at h
                  exact h ▸ .start hpc hguard
              | running u => simp [State.move, Guard.enter, hguard] at h
              | done =>
                  simp only [State.move, Guard.enter, hguard, Option.map_some,
                    Option.some.injEq] at h
                  exact h ▸ .pass hpc hguard
          | construct =>
              rcases hvalue : p.construct s.allocated fails with
                ⟨_ | value, allocated⟩
              · simp only [State.move, hvalue, Option.some.injEq] at h
                exact h ▸ .throws hpc hvalue
              · simp only [State.move, hvalue, Option.some.injEq] at h
                exact h ▸ .construct hpc hvalue
          | store value =>
              simp only [State.move, Option.some.injEq] at h
              exact h ▸ .store hpc
          | release =>
              simp only [State.move, Option.some.injEq] at h
              exact h ▸ .release hpc
          | load =>
              simp only [State.move, Option.some.injEq] at h
              exact h ▸ .load hpc

end DailyStudy.Static
