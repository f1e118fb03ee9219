/-
`get_initialized_value` and `thread_func` of co1.cc, called by any number
of threads, any number of times: a local static string with a guard of its
own, and a `call_once` that assigns it.

The two are passed in this order by every call. The language's guard is
for the construction of the (empty) string, the `once_flag` for the
assignment; `value` is `none` until it is constructed, and an assignment
to what is not constructed makes no string of it. Each operand of `<<` is
a step of its own.
-/
import DailyStudy.Lib.Once

namespace DailyStudy.CallOnce

open Interleave

-- =================================================================== the texts

/-- What the lambda assigns. -/
def helloWorld : String := "HELLO WORLD"

/-- What the lambda prints. -/
def announcement : List String := ["Initialized Once", "\n"]

/-- What `thread_func` prints of its copy of the string. -/
def report (res : String) : List String :=
  ["Thread is running with value: ", res, "\n", "\n"]

-- ================================================================== the system

/-- Where a thread stands: before the named step. -/
inductive Pc
  | idle
  | enterValue
  | construct
  | release
  | callOnce
  | assign
  | returnOnce
  | copy
  deriving DecidableEq, Repr

/-- What a thread prints first, and its step after that. -/
structure Thread where
  texts : List String
  pc : Pc
  deriving DecidableEq, Repr

/-- The guard of `value`, the flag, the string, the output and the
threads. -/
structure State (T : Type) where
  guard : Guard T
  flag : Guard T
  value : Option String
  output : List (T × String)
  thread : T → Thread

/-- What the scheduler picks: a thread to call `thread_func`, or a thread
to move. -/
inductive Act (T : Type)
  | call (t : T)
  | move (t : T)

variable {T : Type} [DecidableEq T]

/-- Thread `t` goes to `pc`, with `texts` to print on the way. -/
def State.goto (s : State T) (t : T) (texts : List String) (pc : Pc) :
    State T :=
  { s with thread := Function.update s.thread t ⟨texts, pc⟩ }

/-- The step of thread `t` at a program point. -/
def State.move (s : State T) (t : T) : Pc → Option (State T)
  | .idle => none
  | .enterValue =>
      (s.guard.enter t Pc.construct .callOnce).map fun (guard, pc) =>
        { s with guard := guard }.goto t [] pc
  | .construct => some ({ s with value := some "" }.goto t [] .release)
  | .release => some ({ s with guard := .done }.goto t [] .callOnce)
  | .callOnce =>
      (s.flag.enter t (announcement, Pc.assign) ([], .copy)).map
        fun (flag, texts, pc) => { s with flag := flag }.goto t texts pc
  | .assign =>
      some ({ s with value := s.value.map fun _ => helloWorld }.goto t []
        .returnOnce)
  | .returnOnce => some ({ s with flag := .done }.goto t [] .copy)
  | .copy => some (s.goto t ((s.value.map report).getD []) .idle)

/-- One step of one thread. -/
def step (s : State T) : Act T → Option (State T)
  | .call t =>
      match s.thread t with
      | ⟨[], .idle⟩ => some (s.goto t [] .enterValue)
      | _ => none
  | .move t =>
      match s.thread t with
      | ⟨text :: texts, pc⟩ =>
          some ({ s with output := s.output ++ [(t, text)] }.goto t texts pc)
      | ⟨[], pc⟩ => s.move t pc

/-- The threads `T` of the program, from its start on. -/
def program (T : Type) [DecidableEq T] : System (State T) (Act T) where
  init := ⟨.fresh, .fresh, none, [], fun _ => ⟨[], .idle⟩⟩
  step := step

-- ======================================================== what a step can do

/-- The steps, one constructor for each: the program point the thread
leaves, the guard and the effect. -/
inductive Moves (s : State T) : Act T → State T → Prop
  | call {t : T} (hpc : s.thread t = ⟨[], .idle⟩) :
      Moves s (.call t) (s.goto t [] .enterValue)
  | print {t : T} {text : String} {texts : List String} {pc : Pc}
      (hpc : s.thread t = ⟨text :: texts, pc⟩) :
      Moves s (.move t)
        ({ s with output := s.output ++ [(t, text)] }.goto t texts pc)
  | start {t : T} (hpc : s.thread t = ⟨[], .enterValue⟩)
      (hguard : s.guard = .fresh) :
      Moves s (.move t)
        ({ s with guard := .running t }.goto t [] .construct)
  | pass {t : T} (hpc : s.thread t = ⟨[], .enterValue⟩)
      (hguard : s.guard = .done) :
      Moves s (.move t) ({ s with guard := .done }.goto t [] .callOnce)
  | construct {t : T} (hpc : s.thread t = ⟨[], .construct⟩) :
      Moves s (.move t) ({ s with value := some "" }.goto t [] .release)
  | release {t : T} (hpc : s.thread t = ⟨[], .release⟩) :
      Moves s (.move t) ({ s with guard := .done }.goto t [] .callOnce)
  | startOnce {t : T} (hpc : s.thread t = ⟨[], .callOnce⟩)
      (hflag : s.flag = .fresh) :
      Moves s (.move t)
        ({ s with flag := .running t }.goto t announcement .assign)
  | passOnce {t : T} (hpc : s.thread t = ⟨[], .callOnce⟩)
      (hflag : s.flag = .done) :
      Moves s (.move t) ({ s with flag := .done }.goto t [] .copy)
  | assign {t : T} (hpc : s.thread t = ⟨[], .assign⟩) :
      Moves s (.move t)
        ({ s with value := s.value.map fun _ => helloWorld }.goto t []
          .returnOnce)
  | returnOnce {t : T} (hpc : s.thread t = ⟨[], .returnOnce⟩) :
      Moves s (.move t) ({ s with flag := .done }.goto t [] .copy)
  | copy {t : T} (hpc : s.thread t = ⟨[], .copy⟩) :
      Moves s (.move t) (s.goto t ((s.value.map report).getD []) .idle)

/-- Every step is one of them. -/
theorem step_moves {s s' : State T} {a : Act T} (h : step s a = some s') :
    Moves s a s' := by
  cases a with
  | call t =>
      rcases hpc : s.thread t with ⟨_ | ⟨text, texts⟩, pc⟩
      · cases pc with
        | idle =>
            simp only [step, hpc, Option.some.injEq] at h
            exact h ▸ .call hpc
        | _ => simp [step, hpc] at h
      · simp [step, hpc] at h
  | move t =>
      rcases hpc : s.thread t with ⟨_ | ⟨text, texts⟩, pc⟩
      · simp only [step, hpc] at h
        cases pc with
        | idle => cases h
        | enterValue =>
            cases hguard : s.guard with
            | fresh =>
                simp only [State.move, Guard.enter, hguard, Option.map_some,
                  Option.some.injEq] at h
                exact h ▸ .start hpc hguard
            | running u => simp [State.move, Guard.enter, hguard] at h
            | done =>
                simp only [State.move, Guard.enter, hguard, Option.map_some,
                  Option.some.injEq] at h
                exact h ▸ .pass hpc hguard
        | construct =>
            simp only [State.move, Option.some.injEq] at h
            exact h ▸ .construct hpc
        | release =>
            simp only [State.move, Option.some.injEq] at h
            exact h ▸ .release hpc
        | callOnce =>
            cases hflag : s.flag with
            | fresh =>
                simp only [State.move, Guard.enter, hflag, Option.map_some,
                  Option.some.injEq] at h
                exact h ▸ .startOnce hpc hflag
            | running u => simp [State.move, Guard.enter, hflag] at h
            | done =>
                simp only [State.move, Guard.enter, hflag, Option.map_some,
                  Option.some.injEq] at h
                exact h ▸ .passOnce hpc hflag
        | assign =>
            simp only [State.move, Option.some.injEq] at h
            exact h ▸ .assign hpc
        | returnOnce =>
            simp only [State.move, Option.some.injEq] at h
            exact h ▸ .returnOnce hpc
        | copy =>
            simp only [State.move, Option.some.injEq] at h
            exact h ▸ .copy hpc
      · simp only [step, hpc, Option.some.injEq] at h
        exact h ▸ .print hpc

end DailyStudy.CallOnce
