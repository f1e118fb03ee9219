/-
The `main` of Mq1.cpp after its `CreateMQ` has succeeded: `fork`, the loop
of the parent that sends the message, the loop of the child that receives
it, and what ends the two processes.

The loops count from 1 to `rounds` (5 in the source). The parent returns
from `main`, which runs the destructor of the static queue: `mq_unlink` and
then `mq_close`. The child has the parent's descriptor and ends with
`_exit`, which runs no destructor; the kernel closes its descriptor. The
parent's `sleep` is any delay, and the child's `mq_getattr` and `new` come
before its loop: its buffer has `mq_msgsize` bytes of any content.
-/
import DailyStudy.Mq.Basic

namespace DailyStudy.Mq.Main

open Interleave

-- =============================================================== the processes

/-- Where the parent stands: before a round of its loop, or before the
named step of the destructor. -/
inductive ParentPc
  | send (i : Nat)
  | unlink
  | close
  | exited
  deriving DecidableEq, Repr

/-- Where the child stands: before a round of its loop, or ended. -/
inductive ChildPc
  | get (i : Nat)
  | exited
  deriving DecidableEq, Repr

/-- A line that one of the processes prints: `send msg ->..<- successful
i time`, `send failed i time`, `GetMsg---` with the text and `GetMsg
Successful`, or `GetMsg Failed`. -/
inductive Line
  | sendSuccessful (i : Nat)
  | sendFailed (i : Nat)
  | getMsg (text : Option (List UInt8))
  | getFailed
  deriving DecidableEq, Repr

/-- The queue, whether its name is linked and who has it open, the child's
buffer, what is printed, and where the processes stand. -/
structure State where
  queue : Queue
  linked : Bool
  parentOpen : Bool
  childOpen : Bool
  buf : List UInt8
  output : List Line
  parent : ParentPc
  child : ChildPc

/-- What the scheduler picks. -/
inductive Act
  | parent
  | child
  deriving DecidableEq, Repr

/-- The next step of the parent, which sends the string `msg`. -/
def State.parentStep (rounds : Nat) (msg : List UInt8) (s : State) :
    Option State :=
  match s.parent with
  | .send i =>
      if i ≤ rounds then
        (sendMsg s.queue (msg ++ [0])).map fun (ok, queue) =>
          { s with
            queue := queue
            output := s.output
              ++ [if ok then .sendSuccessful i else .sendFailed i]
            parent := .send (i + 1) }
      else some { s with parent := .unlink }
  | .unlink => some { s with linked := false, parent := .close }
  | .close => some { s with parentOpen := false, parent := .exited }
  | .exited => none

/-- The next step of the child. -/
def State.childStep (rounds : Nat) (s : State) : Option State :=
  match s.child with
  | .get i =>
      if i ≤ rounds then
        (getMsg s.queue s.buf).map fun (received, buf, queue) =>
          { s with
            queue := queue
            buf := buf
            output := s.output
              ++ [match received with
                | some text => .getMsg text
                | none => .getFailed]
            child := .get (i + 1) }
      else some { s with childOpen := false, child := .exited }
  | .exited => none

/-- One step of one process. -/
def step (rounds : Nat) (msg : List UInt8) (s : State) : Act → Option State
  | .parent => s.parentStep rounds msg
  | .child => s.childStep rounds

/-- The message of the source, `Hello Hi Thanks`. -/
def hello : List UInt8 :=
  [72, 101, 108, 108, 111, 32, 72, 105, 32, 84, 104, 97, 110, 107, 115]

/-- The two processes from the `fork` on, around a queue just created. -/
def main (rounds maxmsg msgsize : Nat) (msg buf : List UInt8) :
    System State Act where
  init :=
    { queue := .empty maxmsg msgsize
      linked := true
      parentOpen := true
      childOpen := true
      buf := buf
      output := []
      parent := .send 1
      child := .get 1 }
  step := step rounds msg

/-- The kernel keeps the queue while its name is linked or a process has
it open. -/
def State.kept (s : State) : Bool := s.linked || s.parentOpen || s.childOpen

end DailyStudy.Mq.Main
