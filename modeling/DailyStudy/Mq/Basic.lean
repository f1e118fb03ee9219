/-
The POSIX queue of Mq1.cpp and the two calls that pass strings through
it: `MyQueue::SendMsg` in the parent process, `MyQueue::GetMsg` in the
child.

`SendMsg` sends the bytes of its string without the NUL that ends it.
`GetMsg` prints the buffer `mq_receive` filled as a C string and does not
use the length that call returns, so what ends the string is whatever the
buffer held there before.
-/
import DailyStudy.Lib.System
import DailyStudy.Lib.CString

namespace DailyStudy.Mq

open Interleave

-- =================================================================== the queue

/-- A message queue: its attributes `mq_maxmsg` and `mq_msgsize`, and the
messages in it, oldest first (all of the one priority 0). -/
structure Queue where
  maxmsg : Nat
  msgsize : Nat
  msgs : List (List UInt8)
  room : msgs.length ≤ maxmsg
  fits : ∀ m ∈ msgs, m.length ≤ msgsize

/-- A queue `mq_open` just created. -/
def Queue.empty (maxmsg msgsize : Nat) : Queue where
  maxmsg := maxmsg
  msgsize := msgsize
  msgs := []
  room := Nat.zero_le maxmsg
  fits := nofun

/-- One more message, where there is room for it. -/
def Queue.push (q : Queue) (m : List UInt8) (hroom : q.msgs.length < q.maxmsg)
    (hfits : m.length ≤ q.msgsize) : Queue where
  maxmsg := q.maxmsg
  msgsize := q.msgsize
  msgs := q.msgs ++ [m]
  room := by
    rw [List.length_append]
    exact hroom
  fits m' hm' := by
    rcases List.mem_append.mp hm' with hold | hnew
    · exact q.fits m' hold
    · exact List.mem_singleton.mp hnew ▸ hfits

/-- The queue without its oldest message. -/
def Queue.pop (q : Queue) : Queue where
  maxmsg := q.maxmsg
  msgsize := q.msgsize
  msgs := q.msgs.tail
  room := by
    rw [List.length_tail]
    exact Nat.le_trans (Nat.sub_le _ _) q.room
  fits m hm := q.fits m (List.mem_of_mem_tail hm)

/-- `mq_send(q, bytes, bytes.length, 0)`: whether it succeeds (a message
above `mq_msgsize` does not), and the queue after it. It blocks while the
queue is full. -/
def Queue.mqSend (q : Queue) (bytes : List UInt8) : Option (Bool × Queue) :=
  if hfits : bytes.length ≤ q.msgsize then
    if hroom : q.msgs.length < q.maxmsg then
      some (true, q.push bytes hroom hfits)
    else none
  else some (false, q)

/-- `mq_receive(q, buf, buf.length, NULL)`: the length of the message it
received (none: a buffer below `mq_msgsize` makes it fail), the buffer
and the queue after it. It blocks while the queue is empty, and stores
the bytes of the message and no others. -/
def Queue.mqReceive (q : Queue) (buf : List UInt8) :
    Option (Option Nat × List UInt8 × Queue) :=
  if buf.length < q.msgsize then some (none, buf, q)
  else
    match q.msgs with
    | [] => none
    | m :: _ => some (some m.length, m ++ buf.drop m.length, q.pop)

-- =================================================================== the calls

/-- `MyQueue::SendMsg(msg_ptr)`, on the array the pointer is into. -/
def sendMsg (q : Queue) (msgPtr : List UInt8) : Option (Bool × Queue) := do
  let len ← CString.strlen msgPtr
  q.mqSend (msgPtr.take len)

/-- `MyQueue::GetMsg(msg_ptr, msg_len)`: what it returns and, when that is
true, the text it prints (none: reading it runs past the end of the
buffer), with the buffer and the queue after it. -/
def getMsg (q : Queue) (buf : List UInt8) :
    Option (Option (Option (List UInt8)) × List UInt8 × Queue) := do
  let (received, buf', q') ← q.mqReceive buf
  match received with
  | none => return (none, buf', q')
  | some _ => return (some (CString.ofArray buf'), buf', q')

-- ================================================================== the system

/-- The queue, and the buffer of the child process. -/
structure State where
  queue : Queue
  buf : List UInt8

/-- The next call of the two processes: the parent sends a string, or the
child gets one. -/
inductive Act
  | send (m : List UInt8)
  | get
  deriving DecidableEq, Repr

/-- One call. A string is sent from an array that holds it and its NUL. -/
def step (s : State) : Act → Option State
  | .send m => (sendMsg s.queue (m ++ [0])).map fun (_, q) =>
      { s with queue := q }
  | .get => (getMsg s.queue s.buf).map fun (_, buf, q) =>
      { queue := q, buf := buf }

/-- The two processes, from a new queue on. -/
def program (maxmsg msgsize : Nat) (buf : List UInt8) : System State Act where
  init := { queue := .empty maxmsg msgsize, buf := buf }
  step := step

/-- The strings the parent sends. -/
def strings : List Act → List (List UInt8) :=
  List.filterMap fun
    | .send m => some m
    | .get => none

/-- What the calls of the two processes are seen to do: a string was
sent, or a text was printed. -/
inductive Event
  | sent (m : List UInt8)
  | printed (text : Option (List UInt8))
  deriving DecidableEq, Repr

/-- What a call is seen to do. -/
def seen (s : State) : Act → List Event
  | .send m =>
      match sendMsg s.queue (m ++ [0]) with
      | some (true, _) => [.sent m]
      | _ => []
  | .get =>
      match getMsg s.queue s.buf with
      | some (some text, _) => [.printed text]
      | _ => []

/-- The strings sent. -/
def sent : List Event → List (List UInt8) :=
  List.filterMap fun
    | .sent m => some m
    | .printed _ => none

/-- The texts printed. -/
def printed : List Event → List (Option (List UInt8)) :=
  List.filterMap fun
    | .printed text => some text
    | .sent _ => none

/-- What a sequence of calls is seen to do. -/
def history (maxmsg msgsize : Nat) (buf : List UInt8) (acts : List Act) :
    List Event :=
  (program maxmsg msgsize buf).trace seen (program maxmsg msgsize buf).init
    acts

-- ========================================================== what a call can do

/-- `SendMsg` of a string that fits puts exactly its bytes into the
queue. -/
theorem sendMsg_cases {q q' : Queue} {m : List UInt8} {ok : Bool}
    (hfree : 0 ∉ m) (hfits : m.length ≤ q.msgsize)
    (h : sendMsg q (m ++ [0]) = some (ok, q')) :
    ok = true ∧ q'.msgs = q.msgs ++ [m] ∧ q'.msgsize = q.msgsize := by
  unfold sendMsg CString.strlen at h
  rw [CString.ofArray_concat hfree] at h
  change q.mqSend ((m ++ [0]).take m.length) = _ at h
  rw [List.take_left] at h
  unfold Queue.mqSend at h
  rw [dif_pos hfits] at h
  split at h
  · obtain ⟨rfl, rfl⟩ := Prod.ext_iff.mp (Option.some.inj h)
    exact ⟨rfl, rfl, rfl⟩
  · cases h

/-- `GetMsg` into a buffer of `mq_msgsize` bytes takes the oldest message,
overwrites the front of the buffer with it and prints the buffer. -/
theorem getMsg_cases {q q' : Queue} {buf buf' : List UInt8}
    {text : Option (Option (List UInt8))} (hbuf : buf.length = q.msgsize)
    (h : getMsg q buf = some (text, buf', q')) :
    ∃ m, q.msgs = m :: q'.msgs ∧ buf' = m ++ buf.drop m.length
      ∧ text = some (CString.ofArray buf') ∧ q'.msgsize = q.msgsize := by
  unfold getMsg Queue.mqReceive at h
  rw [if_neg (Nat.not_lt.mpr hbuf.ge)] at h
  cases hmsgs : q.msgs with
  | nil =>
      rw [hmsgs] at h
      cases h
  | cons m rest =>
      rw [hmsgs] at h
      obtain ⟨rfl, hrest⟩ := Prod.ext_iff.mp (Option.some.inj h)
      obtain ⟨rfl, rfl⟩ := Prod.ext_iff.mp hrest
      refine ⟨m, ?_, rfl, rfl, rfl⟩
      show _ = m :: q.msgs.tail
      rw [hmsgs]
      rfl

end DailyStudy.Mq
