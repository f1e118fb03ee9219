/-
The counters of the rings as the programs have them: `next_write_slot_`
and `next_read_slot_` are `std::atomic<int>`, of 32 bits, and `fetch_add`
wraps.

The models of the rings count with natural numbers. This one computes
what the two counters really hold: the slot a call takes, by C++'s
truncating `%`, and the two predicates mmap4_cv waits on.
-/
import DailyStudy.Lib.System
import DailyStudy.Sem.Basic
import DailyStudy.Cv.Basic
import DailyStudy.Covering.Basic
import DailyStudy.Lib.Wrap

namespace DailyStudy.Counters

open Interleave

/-- The programs with a ring. -/
inductive Ring
  | mmap4Sem
  | mmap4Cv
  | mmap5
  | mmap6
  | mmap7
  deriving DecidableEq, Repr

/-- `NUM_SLOTS` of each. -/
def Ring.numSlots : Ring → Nat
  | .mmap4Sem | .mmap5 | .mmap6 => Sem.numSlots
  | .mmap4Cv => Cv.numSlots
  | .mmap7 => Covering.numSlots

instance (ring : Ring) : NeZero ring.numSlots :=
  ⟨by cases ring <;> decide⟩

/-- `next_write_slot_` and `next_read_slot_`. -/
structure State where
  nextWriteSlot : BitVec 32
  nextReadSlot : BitVec 32

-- ====================================================================== slots

/-- A call, by its operation. -/
inductive Op
  | write
  | read
  deriving DecidableEq, Repr

/-- The counter a call increments. -/
def State.counter (s : State) : Op → BitVec 32
  | .write => s.nextWriteSlot
  | .read => s.nextReadSlot

/-- `fetch_add(1)` on it. -/
def State.fetchAdd (s : State) : Op → State
  | .write => { s with nextWriteSlot := s.nextWriteSlot + 1 }
  | .read => { s with nextReadSlot := s.nextReadSlot + 1 }

/-- `old % NUM_SLOTS`, for the value `fetch_add` returns. -/
def Ring.slotOf (ring : Ring) (old : BitVec 32) : Int :=
  old.toInt.tmod ring.numSlots

/-- The calls of all threads, each at its `fetch_add`, since both counters
were stored to 0. -/
def fetches : System State Op where
  init := { nextWriteSlot := 0, nextReadSlot := 0 }
  step s op := some (s.fetchAdd op)

/-- The slot a call takes, when it is one of the operation asked for. -/
def takes (ring : Ring) (op : Op) (s : State) (call : Op) : List Int :=
  if call = op then [ring.slotOf (s.counter op)] else []

/-- The slots the calls of one operation take in a sequence of calls. -/
def slots (ring : Ring) (op : Op) (calls : List Op) : List Int :=
  fetches.trace (takes ring op) fetches.init calls

-- ================================================================== predicates

/-- The difference of two `int`s (none: it overflows). -/
def subInt (x y : BitVec 32) : Option Int :=
  if -2 ^ 31 ≤ x.toInt - y.toInt ∧ x.toInt - y.toInt < 2 ^ 31 then
    some (x.toInt - y.toInt)
  else none

/-- The writer's predicate of mmap4_cv. -/
def State.canWrite (s : State) : Option Bool :=
  (subInt s.nextWriteSlot s.nextReadSlot).map fun d : Int =>
    decide (d < Cv.numSlots)

/-- The reader's predicate of mmap4_cv. -/
def State.canRead (s : State) : Bool :=
  decide (s.nextReadSlot.toInt < s.nextWriteSlot.toInt)

-- ============================================================ true call counts

/-- The counters after so many calls of each operation. -/
def State.after (count : Op → Nat) : State where
  nextWriteSlot := BitVec.ofNat 32 (count .write)
  nextReadSlot := BitVec.ofNat 32 (count .read)

theorem after_counter (count : Op → Nat) (op : Op) :
    (State.after count).counter op = BitVec.ofNat 32 (count op) := by
  cases op <;> rfl

/-- A call counts. -/
theorem after_fetchAdd (count : Op → Nat) (op : Op) :
    (State.after count).fetchAdd op
      = .after (Function.update count op (count op + 1)) := by
  cases op with
  | write =>
      show State.mk (BitVec.ofNat 32 (count .write) + 1) _ = _
      rw [Wrap.ofNat_add_one]
      rfl
  | read =>
      show State.mk _ (BitVec.ofNat 32 (count .read) + 1) = _
      rw [Wrap.ofNat_add_one]
      rfl

end DailyStudy.Counters
