/-
Numbers as text: digits in a base, and a stream that formats what is
written to it.

# Digits

`readDigits` reads a number back from its digits, however many zeros stand
before them (`readDigits_digits`, `readDigits_zeros`), so a field of fixed
width is read back (`readDigits_field`).

# The stream

A stream keeps a base, a fill and a width from one write to the next; the
width is for one write only.
-/
import Mathlib.Data.Nat.Digits.Defs

namespace Text

-- ================================================================== the digits

/-- What a digit stands for. -/
def valueOf (ch : Char) : Option Nat :=
  if '0' ≤ ch ∧ ch ≤ '9' then some (ch.toNat - '0'.toNat)
  else if 'a' ≤ ch ∧ ch ≤ 'f' then some (ch.toNat - 'a'.toNat + 10)
  else none

/-- A digit after a number that was read. -/
def readDigit (b n : Nat) (ch : Char) : Option Nat := do
  let d ← valueOf ch
  if d < b then some (b * n + d) else none

/-- The number that digits in a base stand for, after one already read. -/
def readAfter (b n : Nat) (l : List Char) : Option Nat :=
  l.foldlM (readDigit b) n

/-- The number that digits in a base stand for. -/
def readDigits (b : Nat) (l : List Char) : Option Nat := readAfter b 0 l

theorem readAfter_append (b n : Nat) (l l' : List Char) :
    readAfter b n (l ++ l')
      = (readAfter b n l).bind fun n' => readAfter b n' l' :=
  List.foldlM_append

/-- The digits of the bases up to sixteen. -/
theorem valueOf_digitChar {d : Nat} (hd : d < 16) :
    valueOf d.digitChar = some d := by
  have hall : ∀ d : Fin 16, valueOf d.val.digitChar = some d.val := by
    decide
  exact hall ⟨d, hd⟩

section Base

variable {b : Nat} (hb : 1 < b) (hb' : b ≤ 16)

include hb'

theorem readAfter_digit {d : Nat} (n : Nat) (hd : d < b) :
    readAfter b n [d.digitChar] = some (b * n + d) := by
  have hvalue := valueOf_digitChar (hd.trans_le hb')
  simp [readAfter, readDigit, hvalue, hd]

include hb

/-- A number is read back from its digits, -/
theorem readDigits_digits (n : Nat) :
    readDigits b (b.toDigits n) = some n := by
  induction n using Nat.strong_induction_on with
  | h n ih =>
      unfold readDigits at ih ⊢
      by_cases hlt : n < b
      · rw [Nat.toDigits_of_lt_base hlt, readAfter_digit hb' 0 hlt, mul_zero,
          zero_add]
      · have hdiv := ih (n / b) (Nat.div_lt_self (by omega) hb)
        have hmod := Nat.mod_lt n (by omega : b > 0)
        rw [Nat.toDigits_of_base_le hb (by omega), readAfter_append, hdiv,
          Option.bind_some, readAfter_digit hb' (n / b) hmod,
          Nat.div_add_mod]

omit hb'

/-- zeros before them change nothing, -/
theorem readDigits_zeros (k : Nat) (l : List Char) :
    readDigits b (List.replicate k '0' ++ l) = readDigits b l := by
  induction k with
  | zero => rfl
  | succ k ih =>
      have hzero : readDigit b 0 '0' = some 0 := by
        simp [readDigit, valueOf, show 0 < b by omega]
      rw [← ih]
      unfold readDigits readAfter
      rw [List.replicate_succ, List.cons_append, List.foldlM_cons, hzero]
      rfl

-- ================================================================== the fields

/-- Text filled up to a width from the left. -/
def pad (fill : Char) (width : Nat) (s : List Char) : List Char :=
  List.replicate (width - s.length) fill ++ s

include hb'

/-- and so is one from a field it was filled up to. -/
theorem readDigits_field (width n : Nat) :
    readDigits b (pad '0' width (b.toDigits n)) = some n := by
  unfold pad
  rw [readDigits_zeros hb, readDigits_digits hb hb']

omit hb'

/-- The width of a field is that of the numbers that fit. -/
theorem length_field {fill : Char} {width n : Nat} (hw : 0 < width)
    (hn : n < b ^ width) :
    (pad fill width (b.toDigits n)).length = width := by
  have hlength := (Nat.length_toDigits_le_iff hb hw).mpr hn
  unfold pad
  rw [List.length_append, List.length_replicate]
  omega

end Base

-- ================================================================== the stream

/-- An output stream: how it formats, and what was written to it. -/
structure Stream where
  base : Nat
  width : Nat
  fill : Char
  text : List Char

namespace Stream

/-- A stream to which nothing was written. -/
def initial : Stream := { base := 10, width := 0, fill := ' ', text := [] }

/-- Text, in a field of the width. -/
def putText (s : Stream) (t : List Char) : Stream :=
  { s with text := s.text ++ pad s.fill s.width t, width := 0 }

/-- A number in the base, in a field of the width. -/
def putNat (s : Stream) (n : Nat) : Stream :=
  s.putText (s.base.toDigits n)

/-- `std::hex`. -/
def hex (s : Stream) : Stream := { s with base := 16 }

/-- `std::setw`. -/
def setw (s : Stream) (width : Nat) : Stream := { s with width := width }

/-- `std::setfill`. -/
def setfill (s : Stream) (fill : Char) : Stream := { s with fill := fill }

/-- `std::endl`, which is not in a field. -/
def endl (s : Stream) : Stream := { s with text := s.text ++ ['\n'] }

end Stream

end Text
