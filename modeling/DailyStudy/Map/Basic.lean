/-
The keys of UnorderedMap1.cpp and the two containers its main fills with
them: a `std::map` over `operator<`, and a `std::unordered_map` over
`KeyHash` and `operator==`.

`strncmp` looks at `a` up to its first NUL; `std::string(k.a,
sizeof(k.a))`, which `KeyHash` hashes, is all ten bytes of it.
-/
import DailyStudy.Lib.Assoc
import DailyStudy.Lib.CString

namespace DailyStudy.Map

open CString

/-- `sizeof(a)`. -/
def sizeofA : Nat := 10

/-- `Key`: an array of `char`, and a `std::string`. -/
structure Key where
  a : Vector UInt8 sizeofA
  b : List UInt8

/-- `std::strncmp(a, other.a, sizeof(a))`. -/
def Key.cmp (k other : Key) : Int :=
  strncmp k.a.toList other.a.toList sizeofA

/-- `Key::operator==`. -/
instance : BEq Key where
  beq k other := k.cmp other == 0 && k.b == other.b

/-- `Key::operator<`. -/
def Key.less (k other : Key) : Bool :=
  let cmp := k.cmp other
  if cmp ≠ 0 then cmp < 0 else k.b < other.b

instance : LT Key where
  lt k other := k.less other

instance : DecidableLT Key := fun k other =>
  inferInstanceAs (Decidable (k.less other = true))

/-- `KeyHash::operator()`, over `std::hash<std::string>`. -/
def keyHash (hash : List UInt8 → UInt64) (k : Key) : UInt64 :=
  let h1 := hash k.a.toList
  let h2 := hash k.b
  h1 ^^^ (h2 <<< 1)

-- ============================================================== the containers

/-- The entry `std::map` finds for a key: neither is before the other. -/
def mapSame (k e : Key) : Prop := ¬ k < e ∧ ¬ e < k

instance : DecidableRel mapSame := fun _ _ =>
  inferInstanceAs (Decidable (_ ∧ _))

/-- The entry `std::unordered_map` finds for a key: it is in the key's
bucket and equal. -/
def unorderedSame (hash : List UInt8 → UInt64) (k e : Key) : Prop :=
  keyHash hash k = keyHash hash e ∧ k == e

instance (hash : List UInt8 → UInt64) : DecidableRel (unorderedSame hash) :=
  fun _ _ => inferInstanceAs (Decidable (_ ∧ _))

/-- The two containers cannot be told apart after the assignments. -/
def Agree (hash : List UInt8 → UInt64)
    (assignments : List (Key × List UInt8)) : Prop :=
  Assoc.Agree (unorderedSame hash) mapSame assignments

end DailyStudy.Map
