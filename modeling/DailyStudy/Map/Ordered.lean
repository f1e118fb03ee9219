/-
The calls on a `std::map` that the programs of the Map directory make:
MapUse1.cpp (`operator[]`, `at`), MapUse2.cpp (the three forms of `erase`,
and the loop that prints), MapUse4.cpp (the loop that prints and changes
the values), MapUse5.cpp (`std::find_if`) and UnorderedMap1.cpp
(`map_example`, over `Key::operator<`). MapUse3.cpp is the one program
over a `std::multimap`.

A `std::map` keeps its entries in the order of its comparison; whatever
tree is behind it, an iteration sees `OrderedMap.entries`. `dflt` is the
value `operator[]` gives a new entry. Erasing at `end()` is undefined.
-/
import DailyStudy.Lib.Stable
import DailyStudy.Map.Proofs.Order

namespace DailyStudy.Map

open Ordered

-- =================================================================== the calls

variable {κ ν ρ : Type} [LinearOrder ρ]

/-- A call: `m[k] = v`, the value of `m[k]`, `m.at(k)`, `m.find(k)`,
`std::find_if` over the whole map, `m.erase(k)`, `m.erase(m.find(k))`,
`m.erase(m.find(k), m.end())`, and a loop that prints every entry and
changes its value. -/
inductive Op (κ ν : Type)
  | assign (k : κ) (v : ν)
  | index (k : κ)
  | atKey (k : κ)
  | find (k : κ)
  | findIf (p : κ × ν → Bool)
  | erase (k : κ)
  | eraseIt (k : κ)
  | eraseFrom (k : κ)
  | forEach (f : κ → ν → ν)

/-- What a call yields: nothing, a value (none: `at` throws
`std::out_of_range`), an iterator (none: `end()`), or the entries that
were printed. -/
inductive Seen (κ ν : Type)
  | nothing
  | value (v : Option ν)
  | entry (e : Option (κ × ν))
  | entries (l : List (κ × ν))

variable {c : Comparator κ ρ}

/-- One call, undefined where the program's behaviour is. -/
def exec (dflt : ν) (m : OrderedMap c ν) :
    Op κ ν → Option (Seen κ ν × OrderedMap c ν)
  | .assign k v => some (.nothing, m.assign k v)
  | .index k =>
      match m.find k with
      | some e => some (.value (some e.2), m)
      | none => some (.value (some dflt), m.assign k dflt)
  | .atKey k => some (.value ((m.find k).map Prod.snd), m)
  | .find k => some (.entry (m.find k), m)
  | .findIf p => some (.entry (m.entries.find? p), m)
  | .erase k => some (.nothing, m.erase k)
  | .eraseIt k =>
      match m.find k with
      | some _ => some (.nothing, m.erase k)
      | none => none
  | .eraseFrom k => some (.nothing, m.eraseFrom k)
  | .forEach f => some (.entries m.entries, m.mapValues f)

/-- A sequence of calls: what they yield, up to one that is undefined, and
the map after them if none is. -/
def execAll (dflt : ν) (m : OrderedMap c ν) :
    List (Op κ ν) → List (Seen κ ν) × Option (OrderedMap c ν)
  | [] => ([], some m)
  | op :: rest =>
      match exec dflt m op with
      | none => ([], none)
      | some (seen, m') =>
          let (log, last) := execAll dflt m' rest
          (seen :: log, last)

/-- `std::map<Key, V>`. -/
def keyComparator : Comparator Key (List UInt8 ×ₗ List UInt8) where
  less := Key.less
  rank := Key.rank
  less_iff _ _ := lt_iff_rank

/-- The `map_example` of UnorderedMap1.cpp after its assignments. -/
def mapExample (assignments : List (Key × List UInt8)) :
    OrderedMap keyComparator (List UInt8) :=
  .build keyComparator assignments

-- =============================================================== the multimap

/-- What MapUse3.cpp prints: the entries of its loop, the value of its
second search if that finds one, and whether it prints `not found` after
the third. -/
structure Printed (κ ν : Type) where
  listing : List (κ × ν)
  value : Option ν
  notFound : Bool
deriving DecidableEq

/-- `main` of MapUse3.cpp, by the place that `mp.find` returns: its
insertions, then the three searches. -/
def multimapMain (find : OrderedMultimap c ν → κ → List (κ × ν))
    (inserts : List (κ × ν)) (k₁ k₂ k₃ : κ) : Printed κ ν :=
  let mp := OrderedMultimap.build c inserts
  { listing := find mp k₁
    value := (find mp k₂).head?.map Prod.snd
    notFound := (find mp k₃).isEmpty }

end DailyStudy.Map
