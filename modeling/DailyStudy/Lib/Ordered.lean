/-
Ordered containers: entries of a key and a value in increasing order of
the keys, over a comparison that need not be total on them.

# The comparison

A strict weak order is one that compares the ranks of its keys, which are
totally ordered; keys of one rank are one key to the container
(`Comparator`).

# The container

`OrderedMap` carries the order of its entries as a field, so what is built
from it is ordered. Every operation looks at the entries as those before a
key, the one at it and those after it (`split_spec`), and to the rest of
the world the container is the partial function on ranks it stores
(`get`): each operation is one on that function, and `entries` is its
graph in the order of the ranks (`mem_graph`).
-/
import DailyStudy.Lib.Assoc
import Mathlib.Data.List.Basic
import Mathlib.Logic.Function.Basic
import Mathlib.Order.Basic

namespace Ordered

variable {κ ν ρ : Type*} [LinearOrder ρ]

-- ============================================================ the comparison

/-- A comparison of keys, and the ranks it compares. -/
structure Comparator (κ ρ : Type*) [LinearOrder ρ] where
  less : κ → κ → Bool
  rank : κ → ρ
  less_iff : ∀ x y, less x y = true ↔ rank x < rank y

/-- A total order compares the keys themselves. -/
def Comparator.ofLinearOrder (ρ : Type*) [LinearOrder ρ] :
    Comparator ρ ρ where
  less x y := x < y
  rank := id
  less_iff _ _ := decide_eq_true_iff

/-- Entries in increasing order of their keys. -/
def Increasing (c : Comparator κ ρ) (l : List (κ × ν)) : Prop :=
  l.Pairwise fun e e' => c.rank e.1 < c.rank e'.1

/-- The container. -/
structure OrderedMap (c : Comparator κ ρ) (ν : Type*) where
  entries : List (κ × ν)
  increasing : Increasing c entries

-- ============================================================== the split

section Split

variable (c : Comparator κ ρ) (k : κ)

/-- The entries before a key, the one at it, and those after it. -/
structure Split (κ ν : Type*) where
  before : List (κ × ν)
  at? : Option (κ × ν)
  after : List (κ × ν)

/-- Where a key is in the entries: past those that are less than it, and
at the next unless that is greater. -/
def split : List (κ × ν) → Split κ ν
  | [] => ⟨[], none, []⟩
  | e :: rest =>
      if c.less e.1 k then
        let p := split rest
        { p with before := e :: p.before }
      else if c.less k e.1 then ⟨[], none, e :: rest⟩
      else ⟨[], some e, rest⟩

/-- What a split says of the ranks. -/
structure SplitSpec (l : List (κ × ν)) (p : Split κ ν) : Prop where
  entries : l = p.before ++ p.at?.toList ++ p.after
  before : ∀ e ∈ p.before, c.rank e.1 < c.rank k
  at? : ∀ e ∈ p.at?, c.rank e.1 = c.rank k
  after : ∀ e ∈ p.after, c.rank k < c.rank e.1

variable {c k}

theorem split_spec {l : List (κ × ν)} (h : Increasing c l) :
    SplitSpec c k l (split c k l) := by
  induction l with
  | nil => exact ⟨rfl, by simp [split], by simp [split], by simp [split]⟩
  | cons e rest ih =>
      obtain ⟨hhead, htail⟩ := List.pairwise_cons.mp h
      unfold split
      by_cases hless : c.less e.1 k = true
      · rw [if_pos hless]
        obtain ⟨hentries, hbefore, hat, hafter⟩ := ih htail
        refine ⟨congrArg (e :: ·) hentries, ?_, hat, hafter⟩
        intro e' he'
        rcases List.mem_cons.mp he' with rfl | he'
        · exact (c.less_iff _ _).mp hless
        · exact hbefore e' he'
      · rw [if_neg hless]
        rw [c.less_iff, not_lt] at hless
        by_cases hgreater : c.less k e.1 = true
        · rw [if_pos hgreater]
          rw [c.less_iff] at hgreater
          refine ⟨rfl, by simp, by simp, ?_⟩
          intro e' he'
          rcases List.mem_cons.mp he' with rfl | he'
          · exact hgreater
          · exact lt_trans hgreater (hhead e' he')
        · rw [if_neg hgreater]
          rw [c.less_iff, not_lt] at hgreater
          have hsame := le_antisymm hgreater hless
          refine ⟨rfl, by simp, ?_, fun e' he' => hsame ▸ hhead e' he'⟩
          intro e' he'
          cases he'
          exact hsame

end Split

-- ================================================================= the lookup

section Lookup

variable {c : Comparator κ ρ}

/-- The entry at a rank. -/
def lookup (c : Comparator κ ρ) (l : List (κ × ν)) (r : ρ) :
    Option (κ × ν) :=
  l.find? fun e => c.rank e.1 = r

theorem lookup_append (l l' : List (κ × ν)) (r : ρ) :
    lookup c (l ++ l') r = (lookup c l r).or (lookup c l' r) :=
  List.find?_append

/-- No entry is at a rank that none has. -/
theorem lookup_eq_none {l : List (κ × ν)} {r : ρ} :
    lookup c l r = none ↔ ∀ e ∈ l, c.rank e.1 ≠ r := by
  unfold lookup
  rw [List.find?_eq_none]
  simp

/-- The entry at a rank is one of the entries, and has the rank. -/
theorem lookup_spec {l : List (κ × ν)} {r : ρ} {e : κ × ν}
    (h : lookup c l r = some e) : e ∈ l ∧ c.rank e.1 = r :=
  ⟨List.mem_of_find?_eq_some h, by simpa using List.find?_some h⟩

theorem lookup_cons (e : κ × ν) (l : List (κ × ν)) :
    lookup c (e :: l)
      = Function.update (lookup c l) (c.rank e.1) (some e) := by
  funext r
  unfold lookup
  by_cases hr : r = c.rank e.1
  · rw [hr, Function.update_self]
    exact List.find?_cons_of_pos (by simp)
  · rw [Function.update_of_ne hr]
    exact List.find?_cons_of_neg (by simpa using Ne.symm hr)

/-- No two entries have one rank. -/
def Distinct (c : Comparator κ ρ) (l : List (κ × ν)) : Prop :=
  l.Pairwise fun e e' => c.rank e.1 ≠ c.rank e'.1

theorem distinct_iff_keys {l : List (κ × ν)} :
    Distinct c l
      ↔ (l.map Prod.fst).Pairwise fun x y => c.rank x ≠ c.rank y := by
  unfold Distinct
  rw [List.pairwise_map]

theorem Increasing.distinct {l : List (κ × ν)} (h : Increasing c l) :
    Distinct c l :=
  h.imp fun hlt => hlt.ne

theorem Distinct.nodup {l : List (κ × ν)} (h : Distinct c l) : l.Nodup :=
  h.imp fun hne heq => hne (congrArg (fun e => c.rank e.1) heq)

/-- The entries are those that the lookup finds. -/
theorem lookup_eq_some {l : List (κ × ν)} (h : Distinct c l)
    {e : κ × ν} : lookup c l (c.rank e.1) = some e ↔ e ∈ l := by
  refine ⟨fun he => (lookup_spec he).1, fun he => ?_⟩
  induction l with
  | nil => cases he
  | cons e' rest ih =>
      obtain ⟨hhead, htail⟩ := List.pairwise_cons.mp h
      rw [lookup_cons]
      rcases List.mem_cons.mp he with rfl | he
      · exact Function.update_self ..
      · rw [Function.update_of_ne (hhead e he).symm]
        exact ih htail he

/-- What is stored says what the entries are, up to their order. -/
theorem Distinct.perm {l l' : List (κ × ν)} (h : Distinct c l)
    (h' : Distinct c l') (heq : lookup c l = lookup c l') : l.Perm l' := by
  refine (List.perm_ext_iff_of_nodup h.nodup h'.nodup).mpr fun e => ?_
  rw [← lookup_eq_some h, ← lookup_eq_some h', heq]

end Lookup

-- ========================================================== changing one entry

section Change

variable {c : Comparator κ ρ} {k : κ} {l : List (κ × ν)} {p : Split κ ν}

/-- The entry at a key's rank is the one the split finds. -/
theorem SplitSpec.lookup_self (h : SplitSpec c k l p) :
    lookup c l (c.rank k) = p.at? := by
  have hbefore : lookup c p.before (c.rank k) = none :=
    lookup_eq_none.mpr fun e he => (h.before e he).ne
  have hafter : lookup c p.after (c.rank k) = none :=
    lookup_eq_none.mpr fun e he => (h.after e he).ne'
  rw [h.entries, lookup_append, lookup_append, hbefore, hafter,
    Option.none_or, Option.or_none]
  cases hat : p.at? with
  | none => rfl
  | some e =>
      exact List.find?_cons_of_pos (by simpa using h.at? e hat)

/-- Another entry at the key leaves the order as it is, -/
theorem SplitSpec.increasing (h : SplitSpec c k l p) (hl : Increasing c l)
    {new : Option (κ × ν)} (hnew : ∀ e ∈ new, c.rank e.1 = c.rank k) :
    Increasing c (p.before ++ new.toList ++ p.after) := by
  unfold Increasing at hl ⊢
  rw [h.entries, List.pairwise_append, List.pairwise_append] at hl
  rw [List.pairwise_append, List.pairwise_append]
  obtain ⟨⟨hb, -, -⟩, ha, hcross⟩ := hl
  refine ⟨⟨hb, ?_, ?_⟩, ha, ?_⟩
  · cases new with
    | none => exact .nil
    | some e => exact List.pairwise_singleton _ _
  · intro e he e' he'
    rw [hnew e' (Option.mem_toList.mp he')]
    exact h.before e he
  · intro e he e' he'
    rcases List.mem_append.mp he with he | he
    · exact hcross e (List.mem_append_left _ he) e' he'
    · rw [hnew e (Option.mem_toList.mp he)]
      exact h.after e' he'

/-- and the entries at the other ranks. -/
theorem SplitSpec.lookup (h : SplitSpec c k l p) {new : Option (κ × ν)}
    (hnew : ∀ e ∈ new, c.rank e.1 = c.rank k) :
    lookup c (p.before ++ new.toList ++ p.after)
      = Function.update (lookup c l) (c.rank k) new := by
  funext r
  by_cases hr : r = c.rank k
  · subst hr
    rw [Function.update_self]
    exact SplitSpec.lookup_self
      (p := { before := p.before, at? := new, after := p.after })
      ⟨rfl, h.before, hnew, h.after⟩
  · have hnone : ∀ m : Option (κ × ν), (∀ e ∈ m, c.rank e.1 = c.rank k) →
        Ordered.lookup c m.toList r = none := by
      intro m hm
      refine lookup_eq_none.mpr fun e he => ?_
      rw [hm e (Option.mem_toList.mp he)]
      exact Ne.symm hr
    rw [Function.update_of_ne hr, h.entries, lookup_append, lookup_append,
      lookup_append, lookup_append, hnone new hnew, hnone p.at? h.at?]

end Change

-- ============================================================== the operations

/-- An assignment on the function that is stored: an entry that is there
keeps its key. -/
def put (c : Comparator κ ρ) (f : ρ → Option (κ × ν)) (k : κ) (v : ν) :
    ρ → Option (κ × ν) :=
  Function.update f (c.rank k) (some ((f (c.rank k)).elim k Prod.fst, v))

namespace OrderedMap

variable {c : Comparator κ ρ}

/-- The container without entries. -/
def empty : OrderedMap c ν := ⟨[], .nil⟩

/-- The entry at a key. -/
def find (m : OrderedMap c ν) (k : κ) : Option (κ × ν) :=
  (split c k m.entries).at?

/-- What the container stores, as a function of the rank. -/
def get (m : OrderedMap c ν) : ρ → Option (κ × ν) := lookup c m.entries

/-- Another entry at a key, or none. -/
def replace (m : OrderedMap c ν) (k : κ) (new : Option (κ × ν))
    (hnew : ∀ e ∈ new, c.rank e.1 = c.rank k) : OrderedMap c ν where
  entries := (split c k m.entries).before ++ new.toList
    ++ (split c k m.entries).after
  increasing := (split_spec m.increasing).increasing m.increasing hnew

theorem find_eq_get (m : OrderedMap c ν) (k : κ) :
    m.find k = m.get (c.rank k) :=
  (split_spec m.increasing).lookup_self.symm

/-- The entry found has the key's rank. -/
theorem rank_of_find {m : OrderedMap c ν} {k : κ} :
    ∀ e ∈ m.find k, c.rank e.1 = c.rank k :=
  (split_spec m.increasing).at?

@[simp] theorem get_empty : (empty : OrderedMap c ν).get = fun _ => none :=
  rfl

@[simp] theorem get_replace (m : OrderedMap c ν) (k : κ)
    (new : Option (κ × ν)) (hnew : ∀ e ∈ new, c.rank e.1 = c.rank k) :
    (m.replace k new hnew).get = Function.update m.get (c.rank k) new :=
  (split_spec m.increasing).lookup hnew

/-- The value at a key is assigned; an entry there keeps its key. -/
def assign (m : OrderedMap c ν) (k : κ) (v : ν) : OrderedMap c ν :=
  m.replace k (some ((m.find k).elim k Prod.fst, v)) fun e he => by
    cases he
    cases hfound : m.find k with
    | none => rfl
    | some e => exact rank_of_find e hfound

/-- No entry is at the key any more. -/
def erase (m : OrderedMap c ν) (k : κ) : OrderedMap c ν :=
  m.replace k none (fun _ he => by cases he)

/-- The entries from the one at a key on are gone, if there is one. -/
def eraseFrom (m : OrderedMap c ν) (k : κ) : OrderedMap c ν :=
  match m.find k with
  | none => m
  | some _ =>
      { entries := (split c k m.entries).before
        increasing := by
          have h : Increasing c ((split c k m.entries).before
              ++ (none : Option (κ × ν)).toList
              ++ (split c k m.entries).after) :=
            (split_spec m.increasing).increasing m.increasing
              (fun _ he => by cases he)
          unfold Increasing at h
          rw [List.pairwise_append, List.pairwise_append] at h
          exact h.1.1 }

/-- Every value is changed, each by its key. -/
def mapValues (m : OrderedMap c ν) (f : κ → ν → ν) : OrderedMap c ν where
  entries := m.entries.map fun e => (e.1, f e.1 e.2)
  increasing := by
    unfold Increasing
    rw [List.pairwise_map]
    exact m.increasing

/-- A sequence of assignments, from the empty container on. -/
def build (c : Comparator κ ρ) (ops : List (κ × ν)) : OrderedMap c ν :=
  ops.foldl (fun m op => m.assign op.1 op.2) empty

theorem build_concat (ops : List (κ × ν)) (op : κ × ν) :
    build c (ops ++ [op]) = (build c ops).assign op.1 op.2 := by
  unfold build
  rw [List.foldl_append]
  rfl

theorem get_assign (m : OrderedMap c ν) (k : κ) (v : ν) :
    (m.assign k v).get = put c m.get k v := by
  unfold assign put
  rw [get_replace, find_eq_get]

theorem get_erase (m : OrderedMap c ν) (k : κ) :
    (m.erase k).get = Function.update m.get (c.rank k) none :=
  get_replace ..

theorem get_eraseFrom (m : OrderedMap c ν) (k : κ) :
    (m.eraseFrom k).get = if (m.get (c.rank k)).isSome
      then fun r => if c.rank k ≤ r then none else m.get r
      else m.get := by
  have hspec := split_spec (k := k) m.increasing
  rw [← find_eq_get]
  unfold eraseFrom
  split
  next hnone => simp [hnone]
  next e hfound =>
    rw [hfound]
    funext r
    show lookup c (split c k m.entries).before r
      = if c.rank k ≤ r then none else m.get r
    have hget : m.get r = (lookup c (split c k m.entries).before r).or
        (lookup c ((split c k m.entries).at?.toList
          ++ (split c k m.entries).after) r) := by
      unfold get
      rw [← lookup_append, ← List.append_assoc, ← hspec.entries]
    by_cases hr : c.rank k ≤ r
    · rw [if_pos hr]
      exact lookup_eq_none.mpr fun e he heq =>
        absurd (hspec.before e he) (not_lt.mpr (heq ▸ hr))
    · rw [if_neg hr, hget]
      have hrest : lookup c ((split c k m.entries).at?.toList
          ++ (split c k m.entries).after) r = none := by
        refine lookup_eq_none.mpr fun e he heq => hr ?_
        rcases List.mem_append.mp he with he | he
        · exact ((hspec.at? e (Option.mem_toList.mp he)).symm.trans heq).le
        · exact heq ▸ (hspec.after e he).le
      rw [hrest, Option.or_none]

theorem get_mapValues (m : OrderedMap c ν) (f : κ → ν → ν) (r : ρ) :
    (m.mapValues f).get r = (m.get r).map fun e => (e.1, f e.1 e.2) := by
  show lookup c (m.entries.map _) r = (lookup c m.entries r).map _
  unfold lookup
  rw [List.find?_map]
  rfl

/-- The entries in increasing order of their keys. -/
structure Listing (c : Comparator κ ρ) (f : ρ → Option (κ × ν))
    (l : List (κ × ν)) : Prop where
  increasing : Increasing c l
  mem : ∀ r e, e ∈ l ∧ c.rank e.1 = r ↔ f r = some e

theorem listing (m : OrderedMap c ν) : Listing c m.get m.entries where
  increasing := m.increasing
  mem r e := by
    constructor
    · rintro ⟨he, rfl⟩
      exact (lookup_eq_some m.increasing.distinct).mpr he
    · exact lookup_spec

/-- There is one order to list them in. -/
theorem Listing.unique {f : ρ → Option (κ × ν)} {l l' : List (κ × ν)}
    (h : Listing c f l) (h' : Listing c f l') : l = l' := by
  have hmem : ∀ e, e ∈ l ↔ e ∈ l' := by
    intro e
    have hl := h.mem (c.rank e.1) e
    have hl' := h'.mem (c.rank e.1) e
    rw [and_iff_left rfl] at hl hl'
    rw [hl, hl']
  have hperm := (List.perm_ext_iff_of_nodup h.increasing.distinct.nodup
    h'.increasing.distinct.nodup).mpr hmem
  exact hperm.eq_of_pairwise (fun e e' _ _ hlt hlt' =>
    absurd hlt' (lt_asymm hlt)) h.increasing h'.increasing

end OrderedMap

-- =================================================== the container in no order

section Assoc

variable {c : Comparator κ ρ} {same : κ → κ → Prop} [DecidableRel same]
variable (hsame : ∀ x y, same x y ↔ c.rank x = c.rank y)

include hsame

/-- An assignment to it is the one on the function. -/
theorem lookup_assign (k : κ) (v : ν) (l : List (κ × ν)) :
    lookup c (Assoc.assign same k v l) = put c (lookup c l) k v := by
  induction l with
  | nil => exact lookup_cons (k, v) []
  | cons e rest ih =>
      unfold Assoc.assign
      by_cases he : same k e.1
      · rw [if_pos he, lookup_cons, lookup_cons, put, (hsame k e.1).mp he,
          Function.update_self, Function.update_idem]
        rfl
      · have hrank : c.rank k ≠ c.rank e.1 := fun h => he ((hsame _ _).mpr h)
        rw [if_neg he, lookup_cons, lookup_cons, ih, put, put,
          Function.update_of_ne hrank, Function.update_comm hrank]

theorem distinct_assign {k : κ} {v : ν} {l : List (κ × ν)}
    (h : Distinct c l) : Distinct c (Assoc.assign same k v l) := by
  rw [distinct_iff_keys, Assoc.keys_assign]
  rw [distinct_iff_keys] at h
  split
  next => exact h
  next hnone =>
    refine List.pairwise_append.mpr ⟨h, List.pairwise_singleton _ _, ?_⟩
    intro x hx y hy hrank
    obtain ⟨e, he, rfl⟩ := List.mem_map.mp hx
    rw [List.mem_singleton.mp hy] at hrank
    exact hnone ⟨e, he, (hsame k e.1).mpr hrank.symm⟩

/-- The same assignments store the same in both. -/
theorem get_build (ops : List (κ × ν)) :
    Distinct c (Assoc.build same ops)
      ∧ (OrderedMap.build c ops).get = lookup c (Assoc.build same ops) := by
  induction ops using List.reverseRecOn with
  | nil => exact ⟨.nil, rfl⟩
  | append_singleton ops op ih =>
      obtain ⟨hdistinct, hget⟩ := ih
      rw [Assoc.build_concat, OrderedMap.build_concat, OrderedMap.get_assign,
        lookup_assign hsame, hget]
      exact ⟨distinct_assign hsame hdistinct, rfl⟩

/-- So they have the same entries. -/
theorem perm_build (ops : List (κ × ν)) :
    (OrderedMap.build c ops).entries.Perm (Assoc.build same ops) := by
  obtain ⟨hdistinct, hget⟩ := get_build (c := c) hsame ops
  exact (OrderedMap.build c ops).increasing.distinct.perm hdistinct hget

end Assoc

end Ordered
