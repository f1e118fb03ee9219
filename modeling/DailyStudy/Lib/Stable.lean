/-
Ordered containers that keep equal keys apart: entries in the order of
their keys' ranks, any number of them at each rank.

# Insertion

A new entry goes before the first that is greater, so behind those of its
own rank (`placeEntry`): at each rank the entries stand in the order they
were inserted in (`atRank_build`).

# Places

An iterator is the entries from its place on. A search may return any
place at which an entry of the rank is (`Found`); whichever it returns,
what lies behind it is known up to how many of that rank it passes over
(`Found.atRank_self`).
-/
import DailyStudy.Lib.Ordered

namespace Ordered

variable {κ ν ρ : Type*} [LinearOrder ρ] {c : Comparator κ ρ}

-- ================================================================= the entries

/-- Entries in the order of their keys, equal ones in any. -/
def NonDecreasing (c : Comparator κ ρ) (l : List (κ × ν)) : Prop :=
  l.Pairwise fun e e' => c.rank e.1 ≤ c.rank e'.1

/-- The entries of a rank. -/
def atRank (c : Comparator κ ρ) (l : List (κ × ν)) (r : ρ) :
    List (κ × ν) :=
  l.filter fun e => c.rank e.1 = r

theorem atRank_append (l l' : List (κ × ν)) (r : ρ) :
    atRank c (l ++ l') r = atRank c l r ++ atRank c l' r :=
  List.filter_append l l'

theorem atRank_eq_nil {l : List (κ × ν)} {r : ρ} :
    atRank c l r = [] ↔ ∀ e ∈ l, c.rank e.1 ≠ r := by
  unfold atRank
  rw [List.filter_eq_nil_iff]
  simp

/-- A new entry goes before the first that is greater. -/
def placeEntry (c : Comparator κ ρ) (e : κ × ν) :
    List (κ × ν) → List (κ × ν)
  | [] => [e]
  | e' :: rest =>
      if c.less e.1 e'.1 then e :: e' :: rest
      else e' :: placeEntry c e rest

theorem placeEntry_perm (e : κ × ν) (l : List (κ × ν)) :
    (placeEntry c e l).Perm (e :: l) := by
  induction l with
  | nil => exact List.Perm.refl [e]
  | cons e' rest ih =>
      unfold placeEntry
      by_cases hless : c.less e.1 e'.1 = true
      · rw [if_pos hless]
      · rw [if_neg hless]
        exact (ih.cons e').trans (List.Perm.swap e e' rest)

theorem NonDecreasing.placeEntry {l : List (κ × ν)}
    (h : NonDecreasing c l) (e : κ × ν) :
    NonDecreasing c (placeEntry c e l) := by
  induction l with
  | nil => exact List.pairwise_singleton _ _
  | cons e' rest ih =>
      obtain ⟨hhead, htail⟩ := List.pairwise_cons.mp h
      unfold Ordered.placeEntry
      split
      next hless =>
        have hlt := (c.less_iff _ _).mp hless
        apply List.pairwise_cons.mpr
        refine ⟨?_, h⟩
        intro e'' he''
        rcases List.mem_cons.mp he'' with rfl | hmem
        · exact hlt.le
        · exact hlt.le.trans (hhead e'' hmem)
      next hless =>
        rw [c.less_iff, not_lt] at hless
        apply List.pairwise_cons.mpr
        refine ⟨?_, ih htail⟩
        intro e'' he''
        rcases List.mem_cons.mp ((placeEntry_perm e rest).mem_iff.mp he'')
          with rfl | hmem
        · exact hless
        · exact hhead e'' hmem

/-- The entry comes behind those of its rank, and no other rank sees it. -/
theorem atRank_placeEntry {l : List (κ × ν)} (h : NonDecreasing c l)
    (e : κ × ν) (r : ρ) :
    atRank c (placeEntry c e l) r = atRank c (l ++ [e]) r := by
  induction l with
  | nil => rfl
  | cons e' rest ih =>
      obtain ⟨hhead, htail⟩ := List.pairwise_cons.mp h
      unfold placeEntry
      split
      next hless =>
        have hlt := (c.less_iff _ _).mp hless
        rw [atRank_append]
        by_cases hr : c.rank e.1 = r
        · -- from here on every entry is greater
          have hnone : atRank c (e' :: rest) r = [] := by
            apply atRank_eq_nil.mpr
            intro e'' he''
            rcases List.mem_cons.mp he'' with rfl | hmem
            · exact hr ▸ hlt.ne'
            · exact hr ▸ (hlt.trans_le (hhead e'' hmem)).ne'
          show atRank c ([e] ++ e' :: rest) r = _
          rw [atRank_append, hnone, List.append_nil, List.nil_append]
        · have hnone : atRank c [e] r = [] :=
            atRank_eq_nil.mpr (List.forall_mem_singleton.mpr hr)
          show atRank c ([e] ++ e' :: rest) r = _
          rw [atRank_append, hnone, List.append_nil, List.nil_append]
      next =>
        show atRank c ([e'] ++ placeEntry c e rest) r
          = atRank c ([e'] ++ (rest ++ [e])) r
        rw [atRank_append, ih htail, ← atRank_append]

/-- The first place at which an entry of the key's rank is, or the end. -/
def findEntry (c : Comparator κ ρ) (k : κ) : List (κ × ν) → List (κ × ν)
  | [] => []
  | e :: rest =>
      if c.less e.1 k then findEntry c k rest
      else if c.less k e.1 then [] else e :: rest

/-- Only entries of other ranks are passed over. -/
theorem findEntry_spec {k : κ} {l : List (κ × ν)} (h : NonDecreasing c l) :
    ∃ before, l = before ++ findEntry c k l
      ∧ (∀ e ∈ before, c.rank e.1 ≠ c.rank k)
      ∧ ((∃ e behind, findEntry c k l = e :: behind
            ∧ c.rank e.1 = c.rank k)
          ∨ findEntry c k l = [] ∧ ∀ e ∈ l, c.rank e.1 ≠ c.rank k) := by
  induction l with
  | nil => exact ⟨[], rfl, by simp, .inr ⟨rfl, by simp⟩⟩
  | cons e rest ih =>
      obtain ⟨hhead, htail⟩ := List.pairwise_cons.mp h
      unfold findEntry
      by_cases hless : c.less e.1 k = true
      · rw [if_pos hless]
        have hne := ((c.less_iff _ _).mp hless).ne
        obtain ⟨before, hrest, hbefore, hplace⟩ := ih htail
        refine ⟨e :: before, congrArg (e :: ·) hrest,
          List.forall_mem_cons.mpr ⟨hne, hbefore⟩, ?_⟩
        rcases hplace with hplace | ⟨hend, hnone⟩
        · exact .inl hplace
        · exact .inr ⟨hend, List.forall_mem_cons.mpr ⟨hne, hnone⟩⟩
      · rw [if_neg hless]
        rw [c.less_iff, not_lt] at hless
        by_cases hgreater : c.less k e.1 = true
        · rw [if_pos hgreater]
          have hlt := (c.less_iff _ _).mp hgreater
          have hnone : ∀ e' ∈ e :: rest, c.rank e'.1 ≠ c.rank k :=
            List.forall_mem_cons.mpr ⟨hlt.ne', fun e' he' =>
              (hlt.trans_le (hhead e' he')).ne'⟩
          exact ⟨e :: rest, (List.append_nil _).symm, hnone, .inr ⟨rfl, hnone⟩⟩
        · rw [if_neg hgreater]
          rw [c.less_iff, not_lt] at hgreater
          exact ⟨[], rfl, by simp,
            .inl ⟨e, rest, rfl, le_antisymm hgreater hless⟩⟩

-- =============================================================== the container

/-- The container. -/
structure OrderedMultimap (c : Comparator κ ρ) (ν : Type*) where
  entries : List (κ × ν)
  nonDecreasing : NonDecreasing c entries

namespace OrderedMultimap

/-- The container without entries. -/
def empty : OrderedMultimap c ν := ⟨[], .nil⟩

/-- One more entry. -/
def insert (m : OrderedMultimap c ν) (e : κ × ν) : OrderedMultimap c ν where
  entries := placeEntry c e m.entries
  nonDecreasing := m.nonDecreasing.placeEntry e

/-- A sequence of insertions, from the empty container on. -/
def build (c : Comparator κ ρ) (inserts : List (κ × ν)) :
    OrderedMultimap c ν :=
  inserts.foldl insert empty

theorem build_concat (inserts : List (κ × ν)) (e : κ × ν) :
    build c (inserts ++ [e]) = (build c inserts).insert e := by
  unfold build
  rw [List.foldl_append]
  rfl

/-- At each rank the entries stand in the order of their insertion. -/
theorem atRank_build (inserts : List (κ × ν)) (r : ρ) :
    atRank c (build c inserts).entries r = atRank c inserts r := by
  induction inserts using List.reverseRecOn with
  | nil => rfl
  | append_singleton inserts e ih =>
      rw [build_concat, atRank_append, ← ih, ← atRank_append]
      exact atRank_placeEntry (build c inserts).nonDecreasing e r

/-- Nothing else is in the container, and nothing is lost. -/
theorem build_perm (inserts : List (κ × ν)) :
    (build c inserts).entries.Perm inserts := by
  induction inserts using List.reverseRecOn with
  | nil => exact List.Perm.refl []
  | append_singleton inserts e ih =>
      rw [build_concat]
      have hinsert := placeEntry_perm (c := c) e (build c inserts).entries
      exact hinsert.trans
        ((ih.cons e).trans (List.perm_append_singleton e inserts).symm)

/-- The first place at which an entry of the key's rank is, or the end. -/
def find (m : OrderedMultimap c ν) (k : κ) : List (κ × ν) :=
  findEntry c k m.entries

end OrderedMultimap

-- ================================================================== the places

/-- A place that a search for a key may return: one at which an entry of
the rank is, or the end if there is none. -/
inductive Found (m : OrderedMultimap c ν) (k : κ) : List (κ × ν) → Prop
  | place {before : List (κ × ν)} {e : κ × ν} {behind : List (κ × ν)}
      (hentries : m.entries = before ++ e :: behind)
      (hrank : c.rank e.1 = c.rank k) : Found m k (e :: behind)
  | atEnd (hnone : ∀ e ∈ m.entries, c.rank e.1 ≠ c.rank k) : Found m k []

section Found

variable {m : OrderedMultimap c ν} {k : κ} {it : List (κ × ν)}

/-- The end is returned if nothing else can be. -/
theorem Found.eq_nil_iff (h : Found m k it) :
    it = [] ↔ ∀ e ∈ m.entries, c.rank e.1 ≠ c.rank k := by
  cases h with
  | place hentries hrank =>
      refine iff_of_false (List.cons_ne_nil _ _) fun hnone => ?_
      exact hnone _ (hentries ▸ List.mem_append_right _ List.mem_cons_self)
        hrank
  | atEnd hnone => exact iff_of_true rfl hnone

/-- What a place has before it, and that nothing less is behind it. -/
theorem Found.split (h : Found m k it) (hit : it ≠ []) :
    ∃ before, m.entries = before ++ it
      ∧ (∀ e ∈ before, c.rank e.1 ≤ c.rank k)
      ∧ ∀ e ∈ it, c.rank k ≤ c.rank e.1 := by
  cases h with
  | place hentries hrank =>
      rename_i before e behind
      have hsorted := m.nonDecreasing
      unfold NonDecreasing at hsorted
      rw [hentries, List.pairwise_append] at hsorted
      obtain ⟨-, hbehind, hcross⟩ := hsorted
      refine ⟨before, hentries, ?_, ?_⟩
      · intro e' he'
        exact hrank ▸ hcross e' he' e List.mem_cons_self
      · intro e' he'
        rcases List.mem_cons.mp he' with rfl | hmem
        · exact hrank.ge
        · exact hrank ▸ (List.pairwise_cons.mp hbehind).1 e' hmem
  | atEnd => exact absurd rfl hit

/-- Behind a place the entries are in order, -/
theorem Found.nonDecreasing (h : Found m k it) : NonDecreasing c it := by
  cases h with
  | place hentries hrank =>
      have hsorted := m.nonDecreasing
      unfold NonDecreasing at hsorted
      rw [hentries, List.pairwise_append] at hsorted
      exact hsorted.2.1
  | atEnd => exact .nil

/-- with all those of the greater ranks, -/
theorem Found.atRank_above (h : Found m k it) (hit : it ≠ []) {r : ρ}
    (hr : c.rank k < r) : atRank c it r = atRank c m.entries r := by
  obtain ⟨before, hentries, hbefore, -⟩ := h.split hit
  have hnone : atRank c before r = [] :=
    atRank_eq_nil.mpr fun e he => ((hbefore e he).trans_lt hr).ne
  rw [hentries, atRank_append, hnone, List.nil_append]

/-- none of the lesser ones, -/
theorem Found.atRank_below (h : Found m k it) {r : ρ}
    (hr : r < c.rank k) : atRank c it r = [] := by
  apply atRank_eq_nil.mpr
  intro e he
  obtain ⟨-, -, -, hbehind⟩ := h.split (List.ne_nil_of_mem he)
  exact (hr.trans_le (hbehind e he)).ne'

/-- and the last few of the rank itself. -/
theorem Found.atRank_self (h : Found m k it) (hit : it ≠ []) :
    atRank c it (c.rank k) ≠ []
      ∧ atRank c it (c.rank k) <:+ atRank c m.entries (c.rank k) := by
  constructor
  · cases h with
    | place hentries hrank =>
        intro hnone
        exact atRank_eq_nil.mp hnone _ List.mem_cons_self hrank
    | atEnd => exact absurd rfl hit
  · obtain ⟨before, hentries, -, -⟩ := h.split hit
    rw [hentries, atRank_append]
    exact List.suffix_append _ _

/-- The first place is one of them, -/
theorem OrderedMultimap.found_find (m : OrderedMultimap c ν) (k : κ) :
    Found m k (m.find k) := by
  unfold OrderedMultimap.find
  obtain ⟨before, hentries, -, hplace⟩ :=
    findEntry_spec (k := k) m.nonDecreasing
  rcases hplace with ⟨e, behind, hfind, hrank⟩ | ⟨hfind, hnone⟩
  · rw [hfind] at hentries ⊢
    exact .place hentries hrank
  · rw [hfind]
    exact .atEnd hnone

/-- and it passes over no entry of the rank. -/
theorem OrderedMultimap.atRank_find (m : OrderedMultimap c ν) (k : κ) :
    atRank c (m.find k) (c.rank k) = atRank c m.entries (c.rank k) := by
  obtain ⟨before, hentries, hbefore, hplace⟩ :=
    findEntry_spec (k := k) m.nonDecreasing
  have hnone : atRank c before (c.rank k) = [] := atRank_eq_nil.mpr hbefore
  rw [hentries, atRank_append, hnone, List.nil_append]
  rfl

end Found

end Ordered
