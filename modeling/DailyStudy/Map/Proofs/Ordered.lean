/-
A `std::map` is a partial function on the classes of its keys, to every
sequence of calls the programs make.

# The function

It stores, at each rank, the key first assigned there and the value
assigned last. Each call is one on that function (`Behaves`), and a loop
sees the function's graph in the order of the ranks, of which there is one
listing. So whatever the calls, the function says all that is seen of them
(`map_behaves`).

# The order of the loop

`map_example` and the container that the comparison with
`std::unordered_map` is about hold the same entries; the loop prints them
in increasing order of `operator<` (`map_example_entries`).

# The multimap

Equal keys stay apart there, in the order of their insertion, and a search
may return any of them; the loop prints what was inserted from that place
on (`multimap_main_prints`).
-/
import DailyStudy.Map.Ordered
import DailyStudy.Map.Proofs.Order

namespace DailyStudy.Map

open Ordered

variable {κ ν ρ : Type} [LinearOrder ρ]

-- ================================================================ the function

/-- What a call yields and leaves behind, by the function alone. -/
def Behaves (c : Comparator κ ρ) (dflt : ν) (f : ρ → Option (κ × ν)) :
    Op κ ν → Option (Seen κ ν × (ρ → Option (κ × ν))) → Prop
  | .assign k v, r => r = some (.nothing, put c f k v)
  | .index k, r =>
      r = some (.value (some ((f (c.rank k)).elim dflt Prod.snd)),
        put c f k ((f (c.rank k)).elim dflt Prod.snd))
  | .atKey k, r => r = some (.value ((f (c.rank k)).map Prod.snd), f)
  | .find k, r => r = some (.entry (f (c.rank k)), f)
  | .findIf p, r => ∃ l, OrderedMap.Listing c f l
      ∧ r = some (.entry (l.find? p), f)
  | .erase k, r => r = some (.nothing, Function.update f (c.rank k) none)
  | .eraseIt k, r => r = if (f (c.rank k)).isSome
      then some (.nothing, Function.update f (c.rank k) none) else none
  | .eraseFrom k, r => r = some (.nothing, if (f (c.rank k)).isSome
      then fun x => if c.rank k ≤ x then none else f x else f)
  | .forEach g, r => ∃ l, OrderedMap.Listing c f l
      ∧ r = some (.entries l,
        fun x => (f x).map fun e => (e.1, g e.1 e.2))

/-- The same for a sequence of calls. -/
inductive BehavesAll (c : Comparator κ ρ) (dflt : ν) :
    (ρ → Option (κ × ν)) → List (Op κ ν) →
      List (Seen κ ν) × Option (ρ → Option (κ × ν)) → Prop
  | nil (f : ρ → Option (κ × ν)) : BehavesAll c dflt f [] ([], some f)
  | cons {f f' : ρ → Option (κ × ν)} {op : Op κ ν} {rest : List (Op κ ν)}
      {seen : Seen κ ν} {log : List (Seen κ ν)}
      {last : Option (ρ → Option (κ × ν))}
      (hop : Behaves c dflt f op (some (seen, f')))
      (hrest : BehavesAll c dflt f' rest (log, last)) :
      BehavesAll c dflt f (op :: rest) (seen :: log, last)
  | undefined {f : ρ → Option (κ × ν)} {op : Op κ ν}
      {rest : List (Op κ ν)} (hop : Behaves c dflt f op none) :
      BehavesAll c dflt f (op :: rest) ([], none)

variable {c : Comparator κ ρ}

/-- The function says what a call does. -/
theorem Behaves.unique {dflt : ν} {f : ρ → Option (κ × ν)} {op : Op κ ν}
    {r r' : Option (Seen κ ν × (ρ → Option (κ × ν)))}
    (h : Behaves c dflt f op r) (h' : Behaves c dflt f op r') : r = r' := by
  cases op with
  | findIf p =>
      obtain ⟨l, hl, rfl⟩ := h
      obtain ⟨l', hl', rfl⟩ := h'
      rw [hl.unique hl']
  | forEach g =>
      obtain ⟨l, hl, rfl⟩ := h
      obtain ⟨l', hl', rfl⟩ := h'
      rw [hl.unique hl']
  | _ => exact Eq.trans h (Eq.symm h')

theorem BehavesAll.unique {dflt : ν} {f : ρ → Option (κ × ν)}
    {ops : List (Op κ ν)}
    {r r' : List (Seen κ ν) × Option (ρ → Option (κ × ν))}
    (h : BehavesAll c dflt f ops r) (h' : BehavesAll c dflt f ops r') :
    r = r' := by
  induction h generalizing r' with
  | nil f =>
      cases h'
      rfl
  | cons hop hrest ih =>
      cases h' with
      | cons hop' hrest' =>
          cases hop.unique hop'
          cases ih hrest'
          rfl
      | undefined hop' => cases hop.unique hop'
  | undefined hop =>
      cases h' with
      | cons hop' hrest' => cases hop.unique hop'
      | undefined hop' => rfl

-- ============================================================== the refinement

/-- What is there, assigned again, changes nothing. -/
theorem put_found {f : ρ → Option (κ × ν)} {k : κ} {e : κ × ν}
    (h : f (c.rank k) = some e) : put c f k e.2 = f := by
  unfold put
  rw [h]
  exact Function.update_eq_self_iff.mpr h.symm

/-- One call on the map is the one on the function. -/
theorem exec_behaves (dflt : ν) (m : OrderedMap c ν) (op : Op κ ν) :
    Behaves c dflt m.get op
      ((exec dflt m op).map fun r => (r.1, r.2.get)) := by
  cases op with
  | assign k v =>
      show _ = _
      rw [← OrderedMap.get_assign]
      rfl
  | index k =>
      cases hfound : m.find k with
      | none =>
          have hget := (m.find_eq_get k).symm.trans hfound
          simp [Behaves, exec, hfound, hget, put, OrderedMap.get_assign]
      | some e =>
          have hget := (m.find_eq_get k).symm.trans hfound
          simp [Behaves, exec, hfound, hget, put_found hget]
  | atKey k =>
      show _ = _
      rw [← OrderedMap.find_eq_get]
      rfl
  | find k =>
      show _ = _
      rw [← OrderedMap.find_eq_get]
      rfl
  | findIf p => exact ⟨m.entries, m.listing, rfl⟩
  | erase k =>
      show _ = _
      rw [← OrderedMap.get_erase]
      rfl
  | eraseIt k =>
      show _ = _
      rw [← OrderedMap.get_erase, ← OrderedMap.find_eq_get]
      cases hfound : m.find k with
      | none => simp [exec, hfound]
      | some e => simp [exec, hfound]
  | eraseFrom k =>
      show _ = _
      rw [← OrderedMap.get_eraseFrom]
      rfl
  | forEach g =>
      refine ⟨m.entries, m.listing, ?_⟩
      rw [← funext (OrderedMap.get_mapValues m g)]
      rfl

theorem execAll_behaves (dflt : ν) (m : OrderedMap c ν)
    (ops : List (Op κ ν)) :
    BehavesAll c dflt m.get ops
      ((execAll dflt m ops).map id (Option.map OrderedMap.get)) := by
  induction ops generalizing m with
  | nil => exact .nil m.get
  | cons op rest ih =>
      have hop := exec_behaves dflt m op
      unfold execAll
      cases hexec : exec dflt m op with
      | none =>
          rw [hexec] at hop
          exact .undefined hop
      | some r =>
          rw [hexec] at hop
          exact .cons hop (ih r.2)

/-- Whatever was assigned, the loop over `map_example` prints the entries
of the container in no order, each once, in increasing order of
`operator<`. -/
theorem map_example_entries (assignments : List (Key × List UInt8)) :
    (mapExample assignments).entries.Pairwise (fun e e' => e.1 < e'.1)
    ∧ (mapExample assignments).entries.Perm
        (Assoc.build mapSame assignments) := by
  constructor
  · exact (mapExample assignments).increasing.imp fun hrank =>
      lt_iff_rank.mpr hrank
  · exact perm_build (fun _ _ => mapSame_iff_rank) assignments

-- =============================================================== the multimap

/-- What a loop from a key on should print: if the key was inserted, the
last few of its entries and all those of the greater keys, in the order of
the keys and those of one key in the order of their insertion. -/
structure ListsFrom (c : Comparator κ ρ) (inserts : List (κ × ν)) (k : κ)
    (it : List (κ × ν)) : Prop where
  nonDecreasing : NonDecreasing c it
  below : ∀ r < c.rank k, atRank c it r = []
  self : it ≠ [] → atRank c it (c.rank k) ≠ []
    ∧ atRank c it (c.rank k) <:+ atRank c inserts (c.rank k)
  above : it ≠ [] → ∀ r, c.rank k < r → atRank c it r = atRank c inserts r
  nil_iff : it = [] ↔ ∀ e ∈ inserts, c.rank e.1 ≠ c.rank k

/-- Nothing was inserted at a key if nothing is there. -/
theorem absent_build {inserts : List (κ × ν)} {k : κ} :
    (∀ e ∈ (OrderedMultimap.build c inserts).entries,
        c.rank e.1 ≠ c.rank k)
      ↔ ∀ e ∈ inserts, c.rank e.1 ≠ c.rank k := by
  rw [← atRank_eq_nil, OrderedMultimap.atRank_build, atRank_eq_nil]

theorem lists_from {inserts : List (κ × ν)} {k : κ} {it : List (κ × ν)}
    (h : Found (OrderedMultimap.build c inserts) k it) :
    ListsFrom c inserts k it where
  nonDecreasing := h.nonDecreasing
  below _ hr := h.atRank_below hr
  self hit := by
    rw [← OrderedMultimap.atRank_build inserts]
    exact h.atRank_self hit
  above hit r hr := by
    rw [← OrderedMultimap.atRank_build inserts]
    exact h.atRank_above hit hr
  nil_iff := h.eq_nil_iff.trans absent_build

/-- The value at a place is one inserted at the key. -/
theorem value_inserted {inserts : List (κ × ν)} {k : κ}
    {it : List (κ × ν)} {v : ν}
    (h : Found (OrderedMultimap.build c inserts) k it)
    (hv : it.head?.map Prod.snd = some v) :
    ∃ e ∈ inserts, c.rank e.1 = c.rank k ∧ e.2 = v := by
  cases h with
  | place hentries hrank =>
      rename_i before e behind
      refine ⟨e, ?_, hrank, Option.some.inj hv⟩
      apply (OrderedMultimap.build_perm (c := c) inserts).mem_iff.mp
      rw [hentries]
      exact List.mem_append_right _ List.mem_cons_self
  | atEnd => cases hv

/-- Whatever was inserted and wherever the searches end up: the loop lists
what was inserted from its key on, the second search prints a value of its
key exactly if there is one, and `not found` is printed exactly if nothing
was inserted at the third key. A search that returns the first place makes
the loop list all the entries of its key. -/
theorem multimap_main_prints
    (find : OrderedMultimap c ν → κ → List (κ × ν))
    (hfind : ∀ m k, Found m k (find m k)) (inserts : List (κ × ν))
    (k₁ k₂ k₃ : κ) :
    ListsFrom c inserts k₁ (multimapMain find inserts k₁ k₂ k₃).listing
    ∧ (find = OrderedMultimap.find →
        atRank c (multimapMain find inserts k₁ k₂ k₃).listing (c.rank k₁)
          = atRank c inserts (c.rank k₁))
    ∧ (∀ v, (multimapMain find inserts k₁ k₂ k₃).value = some v →
        ∃ e ∈ inserts, c.rank e.1 = c.rank k₂ ∧ e.2 = v)
    ∧ ((multimapMain find inserts k₁ k₂ k₃).value = none
        ↔ ∀ e ∈ inserts, c.rank e.1 ≠ c.rank k₂)
    ∧ ((multimapMain find inserts k₁ k₂ k₃).notFound = true
        ↔ ∀ e ∈ inserts, c.rank e.1 ≠ c.rank k₃) := by
  have h₁ := hfind (OrderedMultimap.build c inserts) k₁
  have h₂ := hfind (OrderedMultimap.build c inserts) k₂
  have h₃ := hfind (OrderedMultimap.build c inserts) k₃
  refine ⟨lists_from h₁, ?_, fun v hv => value_inserted h₂ hv, ?_, ?_⟩
  · intro hfirst
    unfold multimapMain
    rw [hfirst, OrderedMultimap.atRank_find, OrderedMultimap.atRank_build]
  · rw [← (lists_from h₂).nil_iff]
    unfold multimapMain
    rw [Option.map_eq_none_iff, List.head?_eq_none_iff]
  · rw [← (lists_from h₃).nil_iff]
    unfold multimapMain
    rw [List.isEmpty_iff]

/-- The keys of MapUse3.cpp, and one of them twice. -/
theorem multimap_main_prints_twice :
    multimapMain (c := Comparator.ofLinearOrder Int) OrderedMultimap.find
        [(2, 30), (1, 40), (3, 20), (4, 50), (3, 10)] 3 1 5
      = ⟨[(3, 20), (3, 10), (4, 50)], some 40, true⟩
    ∧ ListsFrom (Comparator.ofLinearOrder Int)
        [(2, 30), (1, 40), (3, 20), (4, 50), (3, 10)] 3
        [(3, 20), (3, 10), (4, 50)] := by
  refine ⟨by decide, ?_⟩
  exact (multimap_main_prints (c := Comparator.ofLinearOrder Int)
    OrderedMultimap.find OrderedMultimap.found_find
    [(2, 30), (1, 40), (3, 20), (4, 50), (3, 10)] 3 1 5).1

end DailyStudy.Map
