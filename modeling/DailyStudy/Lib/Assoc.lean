/-
Association containers: entries of a key and a value, found by a relation
on keys that need not be equality.

An assignment overwrites the entry its key is found at, or appends a new
one. When the relation is an equivalence, a container holds one entry for
each class of the keys assigned (`length_build`), and two containers over
two equivalences, one finer than the other, cannot be told apart by their
sizes and lookups exactly when the two relations agree on every assigned
key (`agree_iff`).
-/
import Mathlib.Data.Finset.Card
import Mathlib.Data.List.Find

namespace Assoc

variable {κ ν : Type*}

-- ================================================================= operations

section Operations

variable (same : κ → κ → Prop) [DecidableRel same]

/-- The value at the first entry whose key is the same as `k`. -/
def find (k : κ) (m : List (κ × ν)) : Option ν :=
  (m.find? fun e => same k e.1).map Prod.snd

/-- `m[k] = v`: the entry found keeps its key. -/
def assign (k : κ) (v : ν) : List (κ × ν) → List (κ × ν)
  | [] => [(k, v)]
  | e :: rest =>
      if same k e.1 then (e.1, v) :: rest else e :: assign k v rest

/-- A sequence of assignments, from the empty container on. -/
def build (ops : List (κ × ν)) : List (κ × ν) :=
  ops.foldl (fun m op => assign same op.1 op.2 m) []

end Operations

variable {same : κ → κ → Prop} [DecidableRel same]

theorem build_concat (ops : List (κ × ν)) (op : κ × ν) :
    build same (ops ++ [op]) = assign same op.1 op.2 (build same ops) := by
  unfold build
  rw [List.foldl_append]
  rfl

/-- A key is found when some entry's key is the same. -/
theorem find_isSome {k : κ} {m : List (κ × ν)} :
    (find same k m).isSome ↔ ∃ e ∈ m, same k e.1 := by
  unfold find
  rw [Option.isSome_map, List.find?_isSome]
  simp only [decide_eq_true_eq]

/-- An assignment leaves the keys as they are, or appends its own. -/
theorem keys_assign (k : κ) (v : ν) (m : List (κ × ν)) :
    (assign same k v m).map Prod.fst
      = if ∃ e ∈ m, same k e.1 then m.map Prod.fst
        else m.map Prod.fst ++ [k] := by
  induction m with
  | nil => simp [assign]
  | cons e rest ih =>
      unfold assign
      by_cases he : same k e.1
      · rw [if_pos he, if_pos ⟨e, List.mem_cons_self, he⟩]
        rfl
      · have hiff : (∃ x ∈ e :: rest, same k x.1)
            ↔ ∃ x ∈ rest, same k x.1 := by
          simp [he]
        rw [if_neg he, List.map_cons, ih]
        by_cases hrest : ∃ x ∈ rest, same k x.1
        · rw [if_pos hrest, if_pos (hiff.mpr hrest), List.map_cons]
        · rw [if_neg hrest, if_neg fun h => hrest (hiff.mp h)]
          rfl

/-- The entries' keys are keys that were assigned. -/
theorem keys_build_subset (ops : List (κ × ν)) :
    (build same ops).map Prod.fst ⊆ ops.map Prod.fst := by
  induction ops using List.reverseRecOn with
  | nil => exact List.Subset.refl _
  | append_singleton ops op ih =>
      rw [build_concat, keys_assign, List.map_append]
      split
      · exact List.subset_append_of_subset_left _ ih
      · exact List.append_subset.mpr
          ⟨List.subset_append_of_subset_left _ ih,
            List.subset_append_of_subset_right _ (List.Subset.refl _)⟩

-- ========================================================== entries as classes

section Classes

variable (hsame : Equivalence same)

/-- The class of a key. -/
def cls (hsame : Equivalence same) (k : κ) : Quotient ⟨same, hsame⟩ :=
  Quotient.mk _ k

omit [DecidableRel same] in
theorem cls_eq_iff {x y : κ} : cls hsame x = cls hsame y ↔ same x y :=
  Quotient.eq

omit [DecidableRel same] in
/-- Some entry's key is the same exactly when its class has an entry. -/
theorem mem_classes {k : κ} {m : List (κ × ν)} :
    cls hsame k ∈ m.map (fun e => cls hsame e.1) ↔ ∃ e ∈ m, same k e.1 := by
  rw [List.mem_map]
  constructor
  · rintro ⟨e, he, heq⟩
    exact ⟨e, he, (cls_eq_iff hsame).mp heq.symm⟩
  · rintro ⟨e, he, hsm⟩
    exact ⟨e, he, ((cls_eq_iff hsame).mpr hsm).symm⟩

/-- An assignment adds the class of its key, unless it has an entry. -/
theorem classes_assign (k : κ) (v : ν) (m : List (κ × ν)) :
    (assign same k v m).map (fun e => cls hsame e.1)
      = if ∃ e ∈ m, same k e.1 then m.map (fun e => cls hsame e.1)
        else m.map (fun e => cls hsame e.1) ++ [cls hsame k] := by
  have hkeys := congrArg (List.map (cls hsame))
    (@keys_assign _ _ same _ k v m)
  rw [List.map_map] at hkeys
  refine hkeys.trans ?_
  split
  · rw [List.map_map]
    rfl
  · rw [List.map_append, List.map_map]
    rfl

/-- The entries are the classes assigned, each of them once. -/
theorem classes_build (ops : List (κ × ν)) :
    ((build same ops).map fun e => cls hsame e.1).Nodup
      ∧ ∀ c, c ∈ (build same ops).map (fun e => cls hsame e.1)
        ↔ c ∈ ops.map fun op => cls hsame op.1 := by
  induction ops using List.reverseRecOn with
  | nil => exact ⟨List.nodup_nil, fun _ => Iff.rfl⟩
  | append_singleton ops op ih =>
      obtain ⟨hnodup, hmem⟩ := ih
      rw [build_concat, classes_assign]
      by_cases hfound : ∃ e ∈ build same ops, same op.1 e.1
      · rw [if_pos hfound]
        refine ⟨hnodup, fun c => ?_⟩
        have hold := (hmem _).mp ((mem_classes hsame).mpr hfound)
        rw [hmem, List.map_append, List.mem_append, List.map_singleton,
          List.mem_singleton]
        exact ⟨.inl, fun h => h.elim id fun heq => heq ▸ hold⟩
      · rw [if_neg hfound]
        have hnew := fun h => hfound ((mem_classes hsame).mp h)
        refine ⟨List.concat_eq_append ▸ hnodup.concat hnew, fun c => ?_⟩
        rw [List.mem_append, hmem, List.map_append, List.mem_append,
          List.map_singleton]

include hsame in
/-- A key is found when a key of its class was assigned. -/
theorem find_build_isSome {k : κ} {ops : List (κ × ν)} :
    (find same k (build same ops)).isSome ↔ ∃ op ∈ ops, same k op.1 := by
  rw [find_isSome, ← mem_classes hsame, (classes_build hsame ops).2,
    mem_classes]

open Classical in
/-- There are as many entries as classes assigned. -/
theorem length_build (ops : List (κ × ν)) :
    (build same ops).length
      = (ops.map fun op => cls hsame op.1).toFinset.card := by
  obtain ⟨hnodup, hmem⟩ := classes_build hsame ops
  rw [← List.toFinset.ext hmem, List.toFinset_card_of_nodup hnodup,
    List.length_map]

end Classes

-- =============================================================== two relations

section Compare

variable {r s : κ → κ → Prop} [DecidableRel r] [DecidableRel s]

/-- Two containers built by the same assignments cannot be told apart: as
many entries, and the same lookups. -/
def Agree (r s : κ → κ → Prop) [DecidableRel r] [DecidableRel s]
    (ops : List (κ × ν)) : Prop :=
  (build r ops).length = (build s ops).length
    ∧ ∀ k, find r k (build r ops) = find s k (build s ops)

/-- Relations that agree on every entry's key assign alike. -/
theorem assign_congr {k : κ} {v : ν} {m : List (κ × ν)}
    (h : ∀ e ∈ m, r k e.1 ↔ s k e.1) : assign r k v m = assign s k v m := by
  induction m with
  | nil => rfl
  | cons e rest ih =>
      have hrest := ih fun x hx => h x (List.mem_cons_of_mem _ hx)
      have he := h e List.mem_cons_self
      unfold assign
      rw [hrest]
      exact if_congr he rfl rfl

/-- Relations that agree on every entry's key look up alike. -/
theorem find_congr {k : κ} {m : List (κ × ν)}
    (h : ∀ e ∈ m, r k e.1 ↔ s k e.1) : find r k m = find s k m := by
  unfold find
  rw [List.find?_congr fun e he => decide_eq_decide.mpr (h e he)]

omit [DecidableRel s] in
/-- What holds of every assigned key holds of every entry's key. -/
theorem forall_build {P : κ → Prop} {ops : List (κ × ν)}
    (h : ∀ op ∈ ops, P op.1) : ∀ e ∈ build r ops, P e.1 := by
  intro e he
  have hkey := keys_build_subset ops (List.mem_map_of_mem he)
  obtain ⟨op, hop, hk⟩ := List.mem_map.mp hkey
  exact hk ▸ h op hop

/-- Relations that agree on every assigned key build one container. -/
theorem build_congr {ops : List (κ × ν)}
    (h : ∀ op ∈ ops, ∀ k, r k op.1 ↔ s k op.1) :
    build r ops = build s ops := by
  induction ops using List.reverseRecOn with
  | nil => rfl
  | append_singleton ops op ih =>
      have hops := ih fun op' hop' => h op' (List.mem_append_left _ hop')
      rw [build_concat, build_concat, ← hops]
      refine assign_congr
        (forall_build (P := fun x => r op.1 x ↔ s op.1 x) fun op' hop' => ?_)
      exact h op' (List.mem_append_left _ hop') op.1

/-- Over a finer relation there are as many entries exactly when it
separates no two assigned keys that the coarser one identifies. -/
theorem length_build_eq_iff (hr : Equivalence r) (hs : Equivalence s)
    (hrs : ∀ {x y}, r x y → s x y) (ops : List (κ × ν)) :
    (build r ops).length = (build s ops).length
      ↔ ∀ x ∈ ops, ∀ y ∈ ops, s x.1 y.1 → r x.1 y.1 := by
  classical
  -- the classes of the coarser relation are the image of the finer's
  let coarsen : Quotient ⟨r, hr⟩ → Quotient ⟨s, hs⟩ :=
    Quotient.lift (cls hs) fun _ _ h => (cls_eq_iff hs).mpr (hrs h)
  have himage : (ops.map fun op => cls hs op.1).toFinset
      = (ops.map fun op => cls hr op.1).toFinset.image coarsen := by
    ext c
    simp only [List.mem_toFinset, Finset.mem_image, List.mem_map]
    constructor
    · rintro ⟨op, hop, rfl⟩
      exact ⟨_, ⟨op, hop, rfl⟩, rfl⟩
    · rintro ⟨_, ⟨op, hop, rfl⟩, rfl⟩
      exact ⟨op, hop, rfl⟩
  rw [length_build hr, length_build hs, himage, eq_comm,
    Finset.card_image_iff]
  constructor
  · intro hinj x hx y hy hxy
    have hmem : ∀ op ∈ ops,
        cls hr op.1 ∈ (ops.map fun op => cls hr op.1).toFinset :=
      fun op hop => List.mem_toFinset.mpr (List.mem_map_of_mem hop)
    exact (cls_eq_iff hr).mp
      (hinj (hmem x hx) (hmem y hy) ((cls_eq_iff hs).mpr hxy))
  · intro h c hc d hd heq
    obtain ⟨x, hx, rfl⟩ := List.mem_map.mp (List.mem_toFinset.mp hc)
    obtain ⟨y, hy, rfl⟩ := List.mem_map.mp (List.mem_toFinset.mp hd)
    exact (cls_eq_iff hr).mpr (h x hx y hy ((cls_eq_iff hs).mp heq))

/-- Two containers over two equivalences, the first one finer, agree
exactly when no key is the same as an assigned one in the second alone. -/
theorem agree_iff (hr : Equivalence r) (hs : Equivalence s)
    (hrs : ∀ {x y}, r x y → s x y) (ops : List (κ × ν)) :
    Agree r s ops ↔ ∀ op ∈ ops, ∀ k, s k op.1 → r k op.1 := by
  constructor
  · rintro ⟨hlength, hfind⟩ op hop k hk
    have hsome : (find r k (build r ops)).isSome := by
      rw [hfind, find_build_isSome hs]
      exact ⟨op, hop, hk⟩
    obtain ⟨op', hop', hk'⟩ := (find_build_isSome hr).mp hsome
    have hsep := (length_build_eq_iff hr hs hrs ops).mp hlength op' hop' op hop
    exact hr.trans hk' (hsep (hs.trans (hs.symm (hrs hk')) hk))
  · intro h
    have hiff : ∀ op ∈ ops, ∀ k, r k op.1 ↔ s k op.1 :=
      fun op hop k => ⟨hrs, h op hop k⟩
    have hbuild := build_congr hiff
    refine ⟨congrArg List.length hbuild, fun k => ?_⟩
    rw [← hbuild]
    exact find_congr
      (forall_build (P := fun x => r k x ↔ s k x) fun op hop => hiff op hop k)

end Compare

end Assoc
