/-
When the two containers of UnorderedMap1.cpp agree.

The map takes keys for the same when `operator==` does, and then it looks
at `a` up to its first NUL; the hash is taken of all ten bytes. So equal
keys fall into one bucket only if `std::hash` gives one value on all the
arrays that share a text (`containers_agree_iff`). A key with a NUL
before its last byte shares its text with other arrays, and some hash
tells them apart (`agree_every_hash_iff`).
-/
import DailyStudy.Map.Proofs.Order

namespace DailyStudy.Map

open CString

variable {hash : List UInt8 → UInt64}

/-- Both containers' notions of the same key are equivalences. -/
theorem mapSame_equivalence : Equivalence mapSame where
  refl _ := mapSame_iff_rank.mpr rfl
  symm h := ⟨h.2, h.1⟩
  trans hxy hyz := mapSame_iff_rank.mpr
    ((mapSame_iff_rank.mp hxy).trans (mapSame_iff_rank.mp hyz))

theorem unorderedSame_iff {k e : Key} :
    unorderedSame hash k e
      ↔ keyHash hash k = keyHash hash e ∧ k.rank = e.rank :=
  and_congr_right fun _ => beq_iff_rank

theorem unorderedSame_equivalence : Equivalence (unorderedSame hash) where
  refl _ := unorderedSame_iff.mpr ⟨rfl, rfl⟩
  symm h := by
    obtain ⟨hhash, hrank⟩ := unorderedSame_iff.mp h
    exact unorderedSame_iff.mpr ⟨hhash.symm, hrank.symm⟩
  trans hxy hyz := by
    obtain ⟨hhash, hrank⟩ := unorderedSame_iff.mp hxy
    obtain ⟨hhash', hrank'⟩ := unorderedSame_iff.mp hyz
    exact unorderedSame_iff.mpr ⟨hhash.trans hhash', hrank.trans hrank'⟩

/-- The unordered container's notion is the finer one. -/
theorem mapSame_of_unorderedSame {k e : Key} (h : unorderedSame hash k e) :
    mapSame k e :=
  mapSame_iff_rank.mpr (unorderedSame_iff.mp h).2

/-- Keys of one `b` have one hash exactly when their arrays do. -/
theorem keyHash_eq_iff {k e : Key} (hb : k.b = e.b) :
    keyHash hash k = keyHash hash e ↔ hash k.a.toList = hash e.a.toList := by
  show hash k.a.toList ^^^ (hash k.b <<< 1)
      = hash e.a.toList ^^^ (hash e.b <<< 1) ↔ _
  rw [hb]
  exact UInt64.xor_left_inj _

/-- Where the two notions part: at an array that `strncmp` cannot tell
from the key's own, and the hash can. -/
theorem unordered_of_map_iff (e : Key) :
    (∀ k, mapSame k e → unorderedSame hash k e)
      ↔ ∀ a : Vector UInt8 sizeofA,
        strncmp a.toList e.a.toList sizeofA = 0 →
          hash a.toList = hash e.a.toList := by
  constructor
  · intro h a ha
    have hrank : Key.rank ⟨a, e.b⟩ = e.rank :=
      Prod.ext (Key.cmp_eq_zero.mp ha) rfl
    obtain ⟨hhash, -⟩ := h ⟨a, e.b⟩ (mapSame_iff_rank.mpr hrank)
    exact (keyHash_eq_iff (k := ⟨a, e.b⟩) (e := e) rfl).mp hhash
  · intro h k hk
    have hrank := mapSame_iff_rank.mp hk
    obtain ⟨htext, hb⟩ := Prod.ext_iff.mp hrank
    have ha := h k.a (Key.cmp_eq_zero.mpr htext)
    exact unorderedSame_iff.mpr ⟨(keyHash_eq_iff hb).mpr ha, hrank⟩

/-- The containers agree when their notions do, on every assigned key. -/
theorem agree_iff_unordered_of_map {assignments : List (Key × List UInt8)} :
    Agree hash assignments ↔ ∀ kv ∈ assignments,
      ∀ k, mapSame k kv.1 → unorderedSame hash k kv.1 :=
  Assoc.agree_iff unorderedSame_equivalence mapSame_equivalence
    mapSame_of_unorderedSame assignments

/-- The two containers agree exactly when `std::hash` gives the array of
every assigned key the value it gives every array that `strncmp` finds
equal to it. -/
theorem containers_agree_iff (hash : List UInt8 → UInt64)
    (assignments : List (Key × List UInt8)) :
    Agree hash assignments ↔ ∀ kv ∈ assignments,
      ∀ a : Vector UInt8 sizeofA,
        strncmp a.toList kv.1.a.toList sizeofA = 0 →
          hash a.toList = hash kv.1.a.toList := by
  rw [agree_iff_unordered_of_map]
  exact forall₂_congr fun kv _ => unordered_of_map_iff kv.1

/-- A zero-terminated key and one that differs from it after the
terminator. -/
def paddedKey : Key := ⟨#v[107, 0, 0, 0, 0, 0, 0, 0, 0, 0], [118]⟩
def dirtyKey : Key := ⟨#v[107, 0, 120, 0, 0, 0, 0, 0, 0, 0], [118]⟩

/-- A polynomial hash of the whole sequence. -/
def hornerHash (bytes : List UInt8) : UInt64 :=
  bytes.foldl (fun h c => 31 * h + c.toUInt64) 17

/-- The map overwrites the one entry, the unordered map makes two. -/
theorem containers_disagree :
    ¬ Agree hornerHash [(paddedKey, [49]), (dirtyKey, [50])] := by
  intro h
  exact absurd h.1 (by decide)

-- ================================================================= every hash

/-- An array with a NUL before its last byte, and one that differs from
it in the last byte, have one text. -/
theorem exists_same_text {a : Vector UInt8 sizeofA}
    (h : 0 ∈ a.toList.dropLast) :
    ∃ a' : Vector UInt8 sizeofA, a'.toList ≠ a.toList
      ∧ upToNul a'.toList = upToNul a.toList := by
  have hlength : a.toList.length = sizeofA := Vector.length_toList
  rcases List.eq_nil_or_concat a.toList with hnil | ⟨init, last, hsplit⟩
  · rw [hnil] at h
    cases h
  rw [List.concat_eq_append] at hsplit
  rw [hsplit, List.dropLast_concat] at h
  have hlength' : (init ++ [last + 1]).length = sizeofA := by
    rw [← hlength, hsplit, List.length_append, List.length_append]
    rfl
  refine ⟨⟨(init ++ [last + 1]).toArray, hlength'⟩, ?_, ?_⟩
  · rw [hsplit]
    intro heq
    have hlast := List.append_cancel_left heq
    have hne : last + 1 ≠ last := by simp
    exact hne (List.cons.inj hlast).1
  · rw [hsplit]
    show upToNul (init ++ [last + 1]) = _
    rw [upToNul_append h, upToNul_append h]

/-- Whatever `std::hash` does, the two containers agree: exactly when no
assigned key has a NUL before the last byte of `a`. -/
theorem agree_every_hash_iff (assignments : List (Key × List UInt8)) :
    (∀ hash, Agree hash assignments)
      ↔ ∀ kv ∈ assignments, 0 ∉ kv.1.a.toList.dropLast := by
  simp only [agree_iff_unordered_of_map, unordered_of_map_iff]
  constructor
  · intro h kv hkv hnul
    obtain ⟨a, hne, htext⟩ := exists_same_text hnul
    -- a hash that singles the key's own array out
    have hhash := h (fun l => if l = kv.1.a.toList then 1 else 0) kv hkv a
      (Key.cmp_eq_zero (k := ⟨a, kv.1.b⟩).mpr htext)
    rw [if_neg hne, if_pos rfl] at hhash
    cases hhash
  · intro h hash kv hkv a ha
    have htext := (Key.cmp_eq_zero (k := ⟨a, kv.1.b⟩)).mp ha
    have hlength : a.toList.length = kv.1.a.toList.length := by
      rw [Vector.length_toList, Vector.length_toList]
    rw [eq_of_upToNul_eq hlength htext (h kv hkv)]

end DailyStudy.Map
