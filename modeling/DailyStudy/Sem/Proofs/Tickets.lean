/-
Tickets and values in the semaphore ring with one reader thread: which
runs hand every `Read` the value of its own ticket.

# What goes wrong

`sem_read_` counts posts and does not say WHICH slot was filled. A
`Write` that has its ticket but has not stored yet can be overtaken: a
later `Write` stores into the next slot and posts, and that one post
lets the reader go on to the earlier slot, which is still unfilled
(`overtaken_write`). With one writer thread nobody overtakes.

# When it goes right

`StoredFirst` is the step condition: the reader does not load the slot
of a ticket whose `Write` still stands between its `fetch_add` and its
store. On runs that meet it, `Tickets` is invariant: the live tickets
lie in one window of `NUM_SLOTS` (`Flow.tickets`), so no two of them
share a slot, and each slot of a stored live ticket holds the value of
the `Write` that claimed the ticket.
-/
import DailyStudy.Sem.Proofs.Flow

namespace DailyStudy.Sem

open Interleave

-- ================================================================ statements

/-- The `k`-th `Read` returned the value passed to the `Write` that
obtained ticket `k`, and to no other. -/
def ReadsMatch (l : List Event) : Prop :=
  ∀ k v, (returns l)[k]? = some v →
    ∀ v', Event.claimed k v' ∈ l ↔ v' = v

variable {W : Type} [DecidableEq W]

/-- The ticket a `Write` has obtained and not stored to yet. -/
def WritePc.pending? : WritePc → Option Nat
  | .store _ ticket => some ticket
  | _ => none

/-- A load finds its ticket stored: the `Write` that holds it is not
standing between its `fetch_add` and its store. -/
def StoredFirst (sl : State W Unit × List Event) : Act W Unit → Prop
  | .read r =>
      match sl.1.reader r with
      | .load ticket => ∀ w, (sl.1.writer w).pending? ≠ some ticket
      | _ => True
  | _ => True

instance [Fintype W] (sl : State W Unit × List Event) :
    ∀ a, Decidable (StoredFirst sl a)
  | .read r =>
      match h : sl.1.reader r with
      | .load ticket =>
          decidable_of_iff (∀ w, (sl.1.writer w).pending? ≠ some ticket)
            (by simp [StoredFirst, h])
      | .idle | .wait | .claim | .post _ =>
          .isTrue (by simp [StoredFirst, h])
  | .callWrite _ _ | .write _ | .callRead _ => .isTrue trivial

-- ============================================================= the invariant

/-- What ties tickets, slots and values together. `unread` and `live`
speak about the window of tickets the reader has not loaded yet. -/
structure Tickets (s : State W Unit) (l : List Event) : Prop where
  claimed_lt : ∀ {t v}, Event.claimed t v ∈ l → t < s.mem.nextWriteSlot
  claimed_inj : ∀ {t v v'}, Event.claimed t v ∈ l →
    Event.claimed t v' ∈ l → v = v'
  claimed_all : ∀ {t}, t < s.mem.nextWriteSlot → ∃ v, Event.claimed t v ∈ l
  pending : ∀ {w v t}, s.writer w = .store v t → Event.claimed t v ∈ l
  pending_inj : ∀ {w w' v v' t}, s.writer w = .store v t →
    s.writer w' = .store v' t → w = w'
  unread : ∀ {w v t}, s.writer w = .store v t → l.count .loaded ≤ t
  live : ∀ {t v}, Event.claimed t v ∈ l → l.count .loaded ≤ t →
    (∀ w v', s.writer w ≠ .store v' t) →
    s.mem.memory (slot numSlots t) = v
  loading : ∀ {t}, s.reader () = .load t → t + 1 = s.mem.nextReadSlot
  returning : ∀ {v}, s.reader () = .post v →
    Event.claimed (returns l).length v ∈ l
  loads : (returns l).length + (s.reader ()).atPost.toNat
    = l.count .loaded
  returned : ∀ {k v}, (returns l)[k]? = some v → Event.claimed k v ∈ l

-- ======================================================== the tickets of a log

omit [DecidableEq W] in
/-- Claims in the log are those of before, when something else happens. -/
private theorem claimed_append_other {l : List Event} {e : Event}
    (hno : ∀ t v, e ≠ .claimed t v) {t : Nat} {v : Int} :
    Event.claimed t v ∈ l ++ [e] ↔ Event.claimed t v ∈ l := by
  rw [List.mem_append, List.mem_singleton]
  refine ⟨fun h => ?_, .inl⟩
  rcases h with h | h
  · exact h
  · exact absurd h.symm (hno t v)

/-- The tickets below `n` are claimed, each with one value. -/
private structure Claims (n : Nat) (l : List Event) : Prop where
  lt : ∀ {t v}, Event.claimed t v ∈ l → t < n
  inj : ∀ {t v v'}, Event.claimed t v ∈ l → Event.claimed t v' ∈ l → v = v'
  all : ∀ {t}, t < n → ∃ v, Event.claimed t v ∈ l

omit [DecidableEq W] in
private theorem Tickets.claims {s : State W Unit} {l : List Event}
    (hi : Tickets s l) : Claims s.mem.nextWriteSlot l where
  lt := hi.claimed_lt
  inj := hi.claimed_inj
  all := hi.claimed_all

private theorem Claims.append_other {n : Nat} {l : List Event}
    (h : Claims n l) {e : Event} (hno : ∀ t v, e ≠ .claimed t v) :
    Claims n (l ++ [e]) where
  lt hmem := h.lt ((claimed_append_other hno).mp hmem)
  inj hmem hmem' := h.inj ((claimed_append_other hno).mp hmem)
    ((claimed_append_other hno).mp hmem')
  all ht := by
    obtain ⟨v, hv⟩ := h.all ht
    exact ⟨v, (claimed_append_other hno).mpr hv⟩

/-- The next ticket is claimed. -/
private theorem Claims.claim {n : Nat} {l : List Event} (h : Claims n l)
    (v : Int) : Claims (n + 1) (l ++ [.claimed n v]) := by
  have hmem : ∀ {t v'}, Event.claimed t v' ∈ l ++ [.claimed n v]
      ↔ Event.claimed t v' ∈ l ∨ (t = n ∧ v' = v) := by
    intro t v'
    simp
  constructor
  case lt =>
    intro t v' h'
    rcases hmem.mp h' with hin | ⟨rfl, -⟩
    · exact Nat.lt_succ_of_lt (h.lt hin)
    · exact Nat.lt_succ_self _
  case inj =>
    intro t v₁ v₂ h₁ h₂
    rcases hmem.mp h₁ with in₁ | ⟨ht₁, hv₁⟩
    · rcases hmem.mp h₂ with in₂ | ⟨ht₂, -⟩
      · exact h.inj in₁ in₂
      · exact absurd (h.lt in₁) (by omega)
    · rcases hmem.mp h₂ with in₂ | ⟨-, hv₂⟩
      · exact absurd (h.lt in₂) (by omega)
      · rw [hv₁, hv₂]
  case all =>
    intro t ht
    by_cases heq : t = n
    · exact ⟨v, hmem.mpr (.inr ⟨heq, rfl⟩)⟩
    · obtain ⟨v', hv'⟩ := h.all (by omega : t < n)
      exact ⟨v', hmem.mpr (.inl hv')⟩

theorem tickets_init : Tickets (ring W Unit).init [] where
  claimed_lt h := absurd h List.not_mem_nil
  claimed_inj h := absurd h List.not_mem_nil
  claimed_all h := absurd h (Nat.not_lt_zero _)
  pending h := by cases h
  pending_inj h := by cases h
  unread h := by cases h
  live h := absurd h List.not_mem_nil
  loading h := by cases h
  returning h := by cases h
  loads := rfl
  returned h := by simp [returns] at h

omit [DecidableEq W] in
/-- With one reader thread, a load is at the number of loads done. -/
theorem Tickets.load_eq [Fintype W] {s : State W Unit} {l : List Event}
    (hi : Tickets s l) (hf : Flow s l) {t : Nat}
    (hpc : s.reader () = .load t) : t = l.count .loaded := by
  have hread := hf.read
  have hone : census ReadPc.atLoad s.reader = 1 := by
    simp [census, hpc, ReadPc.atLoad]
  have := hi.loading hpc
  omega

/-- A writer that moves from and to points other than the store, while
the memory stays, changes nothing the invariant speaks about. -/
private theorem tickets_writer {s : State W Unit} {l : List Event}
    (hi : Tickets s l) {w : W} {new : WritePc} {m : SharedMemory}
    (hold : ∀ v t, s.writer w ≠ .store v t) (hnew : ∀ v t, new ≠ .store v t)
    (hmem : m.memory = s.mem.memory)
    (hwr : m.nextWriteSlot = s.mem.nextWriteSlot)
    (hrd : m.nextReadSlot = s.mem.nextReadSlot) :
    Tickets { s with mem := m, writer := Function.update s.writer w new }
      l := by
  have hback : ∀ {w' v t}, Function.update s.writer w new w' = .store v t →
      s.writer w' = .store v t := fun h => (of_update_eq h (hnew _ _)).2
  have hforth : ∀ {t}, (∀ w' v', Function.update s.writer w new w'
      ≠ .store v' t) → ∀ w' v', s.writer w' ≠ .store v' t := by
    intro t h w' v' hs
    by_cases hw : w' = w
    · exact hold v' t (hw ▸ hs)
    · exact h w' v' (by rw [Function.update_of_ne hw, hs])
  exact {
    claimed_lt := fun h => by rw [hwr]; exact hi.claimed_lt h
    claimed_inj := hi.claimed_inj
    claimed_all := fun h => hi.claimed_all (hwr ▸ h)
    pending := fun h => hi.pending (hback h)
    pending_inj := fun h h' => hi.pending_inj (hback h) (hback h')
    unread := fun h => hi.unread (hback h)
    live := fun h hl hno => by rw [hmem]; exact hi.live h hl (hforth hno)
    loading := fun h => by rw [hrd]; exact hi.loading h
    returning := hi.returning
    loads := hi.loads
    returned := hi.returned }

omit [DecidableEq W] in
/-- A reader that neither leaves nor enters the last step of `Read`,
while the memory stays, needs only its ticket to be the newest. -/
private theorem tickets_reader {s : State W Unit} {l : List Event}
    (hi : Tickets s l) {new : ReadPc} {m : SharedMemory}
    (hold : (s.reader ()).atPost = false) (hnew : new.atPost = false)
    (hmem : m.memory = s.mem.memory)
    (hwr : m.nextWriteSlot = s.mem.nextWriteSlot)
    (hload : ∀ t, new = .load t → t + 1 = m.nextReadSlot) :
    Tickets { s with mem := m, reader := Function.update s.reader () new }
      l where
  claimed_lt h := by rw [hwr]; exact hi.claimed_lt h
  claimed_inj := hi.claimed_inj
  claimed_all h := hi.claimed_all (hwr ▸ h)
  pending := hi.pending
  pending_inj := hi.pending_inj
  unread := hi.unread
  live h hl hno := by rw [hmem]; exact hi.live h hl hno
  loading h := hload _ (by simpa using h)
  returning {v} h := by
    have hpost : new = .post v := by simpa using h
    rw [hpost] at hnew
    cases hnew
  loads := by
    have := hi.loads
    rw [hold] at this
    simpa [hnew] using this
  returned := hi.returned

-- ============================================================= preservation

/-- A claim: the new ticket is the writer's, and nobody else has it. -/
private theorem tickets_claim [Fintype W] {s : State W Unit}
    {l : List Event} (hf : Flow s l) (hi : Tickets s l) {w : W} {v : Int}
    (hpc : s.writer w = .claim v) :
    Tickets { s with
        mem := { s.mem with nextWriteSlot := s.mem.nextWriteSlot + 1 }
        writer := Function.update s.writer w
          (.store v s.mem.nextWriteSlot) }
      (l ++ [.claimed s.mem.nextWriteSlot v]) := by
  obtain ⟨hlo, hhi, -⟩ := hf.tickets
  have hread := hf.read
  -- membership in the longer log, and where a pending store comes from
  have hmem : ∀ {t v'}, Event.claimed t v'
        ∈ l ++ [.claimed s.mem.nextWriteSlot v]
      ↔ Event.claimed t v' ∈ l ∨ (t = s.mem.nextWriteSlot ∧ v' = v) := by
    intro t v'
    simp
  have hcnt : (l ++ [Event.claimed s.mem.nextWriteSlot v]).count .loaded
      = l.count .loaded := by simp [List.count_append]
  have hpend : ∀ {w' v' t}, Function.update s.writer w
        (.store v s.mem.nextWriteSlot) w' = .store v' t →
      (w' = w ∧ v' = v ∧ t = s.mem.nextWriteSlot)
        ∨ (w' ≠ w ∧ s.writer w' = .store v' t) := by
    intro w' v' t h
    by_cases hw : w' = w
    · subst hw
      rw [Function.update_self] at h
      cases h
      exact .inl ⟨rfl, rfl, rfl⟩
    · rw [Function.update_of_ne hw] at h
      exact .inr ⟨hw, h⟩
  have hold : ∀ {w' v' t}, s.writer w' = .store v' t →
      t < s.mem.nextWriteSlot := fun h => hi.claimed_lt (hi.pending h)
  have hclaims := hi.claims.claim v
  constructor
  case claimed_lt => exact hclaims.lt
  case claimed_inj => exact hclaims.inj
  case claimed_all => exact hclaims.all
  case pending =>
    intro w' v' t h
    rcases hpend h with ⟨-, rfl, rfl⟩ | ⟨-, hin⟩
    · exact hmem.mpr (.inr ⟨rfl, rfl⟩)
    · exact hmem.mpr (.inl (hi.pending hin))
  case pending_inj =>
    intro w₁ w₂ v₁ v₂ t h₁ h₂
    rcases hpend h₁ with ⟨hw₁, -, ht₁⟩ | ⟨-, in₁⟩
    · rcases hpend h₂ with ⟨hw₂, -, -⟩ | ⟨-, in₂⟩
      · rw [hw₁, hw₂]
      · exact absurd (hold in₂) (by omega)
    · rcases hpend h₂ with ⟨-, -, ht₂⟩ | ⟨-, in₂⟩
      · exact absurd (hold in₁) (by omega)
      · exact hi.pending_inj in₁ in₂
  case unread =>
    intro w' v' t h
    rw [hcnt]
    rcases hpend h with ⟨-, -, rfl⟩ | ⟨-, hin⟩
    · omega
    · exact hi.unread hin
  case live =>
    intro t v' h hl hno
    rw [hcnt] at hl
    rcases hmem.mp h with hin | ⟨rfl, -⟩
    · refine hi.live hin hl fun w' v'' hs => ?_
      by_cases hw : w' = w
      · rw [hw, hpc] at hs
        cases hs
      · exact hno w' v'' ((Function.update_of_ne hw _ _).trans hs)
    · exact absurd (Function.update_self w _ s.writer) (hno w v)
  case loading => exact hi.loading
  case returning =>
    intro v' h
    have hr := hi.returning h
    simpa [returns] using Or.inl hr
  case loads =>
    have := hi.loads
    simpa [returns, List.count_append] using this
  case returned =>
    intro k v' h
    have hr : (returns l)[k]? = some v' := by simpa [returns] using h
    exact hmem.mpr (.inl (hi.returned hr))

/-- A store: the slot gets the value of its ticket, and no other live
ticket has that slot. -/
private theorem tickets_store [Fintype W] {s : State W Unit}
    {l : List Event} (hf : Flow s l) (hi : Tickets s l) {w : W} {v : Int}
    {t : Nat} (hpc : s.writer w = .store v t) :
    Tickets { s with
        mem := { s.mem with
          memory := Function.update s.mem.memory (slot numSlots t) v }
        writer := Function.update s.writer w .post }
      (l ++ [.stored]) := by
  obtain ⟨-, -, hroom⟩ := hf.tickets
  have hno : ∀ t v', Event.stored ≠ .claimed t v' := fun _ _ => nofun
  have hmem : ∀ {t v'}, Event.claimed t v' ∈ l ++ [.stored]
      ↔ Event.claimed t v' ∈ l := claimed_append_other hno
  have hclaims := hi.claims.append_other hno
  have hcnt : (l ++ [Event.stored]).count .loaded = l.count .loaded := by
    simp [List.count_append]
  have hret : returns (l ++ [.stored]) = returns l := by simp [returns]
  have hpend : ∀ {w' v' t'}, Function.update s.writer w .post w'
        = .store v' t' → w' ≠ w ∧ s.writer w' = .store v' t' :=
    fun h => of_update_eq h (by simp)
  have hlo := hi.unread hpc
  have hlt := hi.claimed_lt (hi.pending hpc)
  constructor
  case claimed_lt => exact hclaims.lt
  case claimed_inj => exact hclaims.inj
  case claimed_all => exact hclaims.all
  case pending => exact fun h => hmem.mpr (hi.pending (hpend h).2)
  case pending_inj =>
    exact fun h h' => hi.pending_inj (hpend h).2 (hpend h').2
  case unread =>
    intro w' v' t' h
    rw [hcnt]
    exact hi.unread (hpend h).2
  case live =>
    intro t' v' h hl hno
    rw [hcnt] at hl
    have hin := hmem.mp h
    show Function.update s.mem.memory (slot numSlots t) v (slot numSlots t')
      = v'
    by_cases ht : t' = t
    · subst ht
      rw [Function.update_self]
      exact hi.claimed_inj (hi.pending hpc) hin
    · have hlt' := hi.claimed_lt hin
      have hne : slot numSlots t' ≠ slot numSlots t := fun hs =>
        ht (slot_inj (l.count .loaded) hl (by omega) hlo (by omega) hs)
      rw [Function.update_of_ne hne]
      refine hi.live hin hl fun w' v'' hs => ?_
      by_cases hw : w' = w
      · rw [hw, hpc] at hs
        cases hs
        exact ht rfl
      · exact hno w' v'' ((Function.update_of_ne hw _ _).trans hs)
  case loading => exact hi.loading
  case returning =>
    intro v' h
    rw [hret]
    exact hmem.mpr (hi.returning h)
  case loads =>
    rw [hret, hcnt]
    exact hi.loads
  case returned =>
    intro k v' h
    rw [hret] at h
    exact hmem.mpr (hi.returned h)

omit [DecidableEq W] in
/-- A load under the guard: what is loaded is the value of the ticket. -/
private theorem tickets_load [Fintype W] {s : State W Unit}
    {l : List Event} (hf : Flow s l) (hi : Tickets s l) {t : Nat}
    (hpc : s.reader () = .load t)
    (hguard : ∀ w v, s.writer w ≠ .store v t) :
    Tickets { s with
        reader := Function.update s.reader ()
          (.post (s.mem.memory (slot numSlots t))) }
      (l ++ [.loaded]) := by
  obtain ⟨hlo, hhi, -⟩ := hf.tickets
  have hno : ∀ t v', Event.loaded ≠ .claimed t v' := fun _ _ => nofun
  have hmem : ∀ {t v'}, Event.claimed t v' ∈ l ++ [.loaded]
      ↔ Event.claimed t v' ∈ l := claimed_append_other hno
  have hclaims := hi.claims.append_other hno
  have hcnt : (l ++ [Event.loaded]).count .loaded = l.count .loaded + 1 := by
    simp [List.count_append]
  have hret : returns (l ++ [.loaded]) = returns l := by simp [returns]
  have hload := hi.load_eq hf hpc
  have hnext := hi.loading hpc
  obtain ⟨v, hv⟩ := hi.claimed_all (by omega : t < s.mem.nextWriteSlot)
  have hval := hi.live hv (by omega) hguard
  have hpast : ∀ {w v' t'}, s.writer w = .store v' t' →
      l.count .loaded + 1 ≤ t' := by
    intro w v' t' hs
    have hle := hi.unread hs
    have hne : t' ≠ t := fun ht => hguard w v' (ht ▸ hs)
    omega
  have hlen := hi.loads
  rw [hpc, show (ReadPc.load t).atPost = false from rfl, Bool.toNat_false]
    at hlen
  constructor
  case claimed_lt => exact hclaims.lt
  case claimed_inj => exact hclaims.inj
  case claimed_all => exact hclaims.all
  case pending => exact fun h => hmem.mpr (hi.pending h)
  case pending_inj => exact fun h h' => hi.pending_inj h h'
  case unread =>
    intro w' v' t' h
    rw [hcnt]
    exact hpast h
  case live =>
    intro t' v' h hl hno
    rw [hcnt] at hl
    exact hi.live (hmem.mp h) (by omega) hno
  case loading =>
    intro t' h
    simp at h
  case returning =>
    intro v' h
    rw [hret]
    have hv' : s.mem.memory (slot numSlots t) = v' := by simpa using h
    rw [← hv', hval, show (returns l).length = t from by omega]
    exact hmem.mpr hv
  case loads =>
    rw [hret, hcnt]
    simp [ReadPc.atPost]
    omega
  case returned =>
    intro k v' h
    rw [hret] at h
    exact hmem.mpr (hi.returned h)

omit [DecidableEq W] in
/-- A `Read` returns: its value joins the returned ones, and the log
already has it under that number. -/
private theorem tickets_return {s : State W Unit} {l : List Event}
    (hi : Tickets s l) {v : Int} (hpc : s.reader () = .post v) :
    Tickets { s with
        mem := { s.mem with semWrite := s.mem.semWrite + 1 }
        reader := Function.update s.reader () .idle }
      (l ++ [.returned v]) := by
  have hno : ∀ t v', Event.returned v ≠ .claimed t v' := fun _ _ => nofun
  have hmem : ∀ {t v'}, Event.claimed t v' ∈ l ++ [.returned v]
      ↔ Event.claimed t v' ∈ l := claimed_append_other hno
  have hclaims := hi.claims.append_other hno
  have hcnt : (l ++ [Event.returned v]).count .loaded = l.count .loaded := by
    simp [List.count_append]
  have hret : returns (l ++ [.returned v]) = returns l ++ [v] := by
    simp [returns]
  have hlen := hi.loads
  rw [hpc, show (ReadPc.post v).atPost = true from rfl, Bool.toNat_true]
    at hlen
  constructor
  case claimed_lt => exact hclaims.lt
  case claimed_inj => exact hclaims.inj
  case claimed_all => exact hclaims.all
  case pending => exact fun h => hmem.mpr (hi.pending h)
  case pending_inj => exact fun h h' => hi.pending_inj h h'
  case unread =>
    intro w v' t h
    rw [hcnt]
    exact hi.unread h
  case live =>
    intro t v' h hl hno
    rw [hcnt] at hl
    exact hi.live (hmem.mp h) hl hno
  case loading =>
    intro t h
    simp at h
  case returning =>
    intro v' h
    simp at h
  case loads =>
    rw [hret, hcnt]
    simp [ReadPc.atPost]
    omega
  case returned =>
    intro k v' h
    rw [hret] at h
    refine hmem.mpr ?_
    rcases Nat.lt_or_ge k (returns l).length with hk | hk
    · rw [List.getElem?_append_left hk] at h
      exact hi.returned h
    · rw [List.getElem?_append_right hk] at h
      obtain ⟨hk0, hv⟩ := List.getElem?_eq_some_iff.mp h
      simp only [List.length_singleton] at hk0
      have hkl : k = (returns l).length := by omega
      subst hkl
      have hvv : v = v' := by simpa using h
      exact hvv ▸ hi.returning hpc

/-- Every step that meets the condition keeps the invariant. -/
theorem tickets_moves [Fintype W] {s s' : State W Unit}
    {l es : List Event} {a : Act W Unit} (hf : Flow s l) (hi : Tickets s l)
    (hguard : StoredFirst (s, l) a) (hm : Moves s a s' es) :
    Tickets s' (l ++ es) := by
  cases hm with
  | callWrite hpc =>
      rw [List.append_nil]
      exact tickets_writer hi (by simp [hpc]) (by simp) rfl rfl rfl
  | waitWrite hpc hsem =>
      rw [List.append_nil]
      exact tickets_writer hi (by simp [hpc]) (by simp) rfl rfl rfl
  | claimWrite hpc => exact tickets_claim hf hi hpc
  | store hpc => exact tickets_store hf hi hpc
  | postWrite hpc =>
      rw [List.append_nil]
      exact tickets_writer hi (by simp [hpc]) (by simp) rfl rfl rfl
  | callRead hpc =>
      rw [List.append_nil]
      exact tickets_reader (m := s.mem) hi (by rw [hpc]; rfl) rfl rfl rfl
        (by simp)
  | waitRead hpc hsem =>
      rw [List.append_nil]
      exact tickets_reader hi (by rw [hpc]; rfl) rfl rfl rfl (by simp)
  | claimRead hpc =>
      rw [List.append_nil]
      exact tickets_reader hi (by rw [hpc]; rfl) rfl rfl rfl (by simp)
  | load hpc =>
      simp only [StoredFirst, hpc] at hguard
      refine tickets_load hf hi hpc fun w v hs => hguard w ?_
      rw [hs]
      rfl
  | postRead hpc => exact tickets_return hi hpc

-- =============================================================== the k-th Read

/-- In every run whose loads all find their ticket stored, the `k`-th
`Read` returns the value of the `Write` that obtained ticket `k`. -/
theorem reads_match_of_stored_first [Fintype W] {s : State W Unit}
    {l : List Event}
    (h : (logged W Unit).ReachableVia StoredFirst (s, l)) :
    ReadsMatch l := by
  have hi : Tickets s l := by
    refine h.invariant (I := fun sl => Tickets sl.1 sl.2) tickets_init ?_
    rintro ⟨s, l⟩ a ⟨s', l'⟩ hr hi hguard hstep
    obtain ⟨es, hm, rfl⟩ := logged_moves hstep
    exact tickets_moves (flow_reachable hr) hi hguard hm
  intro k v hk v'
  have hin := hi.returned hk
  exact ⟨fun hin' => hi.claimed_inj hin' hin, fun hv => hv ▸ hin⟩

/-- Two `Write`s and a `Read`, the first `Write` done before the second
begins and the second still pending when the `Read` returns. -/
def orderlyRun : List (Act Bool Unit) :=
  [.callWrite false 7, .write false, .write false, .write false,
    .write false, .callWrite true 8, .callRead (), .write true, .read (),
    .read (), .write true, .read (), .read ()]

/-- The theorem at that run: its `Read` returned 7, ticket 0's value. -/
theorem reads_match_orderly :
    ∃ s l, (logged Bool Unit).run (logged Bool Unit).init orderlyRun
        = some (s, l) ∧ returns l = [7] ∧ ReadsMatch l := by
  obtain ⟨⟨s, l⟩, hrun, hl⟩ := Option.map_eq_some_iff.mp
    (by decide : ((logged Bool Unit).run (logged Bool Unit).init
        orderlyRun).map Prod.snd
      = some [.claimed 0 7, .stored, .claimed 1 8, .loaded, .returned 7])
  have hmeets : (logged Bool Unit).Meets StoredFirst
      (logged Bool Unit).init orderlyRun := by decide
  refine ⟨s, l, hrun, ?_, reads_match_of_stored_first
    (System.ReachableVia.init.run hmeets hrun)⟩
  rw [show l = _ from hl]
  rfl

/-- The first `Write` obtains ticket 0 and is overtaken before it
stores: the second `Write` stores and posts, and the reader goes on to
slot 0. -/
def overtakingRun : List (Act Bool Unit) :=
  [.callWrite false 7, .write false, .write false, .callWrite true 8,
    .write true, .write true, .write true, .write true, .callRead (),
    .read (), .read (), .read (), .read ()]

/-- There the first `Read` returns 0, which nobody wrote. -/
theorem overtaken_write :
    ¬ ∀ s l, (logged Bool Unit).Reachable (s, l) → ReadsMatch l := by
  intro hall
  obtain ⟨⟨s, l⟩, hrun, hl⟩ := Option.map_eq_some_iff.mp
    (by decide : ((logged Bool Unit).run (logged Bool Unit).init
        overtakingRun).map Prod.snd
      = some [.claimed 0 7, .claimed 1 8, .stored, .loaded, .returned 0])
  have hl' : l = _ := hl
  subst hl'
  have hmatch := hall s _ (System.reachable_iff_run.mpr ⟨_, hrun⟩) 0 0 rfl 0
  exact absurd (hmatch.mpr rfl) (by decide)

end DailyStudy.Sem
