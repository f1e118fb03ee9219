/-
What the missing lock of `deleteInstance` costs the singleton.

# The argument

Every live object is in one of three places: `m_SingleInstance` points to
it, a thread in `GetInstance` has it in its hands, or it is lost, because
a reset overwrote the pointer to it (`losses`, the log of the run). The
mutex keeps the second place apart from the first: while a thread creates
an object the pointer is null (`Creation`). So a second object can only
come to life beside a lost one, and an object can only be deleted twice
between its first `delete` and the reset after it. `Undisturbed` excludes
these two steps and no others.
-/
import DailyStudy.Instance.Basic
import DailyStudy.Lib.Owner

namespace DailyStudy.Instance

open Interleave

variable {T : Type}

-- ==================================================================== safety

/-- A thread is in `deleteInstance`. -/
def Pc.deleting : Pc → Bool
  | .check | .delete | .reset _ => true
  | _ => false

/-- One object at most, deleted once at most, and no dangling pointer
outside of `deleteInstance`. -/
structure Safe (s : State T) : Prop where
  one_live : ∀ x y, s.statics.heap.Live x → s.statics.heap.Live y → x = y
  deleted_once : s.statics.heap.deleted.Nodup
  not_dangling : (∀ t, (s.pc t).deleting = false) →
    ∀ x, s.statics.singleInstance = some x → x ∉ s.statics.heap.deleted

-- ============================================================== the condition

/-- The object a step loses: a reset overwrites the pointer to it, and
nobody deleted it. -/
def losses (s : State T) : Act T → List Nat
  | .move t _ =>
      match s.pc t, s.statics.singleInstance with
      | .reset _, some x => if x ∈ s.statics.heap.deleted then [] else [x]
      | _, _ => []
  | _ => []

/-- The program, with the log of the objects it has lost. -/
def logged (T : Type) [DecidableEq T] : System (State T × List Nat) (Act T) :=
  (singleton T).withLog losses

/-- A `delete` does not come between another thread's `delete` of the
same object and its reset, and no allocation succeeds once an object is
lost. -/
def Undisturbed (s : State T × List Nat) : Act T → Prop
  | .move t fails =>
      (s.1.pc t = .delete → ∀ u, s.1.pc u = .reset s.1.statics.singleInstance →
        s.1.statics.singleInstance = none)
      ∧ (s.1.pc t = .alloc → fails = false → s.2 = [])
  | _ => True

instance [Fintype T] (s : State T × List Nat) (a : Act T) :
    Decidable (Undisturbed s a) := by
  cases a <;> unfold Undisturbed <;> infer_instance

-- =================================================================== the views

/-- Inside `GetInstance`, with the mutex. -/
def Pc.locked : Pc → Bool
  | .test | .alloc | .assign _ | .load | .unlock _ => true
  | _ => false

/-- Between the test that found the pointer null and the assignment. -/
def Pc.creating : Pc → Bool
  | .alloc | .assign _ => true
  | _ => false

/-- The object in a thread's hands: allocated and not yet assigned. -/
def Pc.hands : Pc → Option Nat
  | .assign value => value
  | _ => none

/-- The object a thread has deleted without having reset the pointer. -/
def Pc.gone : Pc → Option Nat
  | .reset operand => operand
  | _ => none

theorem Pc.creating_of_hands {pc : Pc} {x : Nat} (h : pc.hands = some x) :
    pc.creating = true := by
  cases pc with
  | assign value => rfl
  | _ => cases h

theorem Pc.locked_of_creating {pc : Pc} (h : pc.creating = true) :
    pc.locked = true := by
  cases pc with
  | alloc => rfl
  | assign value => rfl
  | _ => cases h

theorem Pc.deleting_of_gone {pc : Pc} {x : Nat} (h : pc.gone = some x) :
    pc.deleting = true := by
  cases pc with
  | reset operand => rfl
  | _ => cases h

/-- The gone object is the operand of the `delete`. -/
theorem Pc.eq_reset_of_gone {pc : Pc} {x : Nat} (h : pc.gone = some x) :
    pc = .reset (some x) := by
  cases pc with
  | reset operand => exact congrArg Pc.reset h
  | _ => cases h

-- =================================================================== creation

/-- The threads inside `GetInstance` own the mutex, and while one of them
creates the object the pointer is null. -/
structure Creation (s : State T) : Prop where
  owner : Owns Pc.locked s.statics.mutex s.pc
  null : ∀ t, (s.pc t).creating = true → s.statics.singleInstance = none

/-- One thread at most creates. -/
theorem Creation.unique {s : State T} (h : Creation s) {t u : T}
    (ht : (s.pc t).locked = true) (hu : (s.pc u).creating = true) :
    u = t :=
  h.owner.unique (Pc.locked_of_creating hu) ht

variable [DecidableEq T]

theorem creation_init : Creation (singleton T).init where
  owner := owns_const rfl
  null _ h := by cases h

/-- A thread moves and does not touch the mutex. -/
private theorem Creation.move {s s' : State T} (h : Creation s) {t : T}
    {old new : Pc} (hpc : s.pc t = old)
    (hpc' : s'.pc = Function.update s.pc t new)
    (hmutex : s'.statics.mutex = s.statics.mutex)
    (hlocked : new.locked = old.locked)
    (hnew : new.creating = true → s'.statics.singleInstance = none)
    (hothers : ∀ u ≠ t, (s.pc u).creating = true →
      s'.statics.singleInstance = none) :
    Creation s' where
  owner := by
    rw [hpc', hmutex]
    exact h.owner.stay hpc hlocked
  null := by
    rw [hpc']
    exact (Function.forall_update_iff s.pc fun _ pc =>
      pc.creating = true → _).mpr ⟨hnew, hothers⟩

/-- A thread moves and touches neither the mutex nor the pointer. -/
private theorem Creation.quiet {s s' : State T} (h : Creation s) {t : T}
    {old new : Pc} (hpc : s.pc t = old)
    (hpc' : s'.pc = Function.update s.pc t new)
    (hmutex : s'.statics.mutex = s.statics.mutex)
    (hptr : s'.statics.singleInstance = s.statics.singleInstance)
    (hlocked : new.locked = old.locked)
    (hnew : new.creating = true → s.statics.singleInstance = none) :
    Creation s' := by
  apply h.move hpc hpc' hmutex hlocked
  · rw [hptr]
    exact hnew
  · intro u _ hu
    rw [hptr]
    exact h.null u hu

/-- The mutex changes hands, and the pointer does not change. -/
private theorem Creation.mutex {s s' : State T} (h : Creation s) {t : T}
    {new : Pc} (hpc' : s'.pc = Function.update s.pc t new)
    (hptr : s'.statics.singleInstance = s.statics.singleInstance)
    (howner : Owns Pc.locked s'.statics.mutex (Function.update s.pc t new))
    (hnew : new.creating = true → s.statics.singleInstance = none) :
    Creation s' where
  owner := by
    rw [hpc']
    exact howner
  null := by
    rw [hpc', hptr]
    exact (Function.forall_update_iff s.pc fun _ pc =>
      pc.creating = true → _).mpr ⟨hnew, fun u _ => h.null u⟩

theorem creation_moves {s s' : State T} {a : Act T} (h : Creation s)
    (hm : Moves s a s') : Creation s' := by
  cases hm with
  | getInstance hpc => exact h.quiet hpc rfl rfl rfl rfl nofun
  | deleteInstance hpc => exact h.quiet hpc rfl rfl rfl rfl nofun
  | lock hpc hfree =>
      exact h.mutex rfl rfl (h.owner.acquire hfree rfl) nofun
  | absent hpc hnull => exact h.quiet hpc rfl rfl rfl rfl fun _ => hnull
  | present hpc _ => exact h.quiet hpc rfl rfl rfl rfl nofun
  | @alloc t hpc =>
      have hnull := h.null t (by rw [hpc]; rfl)
      exact h.quiet hpc rfl rfl rfl rfl fun _ => hnull
  | @allocFails t hpc =>
      have hnull := h.null t (by rw [hpc]; rfl)
      exact h.quiet hpc rfl rfl rfl rfl fun _ => hnull
  | @assign t _ value hpc =>
      refine h.move hpc rfl rfl rfl nofun ?_
      intro u hu hc
      exact absurd (h.unique (by rw [hpc]; rfl) hc) hu
  | load hpc => exact h.quiet hpc rfl rfl rfl rfl nofun
  | unlock hpc =>
      exact h.mutex rfl rfl (h.owner.release hpc rfl rfl) nofun
  | checkNull hpc _ => exact h.quiet hpc rfl rfl rfl rfl nofun
  | check hpc _ => exact h.quiet hpc rfl rfl rfl rfl nofun
  | deleteNull hpc _ => exact h.quiet hpc rfl rfl rfl rfl nofun
  | delete hpc _ => exact h.quiet hpc rfl rfl rfl rfl nofun
  | reset hpc =>
      exact h.move hpc rfl rfl rfl nofun fun _ _ _ => rfl

-- ================================================================ the ledger

/-- Where the live objects are, and what the pointers in the program point
to. -/
structure Ledger (s : State T) (lost : List Nat) : Prop where
  located : ∀ x, s.statics.heap.Live x → s.statics.singleInstance = some x
    ∨ (∃ t, (s.pc t).hands = some x) ∨ x ∈ lost
  one_live : ∀ x y, s.statics.heap.Live x → s.statics.heap.Live y → x = y
  held : ∀ t x, (s.pc t).hands = some x →
    s.statics.heap.Live x ∧ x ∉ lost
  pointed : ∀ x, s.statics.singleInstance = some x →
    x < s.statics.heap.allocated
      ∧ (x ∈ s.statics.heap.deleted → ∃ t, (s.pc t).gone = some x)
  gone : ∀ t x, (s.pc t).gone = some x → x ∈ s.statics.heap.deleted
  lost_live : ∀ x ∈ lost,
    s.statics.heap.Live x ∧ s.statics.singleInstance ≠ some x
  deleted_once : s.statics.heap.deleted.Nodup
  old : ∀ x ∈ s.statics.heap.deleted, x < s.statics.heap.allocated

omit [DecidableEq T] in
/-- The ledger makes the state safe. -/
theorem Ledger.safe {s : State T} {lost : List Nat} (h : Ledger s lost) :
    Safe s where
  one_live := h.one_live
  deleted_once := h.deleted_once
  not_dangling hquiet x hptr hdel := by
    obtain ⟨t, ht⟩ := (h.pointed x hptr).2 hdel
    have hin := Pc.deleting_of_gone ht
    rw [hquiet t] at hin
    cases hin

theorem ledger_init : Ledger (singleton T).init [] where
  located x hx := absurd hx.1 (Nat.not_lt_zero x)
  one_live x _ hx _ := absurd hx.1 (Nat.not_lt_zero x)
  held _ _ := nofun
  pointed _ := nofun
  gone _ _ := nofun
  lost_live _ := nofun
  deleted_once := List.nodup_nil
  old _ := nofun

/-- A thread moves between places that are the same to the ledger, and
changes neither the heap nor the pointer. -/
private theorem Ledger.quiet {s s' : State T} {lost : List Nat}
    (h : Ledger s lost) {t : T} {old new : Pc} (hpc : s.pc t = old)
    (hpc' : s'.pc = Function.update s.pc t new)
    (hheap : s'.statics.heap = s.statics.heap)
    (hptr : s'.statics.singleInstance = s.statics.singleInstance)
    (hhands : new.hands = old.hands) (hgone : new.gone = old.gone) :
    Ledger s' lost := by
  have hhands' : ∀ u, (s'.pc u).hands = (s.pc u).hands := by
    rw [hpc']
    exact view_update Pc.hands hpc hhands
  have hgone' : ∀ u, (s'.pc u).gone = (s.pc u).gone := by
    rw [hpc']
    exact view_update Pc.gone hpc hgone
  exact {
    located := by
      simp only [hheap, hptr, hhands']
      exact h.located
    one_live := by
      rw [hheap]
      exact h.one_live
    held := by
      simp only [hheap, hhands']
      exact h.held
    pointed := by
      simp only [hheap, hptr, hgone']
      exact h.pointed
    gone := by
      simp only [hheap, hgone']
      exact h.gone
    lost_live := by
      rw [hheap, hptr]
      exact h.lost_live
    deleted_once := by
      rw [hheap]
      exact h.deleted_once
    old := by
      rw [hheap]
      exact h.old }

omit [DecidableEq T] in
/-- A thread about to allocate finds no live object, if none is lost. -/
theorem Ledger.none_live {s : State T} (hc : Creation s) (h : Ledger s [])
    {t : T} (hpc : s.pc t = .alloc) (x : Nat) : ¬ s.statics.heap.Live x := by
  intro hx
  have hcreating : (s.pc t).creating = true := by
    rw [hpc]
    rfl
  rcases h.located x hx with hptr | ⟨u, hu⟩ | hlost
  · rw [hc.null t hcreating] at hptr
    cases hptr
  · have hut := hc.unique (Pc.locked_of_creating hcreating)
      (Pc.creating_of_hands hu)
    rw [hut, hpc] at hu
    cases hu
  · cases hlost

/-- An object comes to life where there is none. -/
private theorem Ledger.alloc {s : State T} (hc : Creation s)
    (h : Ledger s []) {t : T} (hpc : s.pc t = .alloc) :
    Ledger {
      statics := { s.statics with
        heap := { s.statics.heap with
          allocated := s.statics.heap.allocated + 1 } }
      pc := Function.update s.pc t
        (.assign (some s.statics.heap.allocated)) } [] := by
  have hnone := h.none_live hc hpc
  have hnull := hc.null t (by rw [hpc]; rfl)
  -- the new object is the only one alive
  have honly : ∀ x, x < s.statics.heap.allocated + 1 →
      x ∉ s.statics.heap.deleted → x = s.statics.heap.allocated := by
    intro x hlt hdel
    have hnot : ¬ x < s.statics.heap.allocated := fun hx => hnone x ⟨hx, hdel⟩
    omega
  exact {
    located := fun x hx => by
      refine .inr (.inl ⟨t, ?_⟩)
      show (Function.update s.pc t _ t).hands = some x
      rw [Function.update_self, honly x hx.1 hx.2]
      rfl
    one_live := fun x y hx hy =>
      (honly x hx.1 hx.2).trans (honly y hy.1 hy.2).symm
    held := fun u x hx => by
      rcases view_cases Pc.hands hx with ⟨-, hnew⟩ | ⟨-, hold⟩
      · obtain rfl := Option.some.inj hnew
        refine ⟨⟨Nat.lt_succ_self _, fun hdel => ?_⟩, List.not_mem_nil⟩
        exact Nat.lt_irrefl _ (h.old _ hdel)
      · exact absurd (h.held u x hold).1 (hnone x)
    pointed := fun x hx => by
      have hx' : s.statics.singleInstance = some x := hx
      rw [hnull] at hx'
      cases hx'
    gone := fun u x hx => by
      rcases view_cases Pc.gone hx with ⟨-, hnew⟩ | ⟨-, hold⟩
      · cases hnew
      · exact h.gone u x hold
    lost_live := nofun
    deleted_once := h.deleted_once
    old := fun x hx => Nat.lt_succ_of_lt (h.old x hx) }

/-- The object goes from a thread's hands to the pointer. -/
private theorem Ledger.assign {s : State T} {lost : List Nat}
    (hc : Creation s) (h : Ledger s lost) {t : T} {value : Option Nat}
    (hpc : s.pc t = .assign value) :
    Ledger {
      statics := { s.statics with singleInstance := value }
      pc := Function.update s.pc t .load } lost := by
  have hcreating : (s.pc t).creating = true := by
    rw [hpc]
    rfl
  have hnull := hc.null t hcreating
  have hself : ∀ {u x}, (s.pc u).hands = some x → u = t ∧ value = some x := by
    intro u x hu
    have hut := hc.unique (Pc.locked_of_creating hcreating)
      (Pc.creating_of_hands hu)
    rw [hut, hpc] at hu
    exact ⟨hut, hu⟩
  have hheld : ∀ {x}, value = some x →
      s.statics.heap.Live x ∧ x ∉ lost := by
    intro x hx
    exact h.held t x (by rw [hpc]; exact hx)
  exact {
    located := fun x hx => by
      rcases h.located x hx with hptr | ⟨u, hu⟩ | hlost
      · rw [hnull] at hptr
        cases hptr
      · exact .inl (hself hu).2
      · exact .inr (.inr hlost)
    one_live := h.one_live
    held := fun u x hx => by
      rcases view_cases Pc.hands hx with ⟨-, hnew⟩ | ⟨hut, hold⟩
      · cases hnew
      · exact absurd (hself hold).1 hut
    pointed := fun x hx => by
      obtain ⟨hlive, -⟩ := hheld hx
      exact ⟨hlive.1, fun hdel => absurd hdel hlive.2⟩
    gone := fun u x hx => by
      rcases view_cases Pc.gone hx with ⟨-, hnew⟩ | ⟨-, hold⟩
      · cases hnew
      · exact h.gone u x hold
    lost_live := fun x hx =>
      ⟨(h.lost_live x hx).1, fun hptr => (hheld hptr).2 hx⟩
    deleted_once := h.deleted_once
    old := h.old }

/-- The object the pointer points to is deleted, if nobody has. -/
private theorem Ledger.delete {s : State T} {lost : List Nat}
    (hc : Creation s) (h : Ledger s lost) (t : T) {x : Nat}
    (hptr : s.statics.singleInstance = some x)
    (hnew : x ∉ s.statics.heap.deleted) :
    Ledger {
      statics := { s.statics with
        heap := { s.statics.heap with
          deleted := s.statics.heap.deleted ++ [x] } }
      pc := Function.update s.pc t (.reset (some x)) } lost := by
  have hnobody : ∀ {u y}, (s.pc u).hands ≠ some y := by
    intro u y hu
    have hnull := hc.null u (Pc.creating_of_hands hu)
    rw [hnull] at hptr
    cases hptr
  have hlive : ∀ {y}, y < s.statics.heap.allocated →
      y ∉ s.statics.heap.deleted ++ [x] → s.statics.heap.Live y :=
    fun hlt hy => ⟨hlt, fun hdel => hy (List.mem_append_left _ hdel)⟩
  exact {
    located := fun y hy => by
      rcases h.located y (hlive hy.1 hy.2) with hptr' | ⟨u, hu⟩ | hlost
      · exact .inl hptr'
      · exact absurd hu hnobody
      · exact .inr (.inr hlost)
    one_live := fun y z hy hz =>
      h.one_live y z (hlive hy.1 hy.2) (hlive hz.1 hz.2)
    held := fun u y hy => by
      rcases view_cases Pc.hands hy with ⟨-, hnew⟩ | ⟨-, hold⟩
      · cases hnew
      · exact absurd hold hnobody
    pointed := fun y hy => by
      refine ⟨(h.pointed y hy).1, fun _ => ⟨t, ?_⟩⟩
      show (Function.update s.pc t (.reset (some x)) t).gone = some y
      rw [Function.update_self, ← hy, hptr]
      rfl
    gone := fun u y hy => by
      rcases view_cases Pc.gone hy with ⟨-, hself⟩ | ⟨-, hold⟩
      · obtain rfl := Option.some.inj hself
        exact List.mem_append_right _ List.mem_cons_self
      · exact List.mem_append_left _ (h.gone u y hold)
    lost_live := fun y hy => by
      obtain ⟨⟨hlt, hdel⟩, hother⟩ := h.lost_live y hy
      refine ⟨⟨hlt, fun hmem => ?_⟩, hother⟩
      rcases List.mem_append.mp hmem with hold | hself
      · exact hdel hold
      · rw [List.mem_singleton.mp hself] at hother
        exact hother hptr
    deleted_once := List.concat_eq_append ▸ h.deleted_once.concat hnew
    old := fun y hy => by
      rcases List.mem_append.mp hy with hold | hself
      · exact h.old y hold
      · rw [List.mem_singleton.mp hself]
        exact (h.pointed x hptr).1 }

omit [DecidableEq T] in
/-- What a reset loses. -/
theorem mem_losses_reset {s : State T} {t : T} {operand : Option Nat}
    (hpc : s.pc t = .reset operand) (fails : Bool) {x : Nat} :
    x ∈ losses s (.move t fails)
      ↔ s.statics.singleInstance = some x
        ∧ x ∉ s.statics.heap.deleted := by
  simp only [losses, hpc]
  cases s.statics.singleInstance with
  | none => simp
  | some y =>
      by_cases hdel : y ∈ s.statics.heap.deleted
      · simp only [if_pos hdel]
        refine iff_of_false List.not_mem_nil fun hx => ?_
        exact hx.2 (Option.some.inj hx.1 ▸ hdel)
      · simp only [if_neg hdel, List.mem_singleton, Option.some.injEq]
        constructor
        · intro hx
          exact ⟨hx.symm, hx ▸ hdel⟩
        · exact fun hx => hx.1.symm

/-- A reset loses the object the pointer points to, unless it is
deleted. -/
private theorem Ledger.reset {s : State T} {lost : List Nat}
    (hc : Creation s) (h : Ledger s lost) {t : T} {operand : Option Nat}
    (hpc : s.pc t = .reset operand) (fails : Bool) :
    Ledger {
      statics := { s.statics with singleInstance := none }
      pc := Function.update s.pc t .idle }
      (lost ++ losses s (.move t fails)) := by
  have hloss : ∀ {x}, x ∈ losses s (.move t fails) ↔ _ :=
    mem_losses_reset hpc fails
  exact {
    located := fun x hx => by
      rcases h.located x hx with hptr | ⟨u, hu⟩ | hlost
      · have hmem := hloss.mpr ⟨hptr, hx.2⟩
        exact .inr (.inr (List.mem_append_right _ hmem))
      · have hidle : Pc.idle.hands = (Pc.reset operand).hands := rfl
        have hview := view_update Pc.hands hpc hidle u
        exact .inr (.inl ⟨u, hview.trans hu⟩)
      · exact .inr (.inr (List.mem_append_left _ hlost))
    one_live := h.one_live
    held := fun u x hx => by
      rcases view_cases Pc.hands hx with ⟨-, hnew⟩ | ⟨-, hold⟩
      · cases hnew
      · obtain ⟨hlive, hkept⟩ := h.held u x hold
        refine ⟨hlive, fun hmem => ?_⟩
        rcases List.mem_append.mp hmem with hlost | hnew
        · exact hkept hlost
        · have hptr := (hloss.mp hnew).1
          rw [hc.null u (Pc.creating_of_hands hold)] at hptr
          cases hptr
    pointed := fun x => nofun
    gone := fun u x hx => by
      rcases view_cases Pc.gone hx with ⟨-, hnew⟩ | ⟨-, hold⟩
      · cases hnew
      · exact h.gone u x hold
    lost_live := fun x hx => by
      refine ⟨?_, nofun⟩
      rcases List.mem_append.mp hx with hlost | hnew
      · exact (h.lost_live x hlost).1
      · obtain ⟨hptr, hdel⟩ := hloss.mp hnew
        exact ⟨(h.pointed x hptr).1, hdel⟩
    deleted_once := h.deleted_once
    old := h.old }

-- =============================================================== preservation

omit [DecidableEq T] in
/-- Only resets lose objects. -/
theorem losses_of_ne_reset {s : State T} {t : T} {pc : Pc} {fails : Bool}
    (hpc : s.pc t = pc) (hne : ∀ operand, pc ≠ .reset operand) :
    losses s (.move t fails) = [] := by
  subst hpc
  cases hpc : s.pc t with
  | reset operand => exact absurd hpc (hne operand)
  | _ => simp only [losses, hpc]

/-- Undisturbed steps keep the ledger. -/
theorem ledger_moves {s s' : State T} {lost : List Nat} {a : Act T}
    (hc : Creation s) (h : Ledger s lost) (hguard : Undisturbed (s, lost) a)
    (hm : Moves s a s') : Ledger s' (lost ++ losses s a) := by
  have hkeep : losses s a = [] → Ledger s' lost →
      Ledger s' (lost ++ losses s a) := by
    intro hnil hl
    rw [hnil, List.append_nil]
    exact hl
  cases hm with
  | getInstance hpc => exact hkeep rfl (h.quiet hpc rfl rfl rfl rfl rfl)
  | deleteInstance hpc => exact hkeep rfl (h.quiet hpc rfl rfl rfl rfl rfl)
  | lock hpc _ =>
      apply hkeep (losses_of_ne_reset hpc nofun)
      exact h.quiet hpc rfl rfl rfl rfl rfl
  | absent hpc _ =>
      apply hkeep (losses_of_ne_reset hpc nofun)
      exact h.quiet hpc rfl rfl rfl rfl rfl
  | present hpc _ =>
      apply hkeep (losses_of_ne_reset hpc nofun)
      exact h.quiet hpc rfl rfl rfl rfl rfl
  | alloc hpc =>
      apply hkeep (losses_of_ne_reset hpc nofun)
      obtain rfl : lost = [] := hguard.2 hpc rfl
      exact h.alloc hc hpc
  | allocFails hpc =>
      apply hkeep (losses_of_ne_reset hpc nofun)
      exact h.quiet hpc rfl rfl rfl rfl rfl
  | assign hpc =>
      apply hkeep (losses_of_ne_reset hpc nofun)
      exact h.assign hc hpc
  | load hpc =>
      apply hkeep (losses_of_ne_reset hpc nofun)
      exact h.quiet hpc rfl rfl rfl rfl rfl
  | unlock hpc =>
      apply hkeep (losses_of_ne_reset hpc nofun)
      exact h.quiet hpc rfl rfl rfl rfl rfl
  | checkNull hpc _ =>
      apply hkeep (losses_of_ne_reset hpc nofun)
      exact h.quiet hpc rfl rfl rfl rfl rfl
  | check hpc _ =>
      apply hkeep (losses_of_ne_reset hpc nofun)
      exact h.quiet hpc rfl rfl rfl rfl rfl
  | deleteNull hpc _ =>
      apply hkeep (losses_of_ne_reset hpc nofun)
      exact h.quiet hpc rfl rfl rfl rfl rfl
  | @delete t _ x hpc hptr =>
      apply hkeep (losses_of_ne_reset hpc nofun)
      apply h.delete hc t hptr
      intro hdel
      obtain ⟨u, hu⟩ := (h.pointed x hptr).2 hdel
      have hnull := hguard.1 hpc u
      rw [hptr] at hnull
      exact absurd (hnull (Pc.eq_reset_of_gone hu)) nofun
  | reset hpc => exact h.reset hc hpc _

omit [DecidableEq T] in
/-- Only deletes and allocations can be disturbed. -/
theorem undisturbed_of_ne {s : State T} {lost : List Nat} {t : T} {pc : Pc}
    {fails : Bool} (hpc : s.pc t = pc) (hdelete : pc ≠ .delete)
    (halloc : pc ≠ .alloc) : Undisturbed (s, lost) (.move t fails) :=
  ⟨fun h => absurd (hpc.symm.trans h) hdelete,
    fun h => absurd (hpc.symm.trans h) halloc⟩

/-- After a step that is disturbed the state is not safe. -/
theorem not_safe_moves {s s' : State T} {lost : List Nat} {a : Act T}
    (h : Ledger s lost) (hguard : ¬ Undisturbed (s, lost) a)
    (hm : Moves s a s') : ¬ Safe s' := by
  intro hsafe
  apply hguard
  cases hm with
  | getInstance _ => trivial
  | deleteInstance _ => trivial
  | lock hpc _ => exact undisturbed_of_ne hpc nofun nofun
  | absent hpc _ => exact undisturbed_of_ne hpc nofun nofun
  | present hpc _ => exact undisturbed_of_ne hpc nofun nofun
  | alloc hpc =>
      refine ⟨fun hpc' => absurd (hpc.symm.trans hpc') nofun, fun _ _ => ?_⟩
      -- a lost object would live beside the new one
      rcases lost with _ | ⟨x, lost⟩
      · rfl
      · obtain ⟨⟨hlt, hdel⟩, -⟩ := h.lost_live x List.mem_cons_self
        have heq := hsafe.one_live x s.statics.heap.allocated
          ⟨Nat.lt_succ_of_lt hlt, hdel⟩
          ⟨Nat.lt_succ_self _, fun hd => Nat.lt_irrefl _ (h.old _ hd)⟩
        omega
  | allocFails hpc =>
      exact ⟨fun hpc' => absurd (hpc.symm.trans hpc') nofun, fun _ => nofun⟩
  | assign hpc => exact undisturbed_of_ne hpc nofun nofun
  | load hpc => exact undisturbed_of_ne hpc nofun nofun
  | unlock hpc => exact undisturbed_of_ne hpc nofun nofun
  | checkNull hpc _ => exact undisturbed_of_ne hpc nofun nofun
  | check hpc _ => exact undisturbed_of_ne hpc nofun nofun
  | deleteNull hpc hnull =>
      exact ⟨fun _ _ _ => hnull,
        fun hpc' => absurd (hpc.symm.trans hpc') nofun⟩
  | @delete t _ x hpc hptr =>
      refine ⟨fun _ u hu => ?_, fun hpc' => absurd (hpc.symm.trans hpc') nofun⟩
      -- the object the other thread deleted is deleted again
      have hgone : (s.pc u).gone = some x := by
        rw [hu, ← hptr]
        rfl
      have hapart := (List.nodup_append.mp hsafe.deleted_once).2.2 x
        (h.gone u x hgone) x List.mem_cons_self
      exact absurd rfl hapart
  | reset hpc => exact undisturbed_of_ne hpc nofun nofun

-- ==================================================================== the runs

/-- What undisturbed runs keep. -/
def Sound (s : State T × List Nat) : Prop := Creation s.1 ∧ Ledger s.1 s.2

/-- Along a run, the singleton is safe in every state exactly when no step
of the run is disturbed. -/
theorem singleton_safe_iff {acts : List (Act T)} {t : State T × List Nat}
    (hrun : (logged T).run (logged T).init acts = some t) :
    (logged T).Always (fun s => Safe s.1) (logged T).init acts
      ↔ (logged T).Meets Undisturbed (logged T).init acts := by
  apply System.withLog_always_iff_meets
    (I := fun s log => Sound (s, log))
  · exact fun h => h.2.safe
  · intro s log a s' h hguard hstep
    have hm := step_moves hstep
    exact ⟨creation_moves h.1 hm, ledger_moves h.1 h.2 hguard hm⟩
  · intro s log a s' h hguard hstep
    exact not_safe_moves h.2 hguard (step_moves hstep)
  · exact ⟨creation_init, ledger_init⟩
  · exact hrun

/-- A whole call of `GetInstance` that finds no object. -/
def create (t : Bool) : List (Act Bool) :=
  [.getInstance t, .move t false, .move t false, .move t false,
    .move t false, .move t false, .move t false]

/-- Both threads call `GetInstance`: one creates the object while the
other waits for the lock, and deletes it while the other has found it. Then
the other deletes nothing, and creates a new one. -/
def overlapping : List (Act Bool) :=
  [.getInstance false, .getInstance true, .move false false,
    .move false false, .move false false, .move false false,
    .move false false, .move false false, .move true false,
    .deleteInstance false, .move false false, .move true false,
    .move false false, .move true false, .move false false,
    .move true false, .deleteInstance true, .getInstance false,
    .move false false, .move true false, .move false false,
    .move false false, .move false false, .move false false,
    .move false false]

/-- The theorem at that run. -/
theorem singleton_safe_overlapping :
    ((logged Bool).run (logged Bool).init overlapping).map
        (fun sl => (sl.1.statics.heap.allocated, sl.1.statics.heap.deleted))
      = some (2, [0])
      ∧ (logged Bool).Always (fun s => Safe s.1) (logged Bool).init
        overlapping := by
  have hend : ((logged Bool).run (logged Bool).init overlapping).map
      (fun sl => (sl.1.statics.heap.allocated, sl.1.statics.heap.deleted))
      = some (2, [0]) := by decide
  obtain ⟨t, hrun, -⟩ := Option.map_eq_some_iff.mp hend
  exact ⟨hend, (singleton_safe_iff hrun).mpr (by decide)⟩

/-- Both threads test the pointer, and then both delete the object. -/
def bothDelete : List (Act Bool) :=
  create false
    ++ [.deleteInstance false, .deleteInstance true, .move false false,
      .move true false, .move false false, .move true false]

/-- There one object is deleted twice. -/
theorem deleted_twice :
    ¬ ∀ s, (singleton Bool).Reachable s → Safe s := by
  intro hall
  obtain ⟨s, hrun, htwice⟩ := Option.map_eq_some_iff.mp
    (by decide : ((singleton Bool).run (singleton Bool).init bothDelete).map
      (fun s => s.statics.heap.deleted) = some [0, 0])
  have hsafe := hall s (System.reachable_iff_run.mpr ⟨_, hrun⟩)
  have hnodup := hsafe.deleted_once
  rw [htwice] at hnodup
  exact absurd hnodup (by decide)

end DailyStudy.Instance
