/-
Whose turn it is: the invariant of the turn-taking program.

# The invariant

`k` counts the flips of the flag. It says whose turn it is (`turn k`),
how many rounds each thread has finished (`turnsOf`), and what is printed
(`printed k`, and the lines of the turn being taken). A thread prints and
flips only in its own turn, because it evaluated the predicate under the
mutex and nobody else flips.

One condition variable serves two predicates, but with two threads the
only possible waiter is the other one: whoever's turn it is is asleep
only between the flip that made it his turn and the `notify_one` that
follows (`InTurn.wakes`). In the last round there may be nobody left to
notify; then the other thread has finished all its rounds.
-/
import DailyStudy.Lib.Census
import DailyStudy.Lib.Owner
import DailyStudy.Turns.Basic

namespace DailyStudy.Turns

open Interleave

-- =================================================================== turns

/-- Whose turn it is after `k` flips of the flag. -/
def turn (k : Nat) : Thread := if k % 2 = 0 then .child else .father

/-- How many of the first `k` turns were the thread's. -/
def turnsOf (k : Nat) : Thread → Nat
  | .child => (k + 1) / 2
  | .father => k / 2

/-- What the first `k` turns print. -/
def printed : Nat → List String
  | 0 => []
  | k + 1 => printed k ++ List.replicate (turn k).num (turn k).str

theorem printed_succ (k : Nat) :
    printed (k + 1)
      = printed k ++ List.replicate (turn k).num (turn k).str := rfl

theorem Thread.num_inj {t t' : Thread} : t.num = t'.num ↔ t = t' := by
  cases t <;> cases t' <;> decide

theorem Thread.eq_other {t t' : Thread} : t ≠ t' ↔ t = t'.other := by
  cases t <;> cases t' <;> decide

theorem turn_succ (k : Nat) : turn (k + 1) = (turn k).other := by
  unfold turn
  rcases Nat.mod_two_eq_zero_or_one k with h | h
  · have hk : ¬ (k + 1) % 2 = 0 := by omega
    rw [if_pos h, if_neg hk]
    rfl
  · have hk : (k + 1) % 2 = 0 := by omega
    rw [if_pos hk, if_neg (by omega)]
    rfl

theorem turnsOf_turn (k : Nat) :
    turnsOf (k + 1) (turn k) = turnsOf k (turn k) + 1 := by
  unfold turn
  rcases Nat.mod_two_eq_zero_or_one k with h | h
  · rw [if_pos h]
    show (k + 1 + 1) / 2 = (k + 1) / 2 + 1
    omega
  · rw [if_neg (by omega)]
    show (k + 1) / 2 = k / 2 + 1
    omega

theorem turnsOf_other (k : Nat) :
    turnsOf (k + 1) (turn k).other = turnsOf k (turn k).other := by
  unfold turn
  rcases Nat.mod_two_eq_zero_or_one k with h | h
  · rw [if_pos h]
    show (k + 1) / 2 = k / 2
    omega
  · rw [if_neg (by omega)]
    show (k + 1 + 1) / 2 = (k + 1) / 2
    omega

/-- Whoever's turn it is has had no more turns than the other. -/
theorem turnsOf_le_other (k : Nat) :
    turnsOf k (turn k) ≤ turnsOf k (turn k).other := by
  unfold turn
  rcases Nat.mod_two_eq_zero_or_one k with h | h
  · rw [if_pos h]
    show (k + 1) / 2 ≤ k / 2
    omega
  · rw [if_neg (by omega)]
    show k / 2 ≤ (k + 1) / 2
    omega

theorem turnsOf_add (k : Nat) :
    turnsOf k .child + turnsOf k .father = k := by
  show (k + 1) / 2 + k / 2 = k
  omega

/-- Flipping the flag passes the turn on. -/
theorem flip_flag (k : Nat) :
    (if (turn k).num = 10 then 100 else 10) = (turn (k + 1)).num := by
  rw [turn_succ]
  cases turn k <;> rfl

-- ============================================================ program points

/-- How many rounds a thread has finished, up to the flip. -/
def Pc.rounds (count : Nat) : Pc → Nat
  | .loop i | .lock i | .check i | .asleep i | .woken i | .print i _
  | .toggle i => i
  | .notify i | .unlock i => i + 1
  | .done => count

/-- The loop counter is below the bound, or at it before the test. -/
def Pc.within (count : Nat) : Pc → Prop
  | .loop i => i ≤ count
  | .lock i | .check i | .asleep i | .woken i | .print i _ | .toggle i
  | .notify i | .unlock i => i < count
  | .done => True

/-- The mutex is held. -/
def Pc.critical : Pc → Bool
  | .check _ | .print _ _ | .toggle _ | .notify _ | .unlock _ => true
  | _ => false

/-- The thread is taking its turn. -/
def Pc.busy : Pc → Bool
  | .print _ _ | .toggle _ => true
  | _ => false

/-- What the thread has printed of the turn it is taking. -/
def Pc.lines (t : Thread) : Pc → List String
  | .print _ j => List.replicate j t.str
  | .toggle _ => List.replicate t.num t.str
  | _ => []

theorem Pc.rounds_le {count : Nat} {pc : Pc} (h : pc.within count) :
    pc.rounds count ≤ count := by
  cases pc with
  | loop i => exact h
  | done => exact Nat.le_refl count
  | notify i => exact h
  | unlock i => exact h
  | _ => exact Nat.le_of_lt h

/-- A thread taking its turn has a round to finish. -/
theorem Pc.rounds_lt {count : Nat} {pc : Pc} (h : pc.within count)
    (hbusy : pc.busy = true) : pc.rounds count < count := by
  cases pc with
  | print i j => exact h
  | toggle i => exact h
  | _ => cases hbusy

theorem Pc.lines_of_not_busy {pc : Pc} (t : Thread)
    (h : pc.busy = false) : pc.lines t = [] := by
  cases pc with
  | print i j => cases h
  | toggle i => cases h
  | _ => rfl

-- ============================================================ the invariant

/-- The flag has been flipped `k` times, and everything is as it should
be then. -/
structure InTurn (count : Nat) (s : State) (k : Nat) : Prop where
  flag : s.flag = (turn k).num
  rounds : ∀ t, (s.pc t).rounds count = turnsOf k t
  within : ∀ t, (s.pc t).within count
  owner : Owns Pc.critical s.mtex s.pc
  busy : ∀ t, (s.pc t).busy = true → t = turn k
  most : ∀ t i j, s.pc t = .print i j → j ≤ t.num
  out : s.out = printed k ++ (s.pc (turn k)).lines (turn k)
  wakes : ∀ i, s.pc (turn k) = .asleep i →
    ∃ i', s.pc (turn k).other = .notify i'

theorem inTurn_init (count : Nat) : InTurn count (program count).init 0 where
  flag := rfl
  rounds t := by cases t <;> rfl
  within t := Nat.zero_le count
  owner := owns_const rfl
  busy t h := by cases h
  most t i j h := by cases h
  out := rfl
  wakes i h := by cases h

-- ================================================================= one step

section Step

variable {count k : Nat} {s s' : State} {t : Thread} {new : Pc}

/-- A move that is no notification loses none: whoever's turn it is does
not fall asleep. -/
theorem wakes_keep (hi : InTurn count s k)
    (hpc : s'.pc = Function.update s.pc t new)
    (hold : ∀ i, s.pc t ≠ .notify i)
    (hnew : ∀ i, new = .asleep i → t ≠ turn k) :
    ∀ i, s'.pc (turn k) = .asleep i →
      ∃ i', s'.pc (turn k).other = .notify i' := by
  intro i hasleep
  rw [hpc] at hasleep ⊢
  rcases eq_or_ne (turn k) t with ht | ht
  · rw [ht, Function.update_self] at hasleep
    exact absurd ht.symm (hnew i hasleep)
  · rw [Function.update_of_ne ht] at hasleep
    obtain ⟨i', hn⟩ := hi.wakes i hasleep
    refine ⟨i', ?_⟩
    have hother : (turn k).other ≠ t := fun h => hold i' (h ▸ hn)
    rw [Function.update_of_ne hother]
    exact hn

/-- A move within the turn: no flip, and the printed lines keep up with
the program point. -/
theorem InTurn.keep (hi : InTurn count s k)
    (hpc : s'.pc = Function.update s.pc t new) (hflag : s'.flag = s.flag)
    (hrounds : new.rounds count = (s.pc t).rounds count)
    (hwithin : new.within count)
    (howner : Owns Pc.critical s'.mtex s'.pc)
    (hbusy : new.busy = true → t = turn k)
    (hmost : ∀ i j, new = .print i j → j ≤ t.num)
    (hout : s'.out = printed k ++ (s'.pc (turn k)).lines (turn k))
    (hwakes : ∀ i, s'.pc (turn k) = .asleep i →
      ∃ i', s'.pc (turn k).other = .notify i') :
    InTurn count s' k where
  flag := hflag.trans hi.flag
  rounds := by
    rw [hpc, Function.forall_update_iff s.pc
      fun t' pc => pc.rounds count = turnsOf k t']
    exact ⟨hrounds.trans (hi.rounds t), fun t' _ => hi.rounds t'⟩
  within := by
    rw [hpc, Function.forall_update_iff s.pc fun _ pc => pc.within count]
    exact ⟨hwithin, fun t' _ => hi.within t'⟩
  owner := howner
  busy := by
    rw [hpc, Function.forall_update_iff s.pc
      fun t' pc => pc.busy = true → t' = turn k]
    exact ⟨hbusy, fun t' _ => hi.busy t'⟩
  most := by
    rw [hpc, Function.forall_update_iff s.pc
      fun t' pc => ∀ i j, pc = .print i j → j ≤ t'.num]
    exact ⟨hmost, fun t' _ => hi.most t'⟩
  out := hout
  wakes := hwakes

/-- A move that prints nothing. -/
theorem lines_keep (hi : InTurn count s k)
    (hpc : s'.pc = Function.update s.pc t new) (hout : s'.out = s.out)
    (hnew : new.lines t = (s.pc t).lines t) :
    s'.out = printed k ++ (s'.pc (turn k)).lines (turn k) := by
  rw [hout, hi.out, hpc]
  rcases eq_or_ne (turn k) t with ht | ht
  · rw [ht, Function.update_self, hnew]
  · rw [Function.update_of_ne ht]

/-- A move that neither prints, flips nor notifies. -/
theorem InTurn.quiet {old : Pc} (hi : InTurn count s k)
    (hold : s.pc t = old) (hpc : s'.pc = Function.update s.pc t new)
    (hflag : s'.flag = s.flag) (hout : s'.out = s.out)
    (howner : Owns Pc.critical s'.mtex s'.pc)
    (hrounds : new.rounds count = old.rounds count)
    (hwithin : new.within count) (hlines : new.lines t = old.lines t)
    (hbusy : new.busy = true → t = turn k)
    (hmost : ∀ i j, new = .print i j → j ≤ t.num)
    (hnotify : ∀ i, old ≠ .notify i)
    (hasleep : ∀ i, new = .asleep i → t ≠ turn k) :
    InTurn count s' k := by
  subst hold
  exact hi.keep hpc hflag hrounds hwithin howner hbusy hmost
    (lines_keep hi hpc hout hlines) (wakes_keep hi hpc hnotify hasleep)

/-- Waking a waiter, asked for or not. -/
theorem InTurn.wake (hi : InTurn count s k) {i : Nat}
    (hpc : s.pc t = .asleep i) : InTurn count (s.setPc t (.woken i)) k := by
  have hin := hi.within t
  rw [hpc] at hin
  refine hi.quiet hpc rfl rfl rfl ?_ rfl hin rfl nofun nofun nofun nofun
  exact hi.owner.stay hpc rfl

/-- After the notification nobody is asleep. -/
theorem InTurn.notified (hi : InTurn count s k) {i : Nat}
    (hpc : s.pc t = .notify i) (hnone : ∀ t' i', s.pc t' ≠ .asleep i') :
    InTurn count (s.setPc t (.unlock i)) k := by
  have hin := hi.within t
  rw [hpc] at hin
  refine hi.keep rfl rfl ?_ ?_ ?_ ?_ ?_ ?_ ?_
  · rw [hpc]
    rfl
  · exact hin
  · exact hi.owner.stay hpc rfl
  · intro h
    cases h
  · intro i' j h
    cases h
  · exact lines_keep hi rfl rfl (by rw [hpc]; rfl)
  · intro i' h
    obtain ⟨-, hasleep⟩ := of_update_eq h (by simp)
    exact absurd hasleep (hnone _ i')

/-- A notification wakes the only possible waiter, so it is a wake-up
after which nobody is asleep. -/
theorem InTurn.notifyOne (hi : InTurn count s k) {t' : Thread} {i i' : Nat}
    (hpc : s.pc t = .notify i) (hpc' : s.pc t' = .asleep i') :
    InTurn count ((s.setPc t (.unlock i)).setPc t' (.woken i')) k := by
  have hne : t ≠ t' := fun h => by
    rw [h, hpc'] at hpc
    cases hpc
  have hcomm : (s.setPc t (.unlock i)).setPc t' (.woken i')
      = (s.setPc t' (.woken i')).setPc t (.unlock i) := by
    unfold State.setPc
    rw [Function.update_comm hne.symm]
  rw [hcomm]
  refine (hi.wake hpc').notified ?_ ?_
  · show Function.update s.pc t' (.woken i') t = .notify i
    rw [Function.update_of_ne hne]
    exact hpc
  · intro u j h
    obtain ⟨hu, hasleep⟩ := of_update_eq h (by simp)
    have hut : u = t := by
      rw [Thread.eq_other.mp hu, Thread.eq_other.mp hne]
    rw [hut, hpc] at hasleep
    cases hasleep

/-- A line is printed in the turn of the thread that prints it. -/
theorem InTurn.print (hi : InTurn count s k) {i j : Nat}
    (hpc : s.pc t = .print i j) (hlt : j < t.num) :
    InTurn count
      { s.setPc t (.print i (j + 1)) with out := s.out ++ [t.str] } k := by
  have hin := hi.within t
  have hturn : t = turn k := hi.busy t (by rw [hpc]; rfl)
  have hout := hi.out
  rw [hpc] at hin
  rw [← hturn, hpc] at hout
  refine hi.keep rfl rfl ?_ ?_ ?_ ?_ ?_ ?_ ?_
  · rw [hpc]
    rfl
  · exact hin
  · exact hi.owner.stay hpc rfl
  · exact fun _ => hturn
  · intro i' j' h
    cases h
    exact hlt
  · rw [← hturn]
    show s.out ++ [t.str]
      = printed k ++ (Function.update s.pc t (.print i (j + 1)) t).lines t
    rw [Function.update_self, hout]
    show _ = printed k ++ List.replicate (j + 1) t.str
    rw [List.replicate_succ', List.append_assoc]
    rfl
  · apply wakes_keep hi rfl
    · intro i' h
      rw [hpc] at h
      cases h
    · intro i' h
      cases h

/-- Flipping the flag ends the turn of whoever flips it and starts the
other's. -/
theorem InTurn.toggle (hi : InTurn count s k) {i : Nat}
    (hpc : s.pc t = .toggle i) :
    InTurn count
      { s.setPc t (.notify i) with
        flag := if s.flag = 10 then 100 else 10 } (k + 1) := by
  have hturn : t = turn k := hi.busy t (by rw [hpc]; rfl)
  have hother : turn (k + 1) ≠ t := by
    rw [hturn, turn_succ]
    exact Thread.eq_other.mpr rfl
  have hidle : ∀ u, u ≠ t → (s.pc u).busy = false := fun u hu =>
    Bool.eq_false_iff.mpr fun h => hu ((hi.busy u h).trans hturn.symm)
  refine ⟨?flag, ?rounds, ?within, ?owner, ?busy, ?most, ?out, ?wakes⟩
  case flag =>
    show (if s.flag = 10 then 100 else 10) = _
    rw [hi.flag]
    exact flip_flag k
  case rounds =>
    refine (Function.forall_update_iff s.pc
      fun u pc => pc.rounds count = turnsOf (k + 1) u).mpr ⟨?_, ?_⟩
    · have hrounds := hi.rounds t
      rw [hpc, hturn] at hrounds
      rw [hturn, turnsOf_turn, ← hrounds]
      rfl
    · intro u hu
      rw [hi.rounds u, Thread.eq_other.mp hu, hturn, turnsOf_other]
  case within =>
    have hin := hi.within t
    rw [hpc] at hin
    exact (Function.forall_update_iff s.pc fun _ pc => pc.within count).mpr
      ⟨hin, fun u _ => hi.within u⟩
  case owner => exact hi.owner.stay hpc rfl
  case busy =>
    refine (Function.forall_update_iff s.pc
      fun u pc => pc.busy = true → u = turn (k + 1)).mpr ⟨nofun, ?_⟩
    intro u hu h
    rw [hidle u hu] at h
    cases h
  case most =>
    intro u i' j h
    obtain ⟨-, hprint⟩ := of_update_eq h (by simp)
    exact hi.most u i' j hprint
  case out =>
    have hout := hi.out
    rw [← hturn, hpc] at hout
    show s.out = printed (k + 1)
      ++ (Function.update s.pc t (.notify i) (turn (k + 1))).lines _
    rw [Function.update_of_ne hother,
      Pc.lines_of_not_busy _ (hidle _ hother), List.append_nil, hout, hturn]
    rfl
  case wakes =>
    intro i' _
    refine ⟨i, ?_⟩
    have hback : (turn (k + 1)).other = t :=
      (Thread.eq_other.mp hother.symm).symm
    rw [hback]
    exact Function.update_self t (.notify i) s.pc

/-- Every step keeps the threads in turn. -/
theorem inTurn_step {a : Act} (hi : InTurn count s k)
    (h : Moves count s a s') : ∃ k', InTurn count s' k' := by
  cases h with
  | @enter t i hpc hlt =>
      refine ⟨k, hi.quiet hpc rfl rfl rfl ?_ rfl hlt rfl
        nofun nofun nofun nofun⟩
      exact hi.owner.stay hpc rfl
  | @leave t i hpc hge =>
      have hin : i ≤ count := by
        have := hi.within t
        rwa [hpc] at this
      have hrounds : count = i := by omega
      refine ⟨k, hi.quiet hpc rfl rfl rfl ?_ hrounds trivial rfl
        nofun nofun nofun nofun⟩
      exact hi.owner.stay hpc rfl
  | @lock t i hpc hfree =>
      have hin := hi.within t
      rcases hpc with hpc | hpc
      · rw [hpc] at hin
        refine ⟨k, hi.quiet hpc rfl rfl rfl ?_ rfl hin rfl
          nofun nofun nofun nofun⟩
        exact hi.owner.acquire hfree rfl
      · rw [hpc] at hin
        refine ⟨k, hi.quiet hpc rfl rfl rfl ?_ rfl hin rfl
          nofun nofun nofun nofun⟩
        exact hi.owner.acquire hfree rfl
  | @pass t i hpc hturn =>
      have hin := hi.within t
      rw [hpc] at hin
      -- the predicate holds exactly in the thread's own turn
      have hmine : t = turn k := Thread.num_inj.mp (hturn.trans hi.flag)
      refine ⟨k, hi.quiet hpc rfl rfl rfl ?_ rfl hin rfl
        (fun _ => hmine) ?_ nofun nofun⟩
      · exact hi.owner.stay hpc rfl
      · intro i' j h
        cases h
        exact Nat.zero_le _
  | @sleep t i hpc hturn =>
      have hin := hi.within t
      rw [hpc] at hin
      have hother : t ≠ turn k := fun h => hturn (by rw [h, hi.flag])
      refine ⟨k, hi.quiet hpc rfl rfl rfl ?_ rfl hin rfl
        nofun nofun nofun fun _ _ => hother⟩
      exact hi.owner.release hpc rfl rfl
  | @print t i j hpc hlt => exact ⟨k, hi.print hpc hlt⟩
  | @printed t i j hpc hge =>
      have hin := hi.within t
      rw [hpc] at hin
      have hall : t.num = j :=
        Nat.le_antisymm (Nat.le_of_not_lt hge) (hi.most t i j hpc)
      have hlines : Pc.lines t (.toggle i) = Pc.lines t (.print i j) := by
        show List.replicate t.num t.str = List.replicate j t.str
        rw [hall]
      have hmine : t = turn k := hi.busy t (by rw [hpc]; rfl)
      refine ⟨k, hi.quiet hpc rfl rfl rfl ?_ rfl hin hlines
        (fun _ => hmine) nofun nofun nofun⟩
      exact hi.owner.stay hpc rfl
  | toggle hpc => exact ⟨k + 1, hi.toggle hpc⟩
  | notifyOne hpc hpc' => exact ⟨k, hi.notifyOne hpc hpc'⟩
  | notifyNone hpc hnone => exact ⟨k, hi.notified hpc hnone⟩
  | @unlock t i hpc =>
      have hin := hi.within t
      rw [hpc] at hin
      refine ⟨k, hi.quiet hpc rfl rfl rfl ?_ rfl hin rfl
        nofun nofun nofun nofun⟩
      exact hi.owner.release hpc rfl rfl
  | spurious hpc => exact ⟨k, hi.wake hpc⟩

end Step

/-- Every reachable state is in turn. -/
theorem inTurn {count : Nat} {s : State} (h : (program count).Reachable s) :
    ∃ k, InTurn count s k := by
  apply h.invariant (I := fun s => ∃ k, InTurn count s k)
  · exact ⟨0, inTurn_init count⟩
  · rintro s a s' - ⟨k, hi⟩ ha
    exact inTurn_step hi (step_moves ha)

end DailyStudy.Turns
