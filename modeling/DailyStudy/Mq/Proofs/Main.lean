/-
The `main` of Mq1.cpp: when the two processes end, and what they print.

# The parent sends what fits

Then every send succeeds as soon as there is room, the messages in the
queue are those sent and not received (`Relay`), and one of the processes
can always go on: a full queue waits for the child, and an empty one for
the parent. A message above `mq_msgsize` is never sent, and the child waits
for ever (`main_ends_iff`).

# What the child prints

The message overwrites the same bytes of the buffer every time, so what
follows them is what the buffer held at first, and all the printed texts
are one and the same (`main_prints`).
-/
import DailyStudy.Mq.Main

namespace DailyStudy.Mq.Main

open Interleave

variable {rounds maxmsg msgsize : Nat} {msg buf : List UInt8}

-- =================================================================== the calls

/-- `SendMsg` of a string that fits: it blocks, or it puts the string into
the queue. -/
theorem sendMsg_fits {q : Queue} {m : List UInt8} (hfree : 0 ∉ m)
    (hfits : m.length ≤ q.msgsize) :
    sendMsg q (m ++ [0])
      = if hroom : q.msgs.length < q.maxmsg then
          some (true, q.push m hroom hfits)
        else none := by
  unfold sendMsg CString.strlen
  rw [CString.ofArray_concat hfree]
  change q.mqSend ((m ++ [0]).take m.length) = _
  rw [List.take_left, Queue.mqSend, dif_pos hfits]

/-- `SendMsg` of a longer string fails at once. -/
theorem sendMsg_long {q : Queue} {m : List UInt8} (hfree : 0 ∉ m)
    (hlong : ¬ m.length ≤ q.msgsize) :
    sendMsg q (m ++ [0]) = some (false, q) := by
  unfold sendMsg CString.strlen
  rw [CString.ofArray_concat hfree]
  change q.mqSend ((m ++ [0]).take m.length) = _
  rw [List.take_left, Queue.mqSend, dif_neg hlong]

/-- `GetMsg` on an empty queue blocks. -/
theorem getMsg_nil {q : Queue} {buf : List UInt8}
    (hbuf : buf.length = q.msgsize) (hmsgs : q.msgs = []) :
    getMsg q buf = none := by
  unfold getMsg Queue.mqReceive
  rw [if_neg (Nat.not_lt.mpr hbuf.ge), hmsgs]
  rfl

/-- `GetMsg` takes the oldest message. -/
theorem getMsg_cons {q : Queue} {buf m : List UInt8}
    {rest : List (List UInt8)} (hbuf : buf.length = q.msgsize)
    (hmsgs : q.msgs = m :: rest) :
    getMsg q buf = some (some (CString.ofArray (m ++ buf.drop m.length)),
      m ++ buf.drop m.length, q.pop) := by
  unfold getMsg Queue.mqReceive
  rw [if_neg (Nat.not_lt.mpr hbuf.ge), hmsgs]
  rfl

-- =================================================================== the lines

/-- The lines of the parent: the round, and whether it succeeded. -/
def sends : List Line → List (Nat × Bool) :=
  List.filterMap fun
    | .sendSuccessful i => some (i, true)
    | .sendFailed i => some (i, false)
    | _ => none

/-- The lines of the child: the text of a message, or that it failed. -/
def gets : List Line → List (Option (Option (List UInt8))) :=
  List.filterMap fun
    | .getMsg text => some (some text)
    | .getFailed => some none
    | _ => none

/-- The rounds the parent has behind it. -/
def ParentPc.done (rounds : Nat) : ParentPc → Nat
  | .send i => i - 1
  | _ => rounds

/-- The rounds the child has behind it. -/
def ChildPc.done (rounds : Nat) : ChildPc → Nat
  | .get i => i - 1
  | .exited => rounds

-- =============================================================== the invariant

/-- What the two processes keep, where the message fits: the queue holds
what was sent and not received, the buffer its tail, every send succeeded,
and every text is the one the buffer gives. -/
structure Relay (rounds maxmsg msgsize : Nat) (msg buf : List UInt8)
    (s : State) : Prop where
  room : s.queue.maxmsg = maxmsg
  limit : s.queue.msgsize = msgsize
  sending : ∀ i, s.parent = .send i → 1 ≤ i ∧ i ≤ rounds + 1
  getting : ∀ i, s.child = .get i → 1 ≤ i ∧ i ≤ rounds + 1
  queued : ∀ m ∈ s.queue.msgs, m = msg
  flow : s.parent.done rounds
    = s.child.done rounds + s.queue.msgs.length
  length : s.buf.length = msgsize
  tail : s.buf.drop msg.length = buf.drop msg.length
  sends : sends s.output
    = (List.range (s.parent.done rounds)).map fun i => (i + 1, true)
  gets : gets s.output = List.replicate (s.child.done rounds)
    (some (CString.ofArray (msg ++ buf.drop msg.length)))

theorem relay_init (hbuf : buf.length = msgsize) :
    Relay rounds maxmsg msgsize msg buf
      (main rounds maxmsg msgsize msg buf).init where
  room := rfl
  limit := rfl
  sending i h := by
    cases h
    exact ⟨Nat.le_refl 1, Nat.le_add_left 1 rounds⟩
  getting i h := by
    cases h
    exact ⟨Nat.le_refl 1, Nat.le_add_left 1 rounds⟩
  queued _ h := by cases h
  flow := rfl
  length := hbuf
  tail := rfl
  sends := rfl
  gets := rfl

variable {s s' : State}

/-- The parent's steps keep the relay. -/
private theorem relay_parent (hfree : 0 ∉ msg)
    (hfits : rounds = 0 ∨ msg.length ≤ msgsize)
    (h : Relay rounds maxmsg msgsize msg buf s)
    (hstep : s.parentStep rounds msg = some s') :
    Relay rounds maxmsg msgsize msg buf s' := by
  obtain ⟨hroom, hlimit, hsending, hgetting, hqueued, hflow, hlength, htail,
    hsends, hgets⟩ := h
  cases hpc : s.parent with
  | exited => simp [State.parentStep, hpc] at hstep
  | close =>
      simp only [State.parentStep, hpc, Option.some.injEq] at hstep
      subst hstep
      rw [hpc] at hflow hsends
      exact ⟨hroom, hlimit, (fun _ hj => by cases hj), hgetting, hqueued,
        hflow, hlength, htail, hsends, hgets⟩
  | unlink =>
      simp only [State.parentStep, hpc, Option.some.injEq] at hstep
      subst hstep
      rw [hpc] at hflow hsends
      exact ⟨hroom, hlimit, (fun _ hj => by cases hj), hgetting, hqueued,
        hflow, hlength, htail, hsends, hgets⟩
  | send i =>
      obtain ⟨hpos, hle⟩ := hsending i hpc
      rw [hpc] at hflow hsends
      change i - 1 = _ at hflow
      change _ = (List.range (i - 1)).map _ at hsends
      by_cases hi : i ≤ rounds
      · have hshort : msg.length ≤ s.queue.msgsize := by
          rw [hlimit]
          exact hfits.resolve_left (by omega)
        by_cases hfree' : s.queue.msgs.length < s.queue.maxmsg
        · simp only [State.parentStep, hpc, if_pos hi,
            sendMsg_fits hfree hshort, dif_pos hfree', Option.map_some,
            if_true, Option.some.injEq] at hstep
          subst hstep
          refine ⟨hroom, hlimit, ?_, hgetting, ?_, ?_, hlength, htail, ?_, ?_⟩
          · intro j hj
            cases hj
            omega
          · intro m hm
            rcases List.mem_append.mp hm with hold | hnew
            · exact hqueued m hold
            · exact List.mem_singleton.mp hnew
          · show i + 1 - 1
              = s.child.done rounds + (s.queue.msgs ++ [msg]).length
            rw [List.length_append, List.length_singleton]
            omega
          · show sends (s.output ++ [.sendSuccessful i])
              = (List.range (i + 1 - 1)).map fun j => (j + 1, true)
            have hconcat : sends (s.output ++ [.sendSuccessful i])
                = sends s.output ++ [(i, true)] := List.filterMap_append ..
            have hlast : i + 1 - 1 = i - 1 + 1 := by omega
            rw [hconcat, hsends, hlast, List.range_succ, List.map_append,
              List.map_singleton, Nat.sub_add_cancel hpos]
          · rw [← hgets]
            exact (List.filterMap_append ..).trans (List.append_nil _)
        · simp [State.parentStep, hpc, hi, sendMsg_fits hfree hshort,
            hfree'] at hstep
      · simp only [State.parentStep, hpc, if_neg hi,
          Option.some.injEq] at hstep
        subst hstep
        have hdone : i - 1 = rounds := by omega
        rw [hdone] at hflow hsends
        exact ⟨hroom, hlimit, (fun _ hj => by cases hj), hgetting, hqueued,
          hflow, hlength, htail, hsends, hgets⟩

/-- The child's steps keep it. -/
private theorem relay_child (h : Relay rounds maxmsg msgsize msg buf s)
    (hstep : s.childStep rounds = some s') :
    Relay rounds maxmsg msgsize msg buf s' := by
  obtain ⟨hroom, hlimit, hsending, hgetting, hqueued, hflow, hlength, htail,
    hsends, hgets⟩ := h
  cases hpc : s.child with
  | exited => simp [State.childStep, hpc] at hstep
  | get i =>
      obtain ⟨hpos, hle⟩ := hgetting i hpc
      rw [hpc] at hflow hgets
      change _ = i - 1 + _ at hflow
      change _ = List.replicate (i - 1) _ at hgets
      by_cases hi : i ≤ rounds
      · cases hmsgs : s.queue.msgs with
        | nil =>
            simp [State.childStep, hpc, hi,
              getMsg_nil (hlength.trans hlimit.symm) hmsgs] at hstep
        | cons m rest =>
            have hm : m = msg := hqueued m (by rw [hmsgs]; simp)
            have hshort : msg.length ≤ s.queue.msgsize :=
              s.queue.fits msg (by rw [hmsgs, hm]; simp)
            simp only [State.childStep, hpc, if_pos hi,
              getMsg_cons (hlength.trans hlimit.symm) hmsgs, Option.map_some,
              Option.some.injEq, hm, htail] at hstep
            subst hstep
            have hpop : s.queue.pop.msgs = rest := congrArg List.tail hmsgs
            rw [hmsgs, List.length_cons] at hflow
            refine ⟨hroom, hlimit, hsending, ?_, ?_, ?_, ?_, ?_, ?_, ?_⟩
            · intro j hj
              cases hj
              omega
            · intro m' hm'
              apply hqueued
              rw [hmsgs]
              exact List.mem_cons_of_mem _ (hpop ▸ hm')
            · show s.parent.done rounds
                = i + 1 - 1 + s.queue.pop.msgs.length
              rw [hpop]
              omega
            · show (msg ++ buf.drop msg.length).length = msgsize
              rw [← htail, List.length_append, List.length_drop]
              omega
            · exact List.drop_left
            · rw [← hsends]
              exact (List.filterMap_append ..).trans (List.append_nil _)
            · show gets (s.output ++ [.getMsg
                (CString.ofArray (msg ++ buf.drop msg.length))])
                = List.replicate (i + 1 - 1) _
              have hconcat : gets (s.output ++ [.getMsg
                  (CString.ofArray (msg ++ buf.drop msg.length))])
                  = gets s.output
                    ++ [some (CString.ofArray (msg ++ buf.drop msg.length))] :=
                List.filterMap_append ..
              have hlast : i + 1 - 1 = i - 1 + 1 := by omega
              rw [hconcat, hgets, ← List.replicate_succ', hlast]
      · simp only [State.childStep, hpc, if_neg hi,
          Option.some.injEq] at hstep
        subst hstep
        have hdone : i - 1 = rounds := by omega
        rw [hdone] at hflow hgets
        exact ⟨hroom, hlimit, hsending, (fun _ hj => by cases hj), hqueued,
          hflow, hlength, htail, hsends, hgets⟩

theorem relay_step (hfree : 0 ∉ msg)
    (hfits : rounds = 0 ∨ msg.length ≤ msgsize)
    (h : Relay rounds maxmsg msgsize msg buf s) {a : Act}
    (hstep : step rounds msg s a = some s') :
    Relay rounds maxmsg msgsize msg buf s' := by
  cases a with
  | parent => exact relay_parent hfree hfits h hstep
  | child => exact relay_child h hstep

theorem relay_reachable (hfree : 0 ∉ msg)
    (hfits : rounds = 0 ∨ msg.length ≤ msgsize) (hbuf : buf.length = msgsize)
    (h : (main rounds maxmsg msgsize msg buf).Reachable s) :
    Relay rounds maxmsg msgsize msg buf s :=
  h.invariant (relay_init hbuf) fun _ hs => relay_step hfree hfits hs

-- =================================================================== the end

/-- A bound on the steps the parent still takes. -/
def ParentPc.left (rounds : Nat) : ParentPc → Nat
  | .send i => rounds + 1 - i + 3
  | .unlink => 2
  | .close => 1
  | .exited => 0

/-- A bound on the steps the child still takes. -/
def ChildPc.left (rounds : Nat) : ChildPc → Nat
  | .get i => rounds + 1 - i + 1
  | .exited => 0

/-- A bound on the steps the two processes still take. -/
def State.left (rounds : Nat) (s : State) : Nat :=
  s.parent.left rounds + s.child.left rounds

private theorem parent_left (h : s.parentStep rounds msg = some s') :
    s'.left rounds < s.left rounds := by
  cases hpc : s.parent with
  | exited => simp [State.parentStep, hpc] at h
  | close =>
      simp only [State.parentStep, hpc, Option.some.injEq] at h
      subst h
      simp [State.left, ParentPc.left, hpc]
  | unlink =>
      simp only [State.parentStep, hpc, Option.some.injEq] at h
      subst h
      simp [State.left, ParentPc.left, hpc]
  | send i =>
      by_cases hi : i ≤ rounds
      · simp only [State.parentStep, hpc, if_pos hi,
          Option.map_eq_some_iff] at h
        obtain ⟨⟨ok, queue⟩, -, rfl⟩ := h
        simp only [State.left, ParentPc.left, hpc]
        omega
      · simp only [State.parentStep, hpc, if_neg hi, Option.some.injEq] at h
        subst h
        simp only [State.left, ParentPc.left, hpc]
        omega

private theorem child_left (h : s.childStep rounds = some s') :
    s'.left rounds < s.left rounds := by
  cases hpc : s.child with
  | exited => simp [State.childStep, hpc] at h
  | get i =>
      by_cases hi : i ≤ rounds
      · simp only [State.childStep, hpc, if_pos hi,
          Option.map_eq_some_iff] at h
        obtain ⟨⟨received, buf, queue⟩, -, rfl⟩ := h
        simp only [State.left, ChildPc.left, hpc]
        omega
      · simp only [State.childStep, hpc, if_neg hi, Option.some.injEq] at h
        subst h
        simp only [State.left, ChildPc.left, hpc]
        omega

/-- Every step takes the bound down. -/
theorem step_left {a : Act} (h : step rounds msg s a = some s') :
    s'.left rounds < s.left rounds := by
  cases a with
  | parent => exact parent_left h
  | child => exact child_left h

/-- The child goes on, unless it waits at an empty queue. -/
private theorem child_moves (hsome : s.child ≠ .exited)
    (hbuf : s.buf.length = s.queue.msgsize)
    (hmsgs : (∃ i ≤ rounds, s.child = .get i) → s.queue.msgs ≠ []) :
    ∃ t, s.childStep rounds = some t := by
  cases hpc : s.child with
  | exited => exact absurd hpc hsome
  | get i =>
      by_cases hi : i ≤ rounds
      · obtain ⟨m, rest, hm⟩ :=
          List.exists_cons_of_ne_nil (hmsgs ⟨i, hi, hpc⟩)
        simp [State.childStep, hpc, hi, getMsg_cons hbuf hm]
      · simp [State.childStep, hpc, hi]

/-- Where the message fits and the queue has room for one, one of the
processes can go on: a full queue has a message for the child, and the
messages the child lacks are in the queue or not sent. -/
theorem relay_next (hfree : 0 ∉ msg)
    (hfits : rounds = 0 ∨ msg.length ≤ msgsize ∧ 0 < maxmsg)
    (h : Relay rounds maxmsg msgsize msg buf s)
    (hrun : ¬ (s.parent = .exited ∧ s.child = .exited)) :
    ∃ a t, step rounds msg s a = some t := by
  have hchild : s.child ≠ .exited →
      ((∃ i ≤ rounds, s.child = .get i) → s.queue.msgs ≠ []) →
      ∃ a t, step rounds msg s a = some t := fun hsome hmsgs =>
    ⟨.child, child_moves hsome (h.length.trans h.limit.symm) hmsgs⟩
  have hflow := h.flow
  have hlate : s.child = .exited → s.child.done rounds = rounds := by
    intro hc
    rw [hc]
    rfl
  cases hpc : s.parent with
  | close => exact ⟨.parent, by simp [step, State.parentStep, hpc]⟩
  | unlink => exact ⟨.parent, by simp [step, State.parentStep, hpc]⟩
  | exited =>
      apply hchild fun hc => hrun ⟨hpc, hc⟩
      rintro ⟨i, hi, hc⟩ hnil
      obtain ⟨hpos, -⟩ := h.getting i hc
      rw [hpc, hc, hnil] at hflow
      change rounds = i - 1 + 0 at hflow
      omega
  | send i =>
      obtain ⟨hpos, -⟩ := h.sending i hpc
      by_cases hi : i ≤ rounds
      · obtain ⟨hshort, hroom⟩ := hfits.resolve_left (by omega)
        rw [hpc] at hflow
        change i - 1 = _ at hflow
        by_cases hfull : s.queue.msgs.length < s.queue.maxmsg
        · exact ⟨.parent, by
            simp [step, State.parentStep, hpc, hi,
              sendMsg_fits hfree (h.limit.symm ▸ hshort), hfull]⟩
        · apply hchild
          · intro hc
            have hdone := hlate hc
            omega
          · intro _ hnil
            rw [hnil, h.room] at hfull
            exact hfull hroom
      · exact ⟨.parent, by simp [step, State.parentStep, hpc, hi]⟩

/-- Where no message can be sent: the queue stays empty, and the child at
its first `GetMsg`. -/
structure Starved (maxmsg msgsize : Nat) (s : State) : Prop where
  room : s.queue.maxmsg = maxmsg
  limit : s.queue.msgsize = msgsize
  empty : s.queue.msgs = []
  waiting : s.child = .get 1
  length : s.buf.length = msgsize

theorem starved_step (hfree : 0 ∉ msg) (hpos : rounds ≠ 0)
    (hnone : ¬ (msg.length ≤ msgsize ∧ 0 < maxmsg))
    (h : Starved maxmsg msgsize s) {a : Act}
    (hstep : step rounds msg s a = some s') : Starved maxmsg msgsize s' := by
  obtain ⟨hroom, hlimit, hempty, hwaiting, hlength⟩ := h
  cases a with
  | child =>
      have hfirst : 1 ≤ rounds := Nat.one_le_iff_ne_zero.mpr hpos
      simp [step, State.childStep, hwaiting, hfirst,
        getMsg_nil (hlength.trans hlimit.symm) hempty] at hstep
  | parent =>
      cases hpc : s.parent with
      | exited => simp [step, State.parentStep, hpc] at hstep
      | close =>
          simp only [step, State.parentStep, hpc, Option.some.injEq] at hstep
          exact hstep ▸ ⟨hroom, hlimit, hempty, hwaiting, hlength⟩
      | unlink =>
          simp only [step, State.parentStep, hpc, Option.some.injEq] at hstep
          exact hstep ▸ ⟨hroom, hlimit, hempty, hwaiting, hlength⟩
      | send i =>
          by_cases hi : i ≤ rounds
          · by_cases hshort : msg.length ≤ s.queue.msgsize
            · -- It would fit, but a queue without room is always full.
              have hfull : ¬ s.queue.msgs.length < s.queue.maxmsg := by
                rw [hempty, hroom]
                exact fun hmax => hnone ⟨hlimit ▸ hshort, hmax⟩
              simp [step, State.parentStep, hpc, hi,
                sendMsg_fits hfree hshort, hfull] at hstep
            · simp only [step, State.parentStep, hpc, if_pos hi,
                sendMsg_long hfree hshort, Option.map_some,
                Option.some.injEq] at hstep
              exact hstep ▸ ⟨hroom, hlimit, hempty, hwaiting, hlength⟩
          · simp only [step, State.parentStep, hpc, if_neg hi,
              Option.some.injEq] at hstep
            exact hstep ▸ ⟨hroom, hlimit, hempty, hwaiting, hlength⟩

/-- The name and the descriptors, by where the processes stand. -/
structure Handles (s : State) : Prop where
  name : s.linked = true ↔ s.parent ≠ .close ∧ s.parent ≠ .exited
  parent : s.parentOpen = true ↔ s.parent ≠ .exited
  child : s.childOpen = true ↔ s.child ≠ .exited

theorem handles_init : Handles (main rounds maxmsg msgsize msg buf).init where
  name := by simp [main]
  parent := by simp [main]
  child := by simp [main]

theorem handles_step (h : Handles s) {a : Act}
    (hstep : step rounds msg s a = some s') : Handles s' := by
  obtain ⟨hname, hparent, hchild⟩ := h
  cases a with
  | parent =>
      cases hpc : s.parent with
      | exited => simp [step, State.parentStep, hpc] at hstep
      | close =>
          simp only [step, State.parentStep, hpc, Option.some.injEq] at hstep
          subst hstep
          rw [hpc] at hname
          exact ⟨by simp [hname], by simp, hchild⟩
      | unlink =>
          simp only [step, State.parentStep, hpc, Option.some.injEq] at hstep
          subst hstep
          rw [hpc] at hparent
          exact ⟨by simp, by simp [hparent], hchild⟩
      | send i =>
          rw [hpc] at hname hparent
          by_cases hi : i ≤ rounds
          · simp only [step, State.parentStep, hpc, if_pos hi,
              Option.map_eq_some_iff] at hstep
            obtain ⟨⟨ok, queue⟩, -, rfl⟩ := hstep
            exact ⟨by simp [hname], by simp [hparent], hchild⟩
          · simp only [step, State.parentStep, hpc, if_neg hi,
              Option.some.injEq] at hstep
            subst hstep
            exact ⟨by simp [hname], by simp [hparent], hchild⟩
  | child =>
      cases hpc : s.child with
      | exited => simp [step, State.childStep, hpc] at hstep
      | get i =>
          rw [hpc] at hchild
          by_cases hi : i ≤ rounds
          · simp only [step, State.childStep, hpc, if_pos hi,
              Option.map_eq_some_iff] at hstep
            obtain ⟨⟨received, buf, queue⟩, -, rfl⟩ := hstep
            exact ⟨hname, hparent, by simp [hchild]⟩
          · simp only [step, State.childStep, hpc, if_neg hi,
              Option.some.injEq] at hstep
            subst hstep
            exact ⟨hname, hparent, by simp⟩

/-- The kernel keeps the queue until both processes have ended. -/
theorem kept_iff (h : Handles s) :
    s.kept = false ↔ s.parent = .exited ∧ s.child = .exited := by
  have hname := h.name
  have hparent := h.parent
  have hchild := h.child
  unfold State.kept
  rw [Bool.or_eq_false_iff, Bool.or_eq_false_iff, ← Bool.not_eq_true,
    ← Bool.not_eq_true, ← Bool.not_eq_true, hname, hparent, hchild,
    not_not, not_not]
  constructor
  · rintro ⟨⟨-, hp⟩, hc⟩
    exact ⟨hp, hc⟩
  · rintro ⟨hp, hc⟩
    exact ⟨⟨fun hlinked => hlinked.2 hp, hp⟩, hc⟩

end DailyStudy.Mq.Main
