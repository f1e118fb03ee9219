/-
Which strings come through the queue of Mq1.cpp as they were sent.

A received message overwrites the front of the buffer, and nothing ends
it there. It is printed as it was sent exactly when the next byte of the
buffer is a NUL: one the buffer held from the start (`overwrite_nul_iff`),
where no earlier message reached. So the lengths must never decrease,
each must be below the size of the buffer, and the byte of the fresh
buffer at each of them must be NUL (`Readable`).
-/
import DailyStudy.Mq.Basic

namespace DailyStudy.Mq

open Interleave

/-- The strings find their NULs in a buffer they are received into, one
after the other. -/
def Readable (buf : List UInt8) (ms : List (List UInt8)) : Prop :=
  ms.Pairwise (fun m m' => m.length ≤ m'.length)
    ∧ ∀ m ∈ ms, buf[m.length]? = some 0

instance (buf : List UInt8) (ms : List (List UInt8)) :
    Decidable (Readable buf ms) :=
  inferInstanceAs (Decidable (_ ∧ _))

-- ================================================================== the buffer

/-- The NULs of a buffer after a string was stored at its front: those
the string did not reach. -/
theorem overwrite_nul_iff {m buf : List UInt8} (hfree : 0 ∉ m) (i : Nat) :
    (m ++ buf.drop m.length)[i]? = some 0
      ↔ m.length ≤ i ∧ buf[i]? = some 0 := by
  by_cases hi : i < m.length
  · rw [List.getElem?_append_left hi]
    refine iff_of_false (fun h => ?_) fun h => absurd h.1 (Nat.not_le.mpr hi)
    exact hfree (List.mem_of_getElem? h)
  · have hle : m.length ≤ i := Nat.le_of_not_lt hi
    rw [List.getElem?_append_right hle, List.getElem?_drop,
      Nat.add_sub_cancel' hle]
    exact (and_iff_right hle).symm

/-- One more string is readable: it finds its NUL, and the strings after
it find theirs in the buffer it leaves. -/
theorem readable_cons {m buf : List UInt8} (hfree : 0 ∉ m)
    (ms : List (List UInt8)) :
    Readable buf (m :: ms)
      ↔ buf[m.length]? = some 0
        ∧ Readable (m ++ buf.drop m.length) ms := by
  unfold Readable
  rw [List.pairwise_cons, List.forall_mem_cons]
  simp only [overwrite_nul_iff hfree]
  constructor
  · rintro ⟨⟨hle, hms⟩, hnul, hnuls⟩
    exact ⟨hnul, hms, fun m' hm' => ⟨hle m' hm', hnuls m' hm'⟩⟩
  · rintro ⟨hnul, hms, hnuls⟩
    exact ⟨⟨fun m' hm' => (hnuls m' hm').1, hms⟩, hnul,
      fun m' hm' => (hnuls m' hm').2⟩

/-- What `GetMsg` prints is the string it received exactly when that
finds its NUL. -/
theorem printed_eq_iff {m buf : List UInt8} (hfree : 0 ∉ m) :
    CString.ofArray (m ++ buf.drop m.length) = some m
      ↔ buf[m.length]? = some 0 := by
  rw [CString.ofArray_append_eq_some hfree, List.getElem?_drop,
    Nat.add_zero]

-- =================================================================== the calls

/-- A string `SendMsg` is called with: no NUL in it, and it fits into a
message. -/
def Sendable (msgsize : Nat) (m : List UInt8) : Prop :=
  0 ∉ m ∧ m.length ≤ msgsize

/-- What the state keeps: only sendable strings are in the queue, and the
buffer has the size of a message. -/
structure Receiving (msgsize : Nat) (s : State) : Prop where
  msgsize_eq : s.queue.msgsize = msgsize
  buf_length : s.buf.length = msgsize
  free : ∀ m ∈ s.queue.msgs, 0 ∉ m

/-- A `SendMsg` that passes is seen to send its string. -/
theorem Receiving.send {msgsize : Nat} {s s' : State} {m : List UInt8}
    (h : Receiving msgsize s) (hm : Sendable msgsize m)
    (hstep : step s (.send m) = some s') :
    s'.queue.msgs = s.queue.msgs ++ [m] ∧ s'.buf = s.buf
      ∧ seen s (.send m) = [.sent m] ∧ Receiving msgsize s' := by
  obtain ⟨⟨ok, q⟩, hsend, rfl⟩ := Option.map_eq_some_iff.mp hstep
  have hfits : m.length ≤ s.queue.msgsize := h.msgsize_eq ▸ hm.2
  obtain ⟨rfl, hmsgs, hsize⟩ := sendMsg_cases hm.1 hfits hsend
  refine ⟨hmsgs, rfl, ?_, hsize.trans h.msgsize_eq, h.buf_length, ?_⟩
  · simp only [seen, hsend]
  · intro m' hm'
    change m' ∈ q.msgs at hm'
    rw [hmsgs] at hm'
    rcases List.mem_append.mp hm' with hold | hnew
    · exact h.free m' hold
    · exact List.mem_singleton.mp hnew ▸ hm.1

/-- A `GetMsg` that passes is seen to print the buffer, with the oldest
message stored at its front. -/
theorem Receiving.get {msgsize : Nat} {s s' : State}
    (h : Receiving msgsize s) (hstep : step s .get = some s') :
    ∃ m, s.queue.msgs = m :: s'.queue.msgs
      ∧ s'.buf = m ++ s.buf.drop m.length
      ∧ seen s .get = [.printed (CString.ofArray s'.buf)]
      ∧ Receiving msgsize s' := by
  obtain ⟨⟨text, buf, q⟩, hget, rfl⟩ := Option.map_eq_some_iff.mp hstep
  have hbuf : s.buf.length = s.queue.msgsize :=
    h.buf_length.trans h.msgsize_eq.symm
  obtain ⟨m, hmsgs, rfl, rfl, hsize⟩ := getMsg_cases hbuf hget
  refine ⟨m, hmsgs, rfl, ?_, hsize.trans h.msgsize_eq, ?_, ?_⟩
  · simp only [seen, hget]
  · have hm : m.length ≤ s.queue.msgsize :=
      s.queue.fits m (hmsgs ▸ List.mem_cons_self)
    show (m ++ s.buf.drop m.length).length = msgsize
    rw [List.length_append, List.length_drop]
    have hsize := h.msgsize_eq
    omega
  · exact fun m' hm' => h.free m' (hmsgs ▸ List.mem_cons_of_mem m hm')

-- ==================================================================== the runs

/-- The texts printed are the strings waiting and the strings sent from
now on, each in its turn: exactly when those received are readable. -/
theorem prints_iff {maxmsg msgsize : Nat} {buf : List UInt8}
    {acts : List Act} {s t : State} (h : Receiving msgsize s)
    (hacts : ∀ m ∈ strings acts, Sendable msgsize m)
    (hrun : (program maxmsg msgsize buf).run s acts = some t)
    {log : List Event}
    (hlog : log = (program maxmsg msgsize buf).trace seen s acts) :
    printed log <+: (s.queue.msgs ++ sent log).map some
      ↔ Readable s.buf
        ((s.queue.msgs ++ sent log).take (printed log).length) := by
  induction acts generalizing s log with
  | nil =>
      subst hlog
      refine iff_of_true List.nil_prefix ⟨?_, ?_⟩
      · exact List.Pairwise.nil
      · exact fun m hm => absurd hm List.not_mem_nil
  | cons a rest ih =>
      obtain ⟨s', hstep, hrest⟩ := System.run_cons_eq_some.mp hrun
      rw [System.trace_cons hstep] at hlog
      cases a with
      | send m =>
          have hm := hacts m List.mem_cons_self
          obtain ⟨hmsgs, hbuf, hseen, h'⟩ := h.send hm hstep
          subst hlog
          rw [hseen]
          have hih :=
            ih h' (fun m' hm' => hacts m' (.tail m hm')) hrest rfl
          rw [hmsgs, hbuf, List.append_assoc] at hih
          exact hih
      | get =>
          obtain ⟨m, hmsgs, hbuf, hseen, h'⟩ := h.get hstep
          have hfree := h.free m (hmsgs ▸ List.mem_cons_self)
          subst hlog
          rw [hseen, hmsgs]
          have hih := ih h' hacts hrest rfl
          rw [hbuf] at hih ⊢
          show CString.ofArray _ :: printed _ <+: some m :: _
            ↔ Readable s.buf (m :: _)
          rw [List.cons_prefix_cons, printed_eq_iff hfree,
            readable_cons hfree]
          exact and_congr_right fun _ => hih

/-- A run of the two processes, whatever the fresh buffer holds: each
`GetMsg` prints the string of its turn exactly when the strings received
are readable in that buffer. -/
theorem round_trip_iff {maxmsg msgsize : Nat} {buf : List UInt8}
    (hbuf : buf.length = msgsize) {acts : List Act} {t : State}
    (hacts : ∀ m ∈ strings acts, 0 ∉ m ∧ m.length ≤ msgsize)
    (hrun : (program maxmsg msgsize buf).run
      (program maxmsg msgsize buf).init acts = some t) :
    printed (history maxmsg msgsize buf acts)
        <+: (sent (history maxmsg msgsize buf acts)).map some
      ↔ Readable buf ((sent (history maxmsg msgsize buf acts)).take
          (printed (history maxmsg msgsize buf acts)).length) := by
  have hinit : Receiving msgsize (program maxmsg msgsize buf).init := {
    msgsize_eq := rfl
    buf_length := hbuf
    free := nofun }
  exact prints_iff hinit hacts hrun rfl

/-- A zeroed buffer of eight bytes. -/
def cleanBuf : List UInt8 := List.replicate 8 0

/-- "x", then "abc", come through it. -/
theorem round_trip_growing :
    printed (history 10 8 cleanBuf
        [.send [120], .send [97, 98, 99], .get, .get])
      <+: (sent (history 10 8 cleanBuf
        [.send [120], .send [97, 98, 99], .get, .get])).map some := by
  obtain ⟨t, hrun⟩ := Option.isSome_iff_exists.mp
    (by decide : ((program 10 8 cleanBuf).run (program 10 8 cleanBuf).init
      [.send [120], .send [97, 98, 99], .get, .get]).isSome = true)
  exact (round_trip_iff (by decide) (by decide) hrun).mpr (by decide)

/-- "x" after "abc" is printed as "xbc". -/
theorem longer_remains :
    ((program 10 8 cleanBuf).run (program 10 8 cleanBuf).init
        [.send [97, 98, 99], .send [120], .get, .get]).isSome
      ∧ ¬ printed (history 10 8 cleanBuf
          [.send [97, 98, 99], .send [120], .get, .get])
        <+: (sent (history 10 8 cleanBuf
          [.send [97, 98, 99], .send [120], .get, .get])).map some := by
  decide

end DailyStudy.Mq
