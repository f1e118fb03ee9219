/-
Which interface `get_mac_address` selects, and when it gets there.

The loop is a search for the first entry that is selected, cut short by
the first entry without an address: it returns what the search finds
exactly when no such entry comes before (`traverse_eq_some_iff`).
-/
import DailyStudy.Mac.Basic

namespace DailyStudy.Mac

/-- An interface of the link layer that is not the loopback. -/
def Ifaddrs.selected (ifa : Ifaddrs) : Bool :=
  match ifa.ifaAddr with
  | none => false
  | some addr => ifa.matchesOn addr

/-- The first three bytes of an entry's address. -/
def Ifaddrs.firstBytes (ifa : Ifaddrs) : Option MacAddress :=
  ifa.ifaAddr.map fun addr => addr.sllAddr.take 3

/-- What `mac_address` should hold afterwards: the bytes of the first
selected entry, or what it held before. -/
def expected (mac : MacAddress) (ifList : List Ifaddrs) : MacAddress :=
  ((ifList.find? Ifaddrs.selected).bind Ifaddrs.firstBytes).getD mac

/-- The entries the loop looks at before it comes to a selected one. -/
def passed (ifList : List Ifaddrs) : List Ifaddrs :=
  ifList.takeWhile fun ifa => !ifa.selected

/-- The three stores leave nothing of the old bytes. -/
theorem storeMac_eq (mac : MacAddress) (sa : Sockaddr) :
    storeMac mac sa = sa.sllAddr.take 3 := by
  unfold storeMac
  apply Vector.ext
  intro i hi
  have htake : (sa.sllAddr.take 3 : MacAddress)[i] = sa.sllAddr[i] :=
    Vector.getElem_take hi
  rw [htake]
  rcases i with _ | _ | _ | i
  · simp
  · simp
  · simp
  · omega

-- ============================================================== one more entry

theorem passed_cons {ifa : Ifaddrs} (next : List Ifaddrs) :
    passed (ifa :: next)
      = if ifa.selected then [] else ifa :: passed next := by
  unfold passed
  rw [List.takeWhile_cons]
  cases ifa.selected <;> rfl

theorem expected_cons {mac : MacAddress} {ifa : Ifaddrs}
    (next : List Ifaddrs) :
    expected mac (ifa :: next)
      = if ifa.selected then ifa.firstBytes.getD mac
        else expected mac next := by
  unfold expected
  rw [List.find?_cons]
  cases ifa.selected <;> rfl

theorem traverse_cons {mac : MacAddress} {ifa : Ifaddrs} {addr : Sockaddr}
    (h : ifa.ifaAddr = some addr) (next : List Ifaddrs) :
    traverse mac (ifa :: next)
      = if ifa.selected then some (storeMac mac addr)
        else traverse mac next := by
  rw [traverse, Ifaddrs.selected, h]

/-- The loop ends exactly when every entry it passes has an address, and
then with the bytes of the entry it was looking for. -/
theorem traverse_eq_some_iff {mac out : MacAddress}
    {ifList : List Ifaddrs} :
    traverse mac ifList = some out
      ↔ (∀ ifa ∈ passed ifList, ifa.ifaAddr.isSome)
        ∧ out = expected mac ifList := by
  induction ifList with
  | nil =>
      show some mac = some out ↔ _ ∧ out = mac
      rw [Option.some.injEq, eq_comm]
      exact (and_iff_right nofun).symm
  | cons ifa next ih =>
      rw [passed_cons, expected_cons]
      cases haddr : ifa.ifaAddr with
      | none =>
          have hsel : ifa.selected = false := by
            rw [Ifaddrs.selected, haddr]
          rw [traverse, haddr, hsel]
          refine iff_of_false nofun fun h => ?_
          have hsome := h.1 ifa List.mem_cons_self
          rw [haddr] at hsome
          cases hsome
      | some addr =>
          rw [traverse_cons haddr]
          cases ifa.selected with
          | true =>
              show some (storeMac mac addr) = some out
                ↔ _ ∧ out = ifa.firstBytes.getD mac
              rw [Ifaddrs.firstBytes, haddr, storeMac_eq, Option.some.injEq,
                eq_comm]
              exact (and_iff_right nofun).symm
          | false =>
              show traverse mac next = some out
                ↔ (∀ i ∈ ifa :: passed next, i.ifaAddr.isSome) ∧ _
              rw [ih, List.forall_mem_cons, haddr]
              exact and_congr_left fun _ => (and_iff_right rfl).symm

-- ==================================================================== the call

/-- `get_mac_address` dereferences no null address and leaves the bytes of
the first selected interface (or the old bytes) in `mac_address`, exactly
when no entry without an address comes before that interface in the list. -/
theorem selects_iff (getifaddrs : Option (List Ifaddrs)) (mac : MacAddress) :
    (∃ out, getMacAddress getifaddrs mac = some out
        ∧ out.macAddress = expected mac (getifaddrs.getD []))
      ↔ ∀ ifa ∈ passed (getifaddrs.getD []), ifa.ifaAddr.isSome := by
  unfold getMacAddress
  constructor
  · rintro ⟨out, hout, -⟩
    obtain ⟨mac', htrav, -⟩ := Option.bind_eq_some_iff.mp hout
    exact (traverse_eq_some_iff.mp htrav).1
  · intro hpassed
    have htrav : traverse mac (getifaddrs.getD [])
        = some (expected mac (getifaddrs.getD [])) :=
      traverse_eq_some_iff.mpr ⟨hpassed, rfl⟩
    exact ⟨_, Option.bind_eq_some_iff.mpr ⟨_, htrav, rfl⟩, rfl⟩

/-- A tunnel without an address, and a network card after it. -/
def tunnelFirst : List Ifaddrs :=
  [⟨none, 0⟩, ⟨some ⟨afPacket, #v[2, 66, 172, 17, 0, 2, 0, 0]⟩, 0⟩]

/-- The call faults on the first entry. -/
theorem tunnel_faults :
    getMacAddress (some tunnelFirst) #v[0, 0, 0] = none
      ∧ expected #v[0, 0, 0] tunnelFirst = #v[2, 66, 172] := by
  constructor <;> rfl

end DailyStudy.Mac
