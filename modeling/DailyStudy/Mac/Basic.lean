/-
`get_mac_address` of draft.cpp, on the list `getifaddrs` returns.

The loop reads `ifa->ifa_addr->sa_family` of every entry it comes to, so
it faults on the first one without an address; the list may hold such
entries, and only the list head is compared with null.
-/
import Mathlib.Data.List.Basic

namespace DailyStudy.Mac

/-- `AF_PACKET`. -/
def afPacket : UInt16 := 17

/-- `IFF_LOOPBACK`. -/
def iffLoopback : UInt32 := 0x8

/-- A socket address: its family, and the bytes that are `sll_addr` when
the family is `AF_PACKET`. -/
structure Sockaddr where
  saFamily : UInt16
  sllAddr : Vector UInt8 8

/-- One entry of the list (`ifaAddr` none: the pointer is null). -/
structure Ifaddrs where
  ifaAddr : Option Sockaddr
  ifaFlags : UInt32

/-- The caller's `mac_address`: the bytes the function may store to. -/
abbrev MacAddress := Vector UInt8 3

/-- The condition of the loop's body, on an entry with this address. -/
def Ifaddrs.matchesOn (ifa : Ifaddrs) (addr : Sockaddr) : Bool :=
  addr.saFamily == afPacket && !(ifa.ifaFlags &&& iffLoopback != 0)

/-- The three stores. -/
def storeMac (mac : MacAddress) (sa : Sockaddr) : MacAddress :=
  let mac := mac.set 0 sa.sllAddr[0]
  let mac := mac.set 1 sa.sllAddr[1]
  mac.set 2 sa.sllAddr[2]

/-- The loop, from an entry on (none: a null pointer was dereferenced). -/
def traverse (mac : MacAddress) : List Ifaddrs → Option MacAddress
  | [] => some mac
  | ifa :: next =>
      match ifa.ifaAddr with
      | none => none
      | some addr =>
          if ifa.matchesOn addr then some (storeMac mac addr)
          else traverse mac next

/-- What the call leaves behind. -/
structure Outcome where
  macAddress : MacAddress
  freed : Bool

/-- `get_mac_address(mac_address)`, by what `getifaddrs` does (none: it
fails and leaves the list head null). -/
def getMacAddress (getifaddrs : Option (List Ifaddrs)) (mac : MacAddress) :
    Option Outcome := do
  let ifList := getifaddrs.getD []
  let mac' ← traverse mac ifList
  return { macAddress := mac', freed := !ifList.isEmpty }

end DailyStudy.Mac
