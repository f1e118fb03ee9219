/-
`main` of draft.cpp: what it prints, by what `getifaddrs` returns and by
what its `mac` holds before anything is stored to it.
-/
import DailyStudy.Lib.Text
import DailyStudy.Mac.Basic

namespace DailyStudy.Mac

open Text

/-- A run of `main`: what it printed, and whether it faulted. -/
structure Run where
  text : List Char
  faulted : Bool
deriving DecidableEq

/-- The first line: the number `a`. -/
def banner : Stream := (Stream.initial.putNat 90).endl

/-- One byte: `std::hex << std::setw(2) << std::setfill('0') << int`. -/
def putByte (cout : Stream) (byte : UInt8) : Stream :=
  ((cout.hex.setw 2).setfill '0').putNat byte.toNat

/-- The line with the address. -/
def putMac (cout : Stream) (mac : MacAddress) : Stream :=
  let cout := cout.putText "MAC address: ".toList
  let cout := (putByte cout (mac.get 0)).putText ":".toList
  let cout := (putByte cout (mac.get 1)).putText ":".toList
  (putByte cout (mac.get 2)).endl

/-- `main`. -/
def main (getifaddrs : Option (List Ifaddrs)) (mac : MacAddress) : Run :=
  match getMacAddress getifaddrs mac with
  | none => { text := banner.text, faulted := true }
  | some out =>
      { text := (putMac banner out.macAddress).text, faulted := false }

end DailyStudy.Mac
