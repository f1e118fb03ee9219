/-
What `main` of draft.cpp prints can be read back.

The width of a field is for one write, the base and the fill stay: so each
byte is two digits in base sixteen, and the texts between them are not
filled up (`putMac_text`). A reader of the line (`readMac`) gets the bytes
that `get_mac_address` left.
-/
import DailyStudy.Mac.Main
import DailyStudy.Mac.Proofs.Selection

namespace DailyStudy.Mac

open Text

-- ================================================================== the reader

/-- Reads the address from everything that was printed. -/
def readMac (text : List Char) : Option MacAddress :=
  match text with
  | '9' :: '0' :: '\n' :: 'M' :: 'A' :: 'C' :: ' ' :: 'a' :: 'd' :: 'd'
      :: 'r' :: 'e' :: 's' :: 's' :: ':' :: ' '
      :: x₀ :: y₀ :: ':' :: x₁ :: y₁ :: ':' :: x₂ :: y₂ :: ['\n'] => do
      let byte₀ ← readDigits 16 [x₀, y₀]
      let byte₁ ← readDigits 16 [x₁, y₁]
      let byte₂ ← readDigits 16 [x₂, y₂]
      return #v[.ofNat byte₀, .ofNat byte₁, .ofNat byte₂]
  | _ => none

-- ================================================================== the writer

/-- The field of a byte. -/
def byteField (byte : UInt8) : List Char :=
  pad '0' 2 (Nat.toDigits 16 byte.toNat)

/-- Two digits, which are read as the byte. -/
theorem byteField_spec (byte : UInt8) :
    ∃ x y, byteField byte = [x, y]
      ∧ readDigits 16 [x, y] = some byte.toNat := by
  have hlength : (byteField byte).length = 2 :=
    length_field (by decide) (by decide) byte.toNat_lt
  obtain ⟨x, y, hfield⟩ := List.length_eq_two.mp hlength
  refine ⟨x, y, hfield, ?_⟩
  rw [← hfield]
  exact readDigits_field (by decide) (by decide) 2 byte.toNat

/-- The whole text. -/
theorem putMac_text (mac : MacAddress) :
    (putMac banner mac).text
      = banner.text ++ "MAC address: ".toList
        ++ byteField (mac.get 0) ++ [':'] ++ byteField (mac.get 1) ++ [':']
        ++ byteField (mac.get 2) ++ ['\n'] :=
  rfl

/-- The address is read back from it. -/
theorem readMac_putMac (mac : MacAddress) :
    readMac (putMac banner mac).text = some mac := by
  obtain ⟨x₀, y₀, hfield₀, hread₀⟩ := byteField_spec (mac.get 0)
  obtain ⟨x₁, y₁, hfield₁, hread₁⟩ := byteField_spec (mac.get 1)
  obtain ⟨x₂, y₂, hfield₂, hread₂⟩ := byteField_spec (mac.get 2)
  have hread : readMac (putMac banner mac).text
      = some #v[.ofNat (mac.get 0).toNat, .ofNat (mac.get 1).toNat,
          .ofNat (mac.get 2).toNat] := by
    rw [putMac_text, hfield₀, hfield₁, hfield₂]
    show (readDigits 16 [x₀, y₀]).bind (fun byte₀ =>
      (readDigits 16 [x₁, y₁]).bind fun byte₁ =>
      (readDigits 16 [x₂, y₂]).bind fun byte₂ =>
      some (#v[.ofNat byte₀, .ofNat byte₁, .ofNat byte₂] : MacAddress)) = _
    rw [hread₀, hread₁, hread₂]
    rfl
  rw [hread, Option.some.injEq]
  apply Vector.ext
  intro i hi
  rcases i with _ | _ | _ | i
  · exact UInt8.ofNat_toNat
  · exact UInt8.ofNat_toNat
  · exact UInt8.ofNat_toNat
  · omega

-- ==================================================================== the runs

/-- Either every entry the loop passes has an address, and what is printed
reads back as the first bytes of the first selected interface (or as what
`mac` held); or one has none, and `main` faults after its first line. -/
theorem main_reads_back (getifaddrs : Option (List Ifaddrs))
    (mac : MacAddress) :
    ((∀ ifa ∈ passed (getifaddrs.getD []), ifa.ifaAddr.isSome)
      ∧ (main getifaddrs mac).faulted = false
      ∧ readMac (main getifaddrs mac).text
          = some (expected mac (getifaddrs.getD [])))
    ∨ ((∃ ifa ∈ passed (getifaddrs.getD []), ifa.ifaAddr = none)
      ∧ (main getifaddrs mac).faulted = true
      ∧ (main getifaddrs mac).text = "90\n".toList) := by
  cases htrav : traverse mac (getifaddrs.getD []) with
  | some out =>
      left
      obtain ⟨hpassed, hout⟩ := traverse_eq_some_iff.mp htrav
      have hmain : main getifaddrs mac
          = { text := (putMac banner out).text, faulted := false } := by
        simp [main, getMacAddress, htrav]
      rw [hmain]
      exact ⟨hpassed, rfl, hout ▸ readMac_putMac out⟩
  | none =>
      right
      have hmain : main getifaddrs mac
          = { text := banner.text, faulted := true } := by
        simp [main, getMacAddress, htrav]
      rw [hmain]
      refine ⟨?_, rfl, by decide⟩
      by_contra hall
      have hpassed : ∀ ifa ∈ passed (getifaddrs.getD []),
          ifa.ifaAddr.isSome := by
        intro ifa hifa
        by_contra hnone
        exact hall ⟨ifa, hifa, by simpa using hnone⟩
      rw [traverse_eq_some_iff.mpr ⟨hpassed, rfl⟩] at htrav
      cases htrav

end DailyStudy.Mac
