/-
# Identities of modules and spans

A module is identified by the checksum of its location, and the spans of a module
by that and a number.
-/

import Lineage.Text.Checksum
import Lineage.Text.Numeral

namespace Lineage
namespace Outline

/-- The scheme of a module's location. -/
def locationScheme : String := "py://"

/-- The location of the module at `path`. -/
def location (path : String) : String :=
  if path.startsWith locationScheme then path else locationScheme ++ path

/-- The identity of the module at `path`: the CRC-32 of its location as eight
hexadecimal digits. -/
def moduleId (path : String) : String :=
  String.ofList (Text.hexPadded 8 (Text.crc32 (location path).toUTF8.toList).toNat)

/-- The identity of the `n`-th span of a module. -/
def spanId (module : String) (n : Nat) : String := module ++ "-" ++ n.repr

/-- The spans of one module are told apart by their numbers. -/
theorem spanId_inj {module : String} {m n : Nat} : spanId module m = spanId module n ↔ m = n := by
  constructor
  · intro h
    have h' : (module ++ "-" ++ m.repr).toList = (module ++ "-" ++ n.repr).toList := by
      simpa [spanId] using congrArg String.toList h
    simp only [String.toList_append] at h'
    have digits : Nat.toDigits 10 m = Nat.toDigits 10 n := by
      simpa [Nat.repr_eq_ofList_toDigits] using List.append_cancel_left h'
    have read := congrArg (Nat.ofDigitChars 10 · 0) digits
    simpa [Nat.ofDigitChars_ten_toDigits] using read
  · rintro rfl; rfl

end Outline
end Lineage
