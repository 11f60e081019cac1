/-
# Character references

A character that must not stand in markup as it is stands as a reference: by name
if it has one, by its code point in decimal otherwise.  A reference is read back
in more ways than it is written: the code point may also be hexadecimal, and may
have a plus sign in front.
-/

import Lineage.Text.Numeral
import Lineage.Text.Search

namespace Lineage
namespace Markup

open Text

/-- The characters with a named reference. -/
def entities : List (Char × String) := [
  ('<', "&lt;"), ('>', "&gt;"), ('&', "&amp;"), ('\u00A0', "&nbsp;")]

/-- The named reference of a character. -/
def namedReference? (c : Char) : Option String := entities.lookup c

/-- A reference by code point. -/
def numericReference (c : Char) : String := "&#" ++ c.toNat.repr ++ ";"

/-- The reference of a character. -/
def charReference (c : Char) : String := (namedReference? c).getD (numericReference c)

/-- The characters that always need escaping: those with a name. -/
def isEntity (c : Char) : Bool := entities.any (·.1 == c)

/-- The character of a code point, if there is one. -/
def scalar? (n : Nat) : Option Char :=
  if h : n.isValidChar then some (Char.ofNatAux n h) else none

/-- The number that digits write after at most one plus sign, in 32 bits. -/
def readCode? (base : Nat) (cs : List Char) : Option Nat :=
  let digits := match cs with
    | '+' :: rest => rest
    | _ => cs
  (readNumeral? base digits).filter (· < UInt32.size)

/-- The character that the text between `&#` and `;` names. -/
def numericChar? : List Char → Option Char
  | [] => none
  | c :: cs =>
    ((if c = 'x' ∨ c = 'X' then readCode? 16 cs else readCode? 10 (c :: cs)).bind scalar?)

/-- The character that the text between `&` and `;` names. -/
def referenceBody? : List Char → Option Char
  | '#' :: cs => numericChar? cs
  | body => (entities.find? fun e => e.2.toList == '&' :: body ++ [';']).map (·.1)

/-- The text of a reference between `&` and `;`. -/
def referenceText? : List Char → Option (List Char)
  | '&' :: cs =>
    match cs.getLast? with
    | some ';' => some cs.dropLast
    | _ => none
  | _ => none

/-- The character that a reference stands for. -/
def decodeReference? (reference : String) : Option Char :=
  (referenceText? reference.toList).bind referenceBody?

end Markup
end Lineage
