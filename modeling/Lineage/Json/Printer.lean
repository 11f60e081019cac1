/-
# Printing JSON values

`Json.pretty` writes a value over several lines, two blanks a level; empty lists
and objects stay on one line.  Texts are escaped as little as the format allows.
-/

import Lineage.Json.Value
import Lineage.Text.Numeral

namespace Lineage
namespace Json

/-- How a character stands in a text. -/
def escapeChar (c : Char) : List Char :=
  if c = '"' then ['\\', '"']
  else if c = '\\' then ['\\', '\\']
  else if c = '\x08' then ['\\', 'b']
  else if c = '\x0c' then ['\\', 'f']
  else if c = '\n' then ['\\', 'n']
  else if c = '\r' then ['\\', 'r']
  else if c = '\t' then ['\\', 't']
  else if c.val < 0x20 then '\\' :: 'u' :: Text.hexPadded 4 c.toNat
  else [c]

/-- A text between its quotes. -/
def printText (s : String) : String := String.ofList ('"' :: s.toList.flatMap escapeChar ++ ['"'])

/-- A line break and the blanks of a level. -/
def lineBreak (level : Nat) : String := "\n" ++ String.ofList (List.replicate (2 * level) ' ')

mutual

/-- The value over several lines, the first one at `level`. -/
def prettyAt (level : Nat) : Json → String
  | .null => "null"
  | .bool b => if b then "true" else "false"
  | .natural n => n.repr
  | .number s => s
  | .text s => printText s
  | .unreadable => "null"
  | .list [] => "[]"
  | .list (item :: items) =>
    "[" ++ lineBreak (level + 1) ++ prettyAt (level + 1) item ++ prettyItems (level + 1) items
      ++ lineBreak level ++ "]"
  | .object [] => "\x7b\x7d"
  | .object ((name, value) :: fields) =>
    "\x7b" ++ lineBreak (level + 1) ++ printText name ++ ": " ++ prettyAt (level + 1) value
      ++ prettyFields (level + 1) fields ++ lineBreak level ++ "\x7d"

/-- The items after the first one, each on its line. -/
def prettyItems (level : Nat) : List Json → String
  | [] => ""
  | item :: items => "," ++ lineBreak level ++ prettyAt level item ++ prettyItems level items

/-- The fields after the first one, each on its line. -/
def prettyFields (level : Nat) : List (String × Json) → String
  | [] => ""
  | (name, value) :: fields =>
    "," ++ lineBreak level ++ printText name ++ ": " ++ prettyAt level value
      ++ prettyFields level fields

end

/-- The value over several lines. -/
def pretty (j : Json) : String := prettyAt 0 j

end Json
end Lineage
