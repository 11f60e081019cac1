/-
# Reading JSON text

`Json.read?` reads one value that fills the whole text, blanks aside.  It accepts
the grammar of the format and nothing beyond it: no leading zeros, no trailing
commas, no raw control characters in a text, no text after the value.
-/

import Lineage.Json.Value
import Lineage.Text.Search
import Lineage.Text.Numeral

namespace Lineage
namespace Json

open Text

/-- The blanks of the format. -/
def isBlank (c : Char) : Bool := c == ' ' || c == '\n' || c == '\t' || c == '\r'

/-- The text after its leading blanks. -/
def skipBlanks (cs : List Char) : List Char := cs.dropWhile isBlank

/-- A decimal digit. -/
def isDecimal (c : Char) : Bool := '0' ≤ c && c ≤ '9'

/-- The length of a fraction at the start of the text, zero if there is none;
`none` if its digits are missing. -/
def fractionLength? : List Char → Option Nat
  | '.' :: cs =>
    match (cs.takeWhile isDecimal).length with
    | 0 => none
    | n => some (n + 1)
  | _ => some 0

/-- The length of an exponent at the start of the text, as for a fraction. -/
def exponentLength? : List Char → Option Nat
  | e :: cs =>
    if e == 'e' || e == 'E' then
      let sign := match cs with
        | s :: _ => if s == '+' || s == '-' then 1 else 0
        | [] => 0
      match ((cs.drop sign).takeWhile isDecimal).length with
      | 0 => none
      | n => some (1 + sign + n)
    else some 0
  | [] => some 0

/-- A number at the start of the text, with the rest.  Plain digits are a natural
number if it fits 64 bits. -/
def readNumber? (cs : List Char) : Option (Json × List Char) := do
  let (signed, digits) := match cs with
    | '-' :: r => (true, r)
    | _ => (false, cs)
  let whole ← match digits with
    | '0' :: _ => some 1
    | _ =>
      match (digits.takeWhile isDecimal).length with
      | 0 => none
      | n => some n
  if digits.head? == some '0' && ((digits.drop 1).head?.any isDecimal) then none
  let fraction ← fractionLength? (digits.drop whole)
  let exponent ← exponentLength? (digits.drop (whole + fraction))
  let size := whole + fraction + exponent
  let rest := digits.drop size
  let written := String.ofList (cs.take (if signed then size + 1 else size))
  if signed || fraction + exponent != 0 then return (.number written, rest)
  let n ← readNumeral? 10 (digits.take whole)
  if n < UInt64.size then return (.natural n, rest)
  return (.number written, rest)

/-- The value of the four hexadecimal digits at the start of the text. -/
def readUnit? (cs : List Char) : Option (Nat × List Char) :=
  if (cs.take 4).length = 4 then (readNumeral? 16 (cs.take 4)).map (·, cs.drop 4) else none

/-- The characters of a text up to its closing quote, with the rest.  `fuel`
bounds the characters read.  The characters are `none` if an escape names half
of a surrogate pair. -/
def readText? : (fuel : Nat) → List Char → Option (Option (List Char) × List Char)
  | 0, _ => none
  | _ + 1, [] => none
  | _ + 1, '"' :: rest => some (some [], rest)
  | fuel + 1, '\\' :: 'u' :: cs => do
    let (unit, cs) ← readUnit? cs
    if 0xD800 ≤ unit && unit < 0xDC00 then
      match (after? ['\\', 'u'] cs).bind readUnit? with
      | some (low, cs') =>
        if 0xDC00 ≤ low && low < 0xE000 then
          let (tail, rest) ← readText? fuel cs'
          let c := Char.ofNat (0x10000 + (unit - 0xD800) * 0x400 + (low - 0xDC00))
          return (tail.map (c :: ·), rest)
        else
          let (_, rest) ← readText? fuel cs
          return (none, rest)
      | none =>
        let (_, rest) ← readText? fuel cs
        return (none, rest)
    else if 0xDC00 ≤ unit && unit < 0xE000 then
      let (_, rest) ← readText? fuel cs
      return (none, rest)
    else
      let (tail, rest) ← readText? fuel cs
      return (tail.map (Char.ofNat unit :: ·), rest)
  | fuel + 1, '\\' :: e :: cs => do
    let c ← match e with
      | '"' => some '"'
      | '\\' => some '\\'
      | '/' => some '/'
      | 'b' => some '\x08'
      | 'f' => some '\x0c'
      | 'n' => some '\n'
      | 'r' => some '\r'
      | 't' => some '\t'
      | _ => none
    let (tail, rest) ← readText? fuel cs
    return (tail.map (c :: ·), rest)
  | fuel + 1, c :: cs => do
    if c.val < 0x20 then none
    let (tail, rest) ← readText? fuel cs
    return (tail.map (c :: ·), rest)

/-- The value of a text whose opening quote is read, with the rest. -/
def readString? (fuel : Nat) (cs : List Char) : Option (Json × List Char) :=
  (readText? fuel cs).map fun
    | (some chars, rest) => (.text (String.ofList chars), rest)
    | (none, rest) => (.unreadable, rest)

/-- The object with the fields that are read; unreadable if one of their names is. -/
def objectOf (fields : List (Option (List Char) × Json)) : Json :=
  match fields.mapM fun f => f.1.map fun name => (String.ofList name, f.2) with
  | some fields => .object fields
  | none => .unreadable

mutual

/-- A value at the start of the text, with the rest. -/
def readValue? : (fuel : Nat) → List Char → Option (Json × List Char)
  | 0, _ => none
  | fuel + 1, cs =>
    match cs with
    | '"' :: cs => readString? (fuel + 1) cs
    | '[' :: cs =>
      match skipBlanks cs with
      | ']' :: rest => some (.list [], rest)
      | cs => do
        let (items, rest) ← readItems? fuel cs
        return (.list items, rest)
    | '\x7b' :: cs =>
      match skipBlanks cs with
      | '\x7d' :: rest => some (.object [], rest)
      | cs => do
        let (fields, rest) ← readFields? fuel cs
        return (objectOf fields, rest)
    | _ =>
      match after? "null".toList cs with
      | some rest => some (.null, rest)
      | none =>
        match after? "true".toList cs with
        | some rest => some (.bool true, rest)
        | none =>
          match after? "false".toList cs with
          | some rest => some (.bool false, rest)
          | none => readNumber? cs

/-- The items of a list up to its closing bracket, with the rest. -/
def readItems? : (fuel : Nat) → List Char → Option (List Json × List Char)
  | 0, _ => none
  | fuel + 1, cs => do
    let (item, cs) ← readValue? fuel cs
    match skipBlanks cs with
    | ',' :: cs =>
      let (items, rest) ← readItems? fuel (skipBlanks cs)
      return (item :: items, rest)
    | ']' :: rest => return ([item], rest)
    | _ => none

/-- The fields of an object up to its closing brace, with the rest.  The name of a
field is `none` if it is unreadable. -/
def readFields? : (fuel : Nat) → List Char →
    Option (List (Option (List Char) × Json) × List Char)
  | 0, _ => none
  | fuel + 1, cs =>
    match cs with
    | '"' :: cs => do
      let (name, cs) ← readText? (fuel + 1) cs
      match skipBlanks cs with
      | ':' :: cs =>
        let (value, cs) ← readValue? fuel (skipBlanks cs)
        let field := (name, value)
        match skipBlanks cs with
        | ',' :: cs =>
          let (fields, rest) ← readFields? fuel (skipBlanks cs)
          return (field :: fields, rest)
        | '\x7d' :: rest => return ([field], rest)
        | _ => none
      | _ => none
    | _ => none

end

/-- The value that the whole text writes. -/
def read? (text : String) : Option Json := do
  let cs := text.toList
  let (value, rest) ← readValue? (cs.length + 1) (skipBlanks cs)
  if (skipBlanks rest).isEmpty then some value else none

end Json
end Lineage
