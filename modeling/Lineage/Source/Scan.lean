/-
# One token at the start of a text

`scan` says what stands at the start of a text: a token of some length, characters
that carry no token, or characters that start none.  String literals come first,
since a quote after a string prefix belongs to no other pattern; among all the
other patterns the longest match wins.  Lengths count characters.
-/

import Lineage.Source.Token
import Lineage.Text.Identifier
import Lineage.Text.Search

namespace Lineage
namespace Source

open Text

/-- What stands at the start of a text, and how many characters it takes. -/
inductive Scan where
  | token (token : Token) (length : Nat)
  | skip (length : Nat)
  | bad (length : Nat)
deriving DecidableEq, Repr

/-- The number of characters taken. -/
def Scan.length : Scan → Nat
  | .token _ n => n
  | .skip n => n
  | .bad n => n

/-! ## String literals -/

/-- The letters that may stand, once or twice, before a quote. -/
def isStringLetter (c : Char) : Bool := "rRbBuUfF".toList.contains c

/-- The quote of a literal. -/
def isQuote (c : Char) : Bool := c == '"' || c == '\''

/-- The prefix length and the quote of a string literal at the start of a text. -/
def stringStart? : List Char → Option (Nat × Char)
  | [] => none
  | a :: cs =>
    if isQuote a then some (0, a)
    else if isStringLetter a then
      match cs with
      | [] => none
      | b :: cs =>
        if isQuote b then some (1, b)
        else if isStringLetter b then
          match cs with
          | [] => none
          | c :: _ => if isQuote c then some (2, c) else none
        else none
    else none

/-- The length of the text up to and with the closing triple quote; a backslash
hides the character after it. -/
def tripleLength? (quote : Char) : List Char → Option Nat
  | [] => none
  | [_] => none
  | [_, _] => none
  | a :: b :: c :: cs =>
    if a = '\\' then (tripleLength? quote (c :: cs)).map (· + 2)
    else if a = quote ∧ b = quote ∧ c = quote then some 3
    else (tripleLength? quote (b :: c :: cs)).map (· + 1)

/-- The length of the body of a literal on one line: up to its quote, a line end
or an unpaired backslash; a backslash takes the character after it, unless that
ends the line. -/
def bodyLength (quote : Char) : List Char → Nat
  | [] => 0
  | [a] => if a = quote ∨ a = '\\' ∨ a = '\r' ∨ a = '\n' then 0 else 1
  | a :: b :: cs =>
    if a = '\\' then
      if b = '\n' then 0 else bodyLength quote cs + 2
    else if a = quote ∨ a = '\r' ∨ a = '\n' then 0
    else bodyLength quote (b :: cs) + 1

/-- A string literal at the start of a text.  An unclosed one is an error over
its prefix, its quotes and, on one line, its body; a lone quote with nothing
after it is none. -/
def scanString? (cs : List Char) : Option Scan := do
  let (lead, quote) ← stringStart? cs
  let inner := cs.drop lead
  if inner.take 3 = [quote, quote, quote] then
    match tripleLength? quote (inner.drop 3) with
    | some n => some (.token (.string (String.ofList (cs.take (lead + 3 + n)))) (lead + 3 + n))
    | none => some (.bad (lead + 3))
  else
    let body := bodyLength quote (inner.drop 1)
    if (inner.drop (1 + body)).head? = some quote then
      let n := lead + body + 2
      some (.token (.string (String.ofList (cs.take n))) n)
    else if body = 0 then none
    else some (.bad (lead + 1 + body))

/-! ## The other patterns -/

/-- The length of a run of characters of a class. -/
def runLength (p : Char → Bool) (cs : List Char) : Nat := (cs.takeWhile p).length

/-- A character of the blanks between tokens. -/
def isBlank (c : Char) : Bool := c == ' ' || c == '\t' || c == '\x0c'

/-- Blanks between tokens. -/
def blanksLength (cs : List Char) : Nat := runLength isBlank cs

/-- A comment, up to the end of its line. -/
def commentLength : List Char → Nat
  | '#' :: cs => 1 + runLength (fun c => c != '\r' && c != '\n') cs
  | _ => 0

/-- A line break. -/
def breakLength : List Char → Nat
  | '\n' :: _ => 1
  | '\r' :: '\n' :: _ => 2
  | _ => 0

/-- A backslash that joins its line to the next one. -/
def joinLength : List Char → Nat
  | '\\' :: cs => match breakLength cs with
    | 0 => 0
    | n => n + 1
  | _ => 0

/-- A word: an identifier or a keyword. -/
def wordLength : List Char → Nat
  | c :: cs => if startsIdentifier c then 1 + runLength continuesIdentifier cs else 0
  | [] => 0

/-- A digit or the underscore between digits. -/
def isNumberChar (c : Char) : Bool := isDigit c || c == '_'

/-- The exponent of a number; zero if its digits are missing. -/
def exponentLength : List Char → Nat
  | e :: cs =>
    if e == 'e' || e == 'E' then
      let sign := match cs with
        | s :: _ => if s == '+' || s == '-' then 1 else 0
        | [] => 0
      match runLength isDigit (cs.drop sign) with
      | 0 => 0
      | n => 1 + sign + n
    else 0
  | [] => 0

/-- The mark of an imaginary number. -/
def imaginaryLength : List Char → Nat
  | c :: _ => if c == 'j' || c == 'J' then 1 else 0
  | [] => 0

/-- What may follow the digits of a decimal number. -/
def numberTailLength (cs : List Char) : Nat :=
  let n := exponentLength cs
  n + imaginaryLength (cs.drop n)

/-- A decimal number that starts with a digit. -/
def decimalLength : List Char → Nat
  | c :: cs =>
    if isDigit c then
      let whole := 1 + runLength isNumberChar cs
      let fraction := match (c :: cs).drop whole with
        | '.' :: rest => 1 + runLength isNumberChar rest
        | _ => 0
      whole + fraction + numberTailLength ((c :: cs).drop (whole + fraction))
    else 0
  | [] => 0

/-- A decimal number that starts with its point. -/
def pointedLength : List Char → Nat
  | '.' :: c :: cs =>
    if isDigit c then
      let n := 2 + runLength isNumberChar cs
      n + numberTailLength (('.' :: c :: cs).drop n)
    else 0
  | _ => 0

/-- A digit of a number with a radix prefix. -/
def isRadixChar (c : Char) : Bool :=
  isDigit c || ('a' ≤ c && c ≤ 'f') || ('A' ≤ c && c ≤ 'F') || c == '_'

/-- A number with a radix prefix. -/
def radixLength : List Char → Nat
  | '0' :: x :: cs =>
    if "xXoObB".toList.contains x then
      match runLength isRadixChar cs with
      | 0 => 0
      | n => 2 + n
    else 0
  | _ => 0

/-- The tokens with one spelling, and the operators. -/
def fixedTokens : List (String × Token) := [
  ("(", .openParen), (")", .closeParen), ("[", .openBracket), ("]", .closeBracket),
  ("\x7b", .openBrace), ("\x7d", .closeBrace), (",", .comma), (":", .colon), (";", .semicolon),
  (".", .dot), ("@", .atSign), ("=", .equals), ("->", .arrow),
  ("+=", .augmented "+="), ("-=", .augmented "-="), ("*=", .augmented "*="),
  ("/=", .augmented "/="), ("//=", .augmented "//="), ("%=", .augmented "%="),
  ("@=", .augmented "@="), ("&=", .augmented "&="), ("|=", .augmented "|="),
  ("^=", .augmented "^="), (">>=", .augmented ">>="), ("<<=", .augmented "<<="),
  ("**=", .augmented "**="),
  ("**", .operator "**"), ("//", .operator "//"), ("<<", .operator "<<"), (">>", .operator ">>"),
  ("<=", .operator "<="), (">=", .operator ">="), ("==", .operator "=="), ("!=", .operator "!="),
  (":=", .operator ":="), ("-", .operator "-"), ("+", .operator "+"), ("*", .operator "*"),
  ("/", .operator "/"), ("%", .operator "%"), ("&", .operator "&"), ("|", .operator "|"),
  ("^", .operator "^"), ("~", .operator "~"), ("<", .operator "<"), (">", .operator ">")]

/-- The words that are no identifiers. -/
def keywords : List (String × Token) := [
  ("class", .classKeyword), ("def", .defKeyword), ("async", .asyncKeyword),
  ("pass", .passKeyword), ("lambda", .lambdaKeyword)]

/-- The token that a word is. -/
def wordToken (text : String) : Token := (keywords.lookup text).getD (.identifier text)

/-- The longer of two matches, the first one if they are equally long. -/
def Scan.longer (a b : Scan) : Scan := if a.length < b.length then b else a

/-- The matches of every pattern at the start of a text, string literals aside;
an empty match is none. -/
def candidates (cs : List Char) : List Scan :=
  let taken (n : Nat) : String := String.ofList (cs.take n)
  [.skip (blanksLength cs), .skip (commentLength cs), .skip (joinLength cs),
    .token .newline (breakLength cs),
    .token (wordToken (taken (wordLength cs))) (wordLength cs),
    .token (.number (taken (decimalLength cs))) (decimalLength cs),
    .token (.number (taken (pointedLength cs))) (pointedLength cs),
    .token (.number (taken (radixLength cs))) (radixLength cs)]
  ++ fixedTokens.filterMap fun f =>
    (after? f.1.toList cs).map fun _ => .token f.2 f.1.length

/-- What stands at the start of a text.  A character that starts no token is bad
by itself. -/
def scan (cs : List Char) : Scan :=
  match scanString? cs with
  | some s => s
  | none =>
    match (candidates cs).foldl Scan.longer (.bad 0) with
    | .bad _ => .bad 1
    | s => s

end Source
end Lineage
