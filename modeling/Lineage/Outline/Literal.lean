/-
# The value of a string literal

A literal is a prefix, an opening quote or three, a body and the closing quotes.
A prefix with an `r` makes its body raw; in any other body a backslash and the
character after it stand for one character, for nothing, or for themselves.
-/

import Lineage.Source.Scan
import Lineage.Text.Bytes

namespace Lineage
namespace Outline

open Text Source

/-- The characters that a backslash and the character after it stand for. -/
def unescape (c : Char) : List Char :=
  if c = 'n' then ['\n']
  else if c = 't' then ['\t']
  else if c = 'r' then ['\r']
  else if c = '0' then ['\x00']
  else if c = '\\' ∨ c = '\'' ∨ c = '"' then [c]
  else if c = '\n' then []
  else ['\\', c]

/-- A body with its backslash pairs replaced, from left to right. -/
def unescapeBody : List Char → List Char
  | [] => []
  | [c] => [c]
  | c :: d :: cs =>
    if c = '\\' then unescape d ++ unescapeBody cs else c :: unescapeBody (d :: cs)

/-- The quotes on each side: three of the same, or one. -/
def quoteCount (quoted : List Char) : Nat :=
  if quoted.take 3 = ['"', '"', '"'] ∨ quoted.take 3 = ['\'', '\'', '\''] then 3 else 1

/-- The value of a literal.  A text too short for its quotes has the empty value.
`none` if the last bytes, which the closing quotes take, are part of a character. -/
def literalChars? (literal : List Char) : Option (List Char) :=
  let lead := literal.takeWhile (!isQuote ·)
  let quoted := literal.dropWhile (!isQuote ·)
  let n := quoteCount quoted
  if byteLength quoted < 2 * n then some []
  else
    (slice? quoted n (byteLength quoted - n)).map fun body =>
      if lead.contains 'r' || lead.contains 'R' then body else unescapeBody body

/-- The value of a literal; see `literalChars?`. -/
def literalValue? (literal : String) : Option String :=
  (literalChars? literal.toList).map String.ofList

end Outline
end Lineage
