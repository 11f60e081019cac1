/-
# Parse errors

Why a source is refused, and where.  Offsets count bytes.
-/

import Lineage.Source.Token

namespace Lineage
namespace Source

/-- What would have been accepted in place of the token found. -/
inductive Expected where
  | token (wanted : Token)
  | identifier
  | expression
  | parameter
  | definition
deriving DecidableEq, Repr

/-- How an expectation is named. -/
def Expected.describe : Expected → String
  | .token .indent => "indented block"
  | .token wanted => wanted.describe
  | .identifier => "identifier"
  | .expression => "expression"
  | .parameter => "parameter"
  | .definition => "'class' or 'def' after decorator"

/-- The causes of a refusal. -/
inductive ParseError where
  /-- A token that does not fit, or the end of the source (`found = none`). -/
  | unexpected (place : Extent) (expected : Expected) (found : Option Token)
  /-- The source ends too early. -/
  | incomplete (offset : Nat) (expected : Expected)
  /-- A line indented deeper without a block to open. -/
  | unexpectedIndent (place : Extent)
  /-- A line whose column is none of the open ones. -/
  | unevenIndent (place : Extent)
  /-- Characters that start no token. -/
  | unreadable (place : Extent)
deriving DecidableEq, Repr

namespace ParseError

/-- The stretch of source at fault. -/
def place : ParseError → Extent
  | .unexpected place _ _ => place
  | .incomplete offset _ => .point offset
  | .unexpectedIndent place => place
  | .unevenIndent place => place
  | .unreadable place => place

/-- The short remark set at the place at fault. -/
def label : ParseError → String
  | .unexpected _ expected _ => "expected " ++ expected.describe
  | .incomplete _ expected => "expected " ++ expected.describe
  | .unexpectedIndent _ => "unexpected indent"
  | .unevenIndent _ => "unindent does not match any outer indentation level"
  | .unreadable _ => "unrecognized character"

/-- How the end of a source or a token found is named. -/
def describeFound : Option Token → String
  | none => "end of file"
  | some t => t.describe

/-- The place as it is written in messages. -/
def writePlace (e : Extent) : String := e.start.repr ++ ".." ++ e.stop.repr

/-- The message of an error. -/
def message : ParseError → String
  | .unexpected place expected found =>
    "Unexpected token at " ++ writePlace place ++ ": expected " ++ expected.describe
      ++ ", found " ++ describeFound found
  | .incomplete offset expected =>
    "Unexpected end of file at " ++ offset.repr ++ ": expected " ++ expected.describe
  | .unexpectedIndent place =>
    "Invalid syntax at " ++ writePlace place ++ ": " ++ label (.unexpectedIndent place)
  | .unevenIndent place =>
    "Invalid syntax at " ++ writePlace place ++ ": " ++ label (.unevenIndent place)
  | .unreadable place => "Lexer error at " ++ writePlace place

end ParseError
end Source
end Lineage
