/-
# Tokens

The tokens of the class-outline grammar.  `newline`, `indent` and `dedent` are
the layout tokens: the last two stand for a change of indentation and carry no
text of their own.
-/

namespace Lineage
namespace Source

/-- A stretch of the source, in bytes. -/
structure Extent where
  start : Nat
  stop : Nat
deriving DecidableEq, Repr

/-- The empty stretch at an offset. -/
def Extent.point (offset : Nat) : Extent := ⟨offset, offset⟩

/-- A token; the kinds with many spellings keep theirs. -/
inductive Token where
  | classKeyword
  | defKeyword
  | asyncKeyword
  | passKeyword
  | lambdaKeyword
  | identifier (text : String)
  | string (text : String)
  | number (text : String)
  | openParen
  | closeParen
  | openBracket
  | closeBracket
  | openBrace
  | closeBrace
  | comma
  | colon
  | semicolon
  | dot
  | atSign
  | equals
  | arrow
  | augmented (text : String)
  | operator (text : String)
  | newline
  | indent
  | dedent
deriving DecidableEq, Repr

namespace Token

/-- An opening bracket. -/
def isOpener : Token → Bool
  | .openParen | .openBracket | .openBrace => true
  | _ => false

/-- A closing bracket. -/
def isCloser : Token → Bool
  | .closeParen | .closeBracket | .closeBrace => true
  | _ => false

/-- A change of indentation. -/
def isShift : Token → Bool
  | .indent | .dedent => true
  | _ => false

/-- A layout token. -/
def isLayout (t : Token) : Bool := t == .newline || t.isShift

/-- An identifier. -/
def isIdentifier : Token → Bool
  | .identifier _ => true
  | _ => false

/-- A string literal. -/
def isString : Token → Bool
  | .string _ => true
  | _ => false

/-- No bracket both opens and closes. -/
theorem isCloser_eq_false_of_isOpener {t : Token} (h : t.isOpener = true) : t.isCloser = false := by
  cases t <;> simp_all [isOpener, isCloser]

/-- How a token is named when it is found where it does not belong. -/
def describe : Token → String
  | .classKeyword => "keyword 'class'"
  | .defKeyword => "keyword 'def'"
  | .asyncKeyword => "keyword 'async'"
  | .passKeyword => "keyword 'pass'"
  | .lambdaKeyword => "keyword 'lambda'"
  | .identifier text => "identifier '" ++ text ++ "'"
  | .string text => "string " ++ text
  | .number text => "number " ++ text
  | .openParen => "'('"
  | .closeParen => "')'"
  | .openBracket => "'['"
  | .closeBracket => "']'"
  | .openBrace => "'\x7b'"
  | .closeBrace => "'\x7d'"
  | .comma => "','"
  | .colon => "':'"
  | .semicolon => "';'"
  | .dot => "'.'"
  | .atSign => "'@'"
  | .equals => "'='"
  | .arrow => "'->'"
  | .augmented text => "'" ++ text ++ "'"
  | .operator text => "'" ++ text ++ "'"
  | .newline => "end of line"
  | .indent => "indent"
  | .dedent => "dedent"

end Token

/-- A token at its place in the source. -/
structure Lexeme where
  token : Token
  extent : Extent
deriving DecidableEq, Repr

end Source
end Lineage
