/-
# Layout

`tokenize` reads the layout of a source: it drops the line breaks inside brackets
and on empty lines, ends every logical line with one `newline`, and marks a
change of indentation at the start of a logical line by `indent` and `dedent`.
The column of the first line is the margin, so a uniformly indented source reads
like one that starts at the left edge.
-/

import Lineage.Source.Lexeme
import Lineage.Source.Error

namespace Lineage
namespace Source

/-- What is known between two lexemes: the open columns, the innermost first, the
depth of open brackets, and whether the next token starts a logical line. -/
structure Layout where
  columns : List Nat
  depth : Nat
  atLineStart : Bool
deriving DecidableEq, Repr

namespace Layout

/-- Before the first line. -/
def first : Layout := ⟨[], 0, true⟩

/-- The bracket depth after a token; a stray closer changes nothing. -/
def depthAfter (depth : Nat) (t : Token) : Nat :=
  if t.isOpener then depth + 1 else if t.isCloser then depth - 1 else depth

/-- The open columns for a logical line that starts in `column`, and the layout
tokens before it.  `none` if the line is none of the open columns. -/
def openLine? (columns : List Nat) (column : Nat) : Option (List Nat × List Token) :=
  match columns with
  | [] => some ([column], [])
  | top :: _ =>
    if top < column then some (column :: columns, [.indent])
    else
      let kept := columns.dropWhile (column < ·)
      if kept.head? = some column then
        some (kept, List.replicate (columns.length - kept.length) .dedent)
      else none

/-- The lexemes that one flat lexeme stands for. -/
def step (s : Layout) (l : FlatLexeme) : Except ParseError (List Lexeme × Layout) :=
  if l.token = .newline then
    if s.depth = 0 ∧ s.atLineStart = false then
      .ok ([l.toLexeme], { s with atLineStart := true })
    else .ok ([], s)
  else if s.atLineStart then
    match openLine? s.columns l.column with
    | none => .error (.unevenIndent l.extent)
    | some (columns, shifts) =>
      .ok (shifts.map (⟨·, .point l.extent.start⟩) ++ [l.toLexeme],
        ⟨columns, depthAfter s.depth l.token, false⟩)
  else .ok ([l.toLexeme], { s with depth := depthAfter s.depth l.token })

/-- The lexemes that close an ended source: the last line and every open block. -/
def finish (s : Layout) (stop : Nat) : List Lexeme :=
  (if s.atLineStart then [] else [⟨.newline, .point stop⟩])
    ++ List.replicate (s.columns.length - 1) ⟨.dedent, .point stop⟩

/-- Reads the layout of the lexemes of a source that ends at `stop`; `fault` is the
error that ends them early. -/
def read (stop : Nat) (fault : Option Extent) :
    Layout → List FlatLexeme → Except ParseError (List Lexeme)
  | s, [] =>
    match fault with
    | some e => .error (.unreadable e)
    | none => .ok (s.finish stop)
  | s, l :: ls =>
    match s.step l with
    | .error e => .error e
    | .ok (out, s') =>
      match read stop fault s' ls with
      | .error e => .error e
      | .ok rest => .ok (out ++ rest)

end Layout

/-- The lexemes of a source, its layout read. -/
def tokenizeChars (source : List Char) : Except ParseError (List Lexeme) :=
  let flat := flatLexemes source
  Layout.read (Text.byteLength source) flat.fault .first flat.lexemes

/-- The lexemes of a source, its layout read. -/
def tokenize (source : String) : Except ParseError (List Lexeme) := tokenizeChars source.toList

end Source
end Lineage
