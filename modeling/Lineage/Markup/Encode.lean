/-
# Encoding text

`encodeEntities` writes each flagged character as a reference and keeps the runs
between them.  `encodeSections` wraps a text that has a flagged character in
sections; a text that contains the close of a section is cut inside it, so that
no section holds one.
-/

import Lineage.Markup.Escape
import Lineage.Markup.Fragment

namespace Lineage
namespace Markup

/-- A stretch of text: a run without flagged characters, or one flagged character. -/
inductive Piece where
  | run (text : List Char)
  | flagged (c : Char)
deriving DecidableEq, Repr

/-- A plain character in front of pieces joins the run there. -/
def prependPlain (c : Char) : List Piece → List Piece
  | .run cs :: ps => .run (c :: cs) :: ps
  | ps => .run [c] :: ps

/-- A text cut at its flagged characters. -/
def pieces (flags : Char → Bool) : List Char → List Piece
  | [] => []
  | c :: cs => if flags c then .flagged c :: pieces flags cs else prependPlain c (pieces flags cs)

/-- The node of a piece. -/
def Piece.node : Piece → Node
  | .run cs => .text (String.ofList cs)
  | .flagged c => referenceTo c

/-- A text with a reference for each flagged character. -/
def encodeEntities (flags : Char → Bool) (text : String) : List Node :=
  (pieces flags text.toList).map Piece.node

/-- A character in front of the first part. -/
def prependFirst (c : Char) : List (List Char) → List (List Char)
  | [] => [[c]]
  | part :: parts => (c :: part) :: parts

/-- A text cut before the last character of every section close in it. -/
def sectionParts : List Char → List (List Char)
  | [] => [[]]
  | ']' :: ']' :: '>' :: cs => [']', ']'] :: prependFirst '>' (sectionParts cs)
  | c :: cs => prependFirst c (sectionParts cs)

/-- A text in sections if it has a flagged character, as a plain run otherwise. -/
def encodeSections (flags : Char → Bool) (text : String) : List Node :=
  if text.toList.any flags then
    (sectionParts text.toList).map fun part => .cdata (String.ofList part)
  else runNodes text

/-- A text as the mode says. -/
def encodeNodes (mode : EncodeMode) (flags : Char → Bool) (text : String) : List Node :=
  match mode with
  | .entities => encodeEntities flags text
  | .cdata => encodeSections flags text

namespace Fragment

/-- A text as the mode says, at the end. -/
def encodeIn (mode : EncodeMode) (flags : Char → Bool) (text : String) (f : Fragment) :
    Fragment :=
  f.append (encodeNodes mode flags text)

/-- A text as the options say, at the end. -/
def encodeWith (o : EncodeOptions) (text : String) (f : Fragment) : Fragment :=
  f.encodeIn o.mode o.escapes.flags text

end Fragment

/-- The fragment of one text. -/
def encode (o : EncodeOptions) (text : String) : Fragment := Fragment.empty.encodeWith o text

end Markup
end Lineage
