/-
# The flat lexemes of a source

`flatLexemes` cuts a source into its tokens, one after another, as `scan` finds
them, and stops at the first character that starts none.  Layout is not yet read:
every line break is a `newline` token here.  A flat lexeme also knows the display
column it starts in.
-/

import Lineage.Source.Scan
import Lineage.Text.Bytes

namespace Lineage
namespace Source

/-- A place in the source: its byte offset, and its display column. -/
structure Position where
  offset : Nat
  column : Nat
deriving DecidableEq, Repr

namespace Position

/-- The place before the first character. -/
def first : Position := ⟨0, 0⟩

/-- The column after a character: a line break starts over, a tab goes to the next
multiple of eight, any other character takes one column. -/
def nextColumn (column : Nat) (c : Char) : Nat :=
  if c = '\n' then 0 else if c = '\t' then (column / 8 + 1) * 8 else column + 1

/-- The place after a character. -/
def advance (p : Position) (c : Char) : Position :=
  ⟨p.offset + c.utf8Size, nextColumn p.column c⟩

/-- The place after a text. -/
def after (p : Position) (cs : List Char) : Position := cs.foldl advance p

/-- A position behind no text is the same position. -/
@[simp] theorem after_nil (p : Position) : p.after [] = p := rfl

/-- A position behind a text is one behind its first character, then behind the rest. -/
@[simp] theorem after_cons (p : Position) (c : Char) (cs : List Char) :
    p.after (c :: cs) = (p.advance c).after cs := rfl

/-- A position behind two texts is one behind the first, then behind the second. -/
theorem after_append (p : Position) (a b : List Char) : p.after (a ++ b) = (p.after a).after b := by
  simp [after, List.foldl_append]

/-- The offset goes on by the length of the text in bytes. -/
theorem offset_after (p : Position) (cs : List Char) :
    (p.after cs).offset = p.offset + Text.byteLength cs := by
  induction cs generalizing p with
  | nil => simp
  | cons c cs ih => simp [ih, advance, Nat.add_assoc]

end Position

/-- A lexeme and the column it starts in. -/
structure FlatLexeme extends Lexeme where
  column : Nat
deriving DecidableEq, Repr

/-- The lexemes of a source up to the first error, if there is one. -/
structure FlatSource where
  lexemes : List FlatLexeme
  fault : Option Extent
deriving DecidableEq, Repr

/-- The lexemes of a text that starts at `p`, of which the first `pending`
characters are already used. -/
def flatFrom (pending : Nat) (p : Position) : List Char → FlatSource
  | [] => ⟨[], none⟩
  | c :: cs =>
    match pending with
    | n + 1 => flatFrom n (p.advance c) cs
    | 0 =>
      let s := scan (c :: cs)
      let extent : Extent := ⟨p.offset, (p.after ((c :: cs).take s.length)).offset⟩
      match s with
      | .bad _ => ⟨[], some extent⟩
      | .skip n => flatFrom (n - 1) (p.advance c) cs
      | .token t n =>
        let rest := flatFrom (n - 1) (p.advance c) cs
        ⟨⟨⟨t, extent⟩, p.column⟩ :: rest.lexemes, rest.fault⟩

/-- The flat lexemes of a source. -/
def flatLexemes (source : List Char) : FlatSource := flatFrom 0 .first source

/-- Used characters are passed over. -/
theorem flatFrom_pending (n : Nat) (p : Position) (cs : List Char) (h : n ≤ cs.length) :
    flatFrom n p cs = flatFrom 0 (p.after (cs.take n)) (cs.drop n) := by
  induction cs generalizing n p with
  | nil => simp at h; simp [h]
  | cons c cs ih =>
    cases n with
    | zero => simp
    | succ n =>
      simp only [List.length_cons, Nat.add_le_add_iff_right] at h
      rw [flatFrom, ih n (p.advance c) h]
      simp

end Source
end Lineage
