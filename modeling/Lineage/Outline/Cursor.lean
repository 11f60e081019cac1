/-
# Reading tokens

A reading goes over the tokens of one source and numbers the spans it makes.  It
ends with a value, with a refusal of the source, or with a defect: a step that
the reading itself must never take.  A refusal that is caught goes back to where
the attempt began, but the spans made in between keep their numbers.
-/

import Lineage.Source.Error
import Lineage.Outline.Syntax
import Lineage.Outline.Identity
import Lineage.Text.Bytes

namespace Lineage
namespace Outline

open Source

/-- What stays the same during a reading. -/
structure Origin where
  text : List Char
  module : String

/-- The size of the source in bytes. -/
def Origin.size (o : Origin) : Nat := Text.byteLength o.text

/-- A place between two tokens. -/
structure Cursor where
  /-- The tokens ahead. -/
  rest : List Lexeme
  /-- Where the last token passed ends, layout aside. -/
  lastStop : Nat
  /-- The last token passed is a line end. -/
  afterNewline : Bool
  /-- The spans made so far. -/
  made : Nat
deriving Repr

/-- Steps that no reading takes. -/
inductive Defect where
  /-- A bracket is closed that was not opened. -/
  | bracket
  /-- A block is closed that was not opened. -/
  | block
  /-- A stretch of source is out of order or cuts a character. -/
  | slice
  /-- A literal is cut inside a character. -/
  | literal
  /-- A target has no value to its place. -/
  | element
  /-- The bound on the number of rounds is used up. -/
  | rounds
deriving DecidableEq, Repr

/-- How a reading ends. -/
inductive Reply (α : Type) where
  | done (value : α) (cursor : Cursor)
  | refused (error : ParseError) (made : Nat)
  | defect (what : Defect)

/-- A reading of tokens. -/
def Reading (α : Type) : Type := Origin → Cursor → Reply α

namespace Reading

/-- Readings go on one after another, from where the one before has ended, until one ends without a
value. -/
instance : Monad Reading where
  pure a := fun _ c => .done a c
  bind x f := fun o c =>
    match x o c with
    | .done a c' => f a o c'
    | .refused e n => .refused e n
    | .defect d => .defect d

/-- Giving a value reads nothing. -/
@[simp] theorem pure_apply {α : Type} (a : α) (o : Origin) (c : Cursor) :
    (pure a : Reading α) o c = .done a c := rfl

/-- A sequence goes on with what the first reading has found, or ends as that one does. -/
theorem bind_apply {α β : Type} (x : Reading α) (f : α → Reading β) (o : Origin) (c : Cursor) :
    (x >>= f) o c = match x o c with
      | .done a c' => f a o c'
      | .refused e n => .refused e n
      | .defect d => .defect d := rfl

/-- Refuses the source. -/
def refuse {α : Type} (e : ParseError) : Reading α := fun _ c => .refused e c.made

/-- Takes a step that is never taken. -/
def fault {α : Type} (d : Defect) : Reading α := fun _ _ => .defect d

/-- The value, or a defect if there is none. -/
def orFault {α : Type} (d : Defect) : Option α → Reading α
  | some a => pure a
  | none => fault d

/-- Tries a reading; if it refuses or finds nothing, nothing has been passed. -/
def tentative {α : Type} (x : Reading (Option α)) : Reading (Option α) := fun o c =>
  match x o c with
  | .done (some a) c' => .done (some a) c'
  | .done none c' => .done none { c with made := c'.made }
  | .refused _ n => .done none { c with made := n }
  | .defect d => .defect d

/-- What a round of a loop ends with. -/
inductive Round (σ α : Type) where
  | again (state : σ)
  | stop (value : α)

/-- At most `bound` rounds. -/
def rounds {σ α : Type} (step : σ → Reading (Round σ α)) : (bound : Nat) → σ → Reading α
  | 0, _ => fault .rounds
  | n + 1, s => do
    match ← step s with
    | .again s' => rounds step n s'
    | .stop a => pure a

/-- Rounds until one stops.  As every round but the last passes a token, there are
no more of them than tokens ahead and one. -/
def repeatRounds {σ α : Type} (step : σ → Reading (Round σ α)) (s : σ) : Reading α := fun o c =>
  rounds step (c.rest.length + 1) s o c

end Reading

namespace Cursor

/-- Before the first token. -/
def first (tokens : List Lexeme) : Cursor := ⟨tokens, 0, false, 0⟩

/-- Past the next token; the end of the tokens is never passed. -/
def advance (c : Cursor) : Cursor :=
  match c.rest with
  | [] => c
  | l :: ls =>
    { rest := ls
      lastStop := if l.token.isLayout then c.lastStop else l.extent.stop
      afterNewline := l.token == .newline
      made := c.made }

/-- Past the next `n` tokens. -/
def advanceBy : Nat → Cursor → Cursor
  | 0, c => c
  | n + 1, c => advanceBy n c.advance

/-- To advance is to drop the next token. -/
@[simp] theorem rest_advance (c : Cursor) : c.advance.rest = c.rest.drop 1 := by
  unfold advance; split <;> simp_all

/-- To advance makes no span. -/
@[simp] theorem made_advance (c : Cursor) : c.advance.made = c.made := by
  unfold advance; split <;> simp_all

/-- To advance by `n` is to drop the next `n` tokens. -/
@[simp] theorem rest_advanceBy (n : Nat) (c : Cursor) : (advanceBy n c).rest = c.rest.drop n := by
  induction n generalizing c with
  | zero => rfl
  | succ n ih => simp [advanceBy, ih]

/-- To advance by any number of tokens makes no span. -/
@[simp] theorem made_advanceBy (n : Nat) (c : Cursor) : (advanceBy n c).made = c.made := by
  induction n generalizing c with
  | zero => rfl
  | succ n ih => simp [advanceBy, ih]

end Cursor

namespace Reading

/-- The lexemes ahead. -/
def ahead : Reading (List Lexeme) := fun _ c => .done c.rest c

/-- The token at a distance ahead. -/
def peekAt (n : Nat) : Reading (Option Token) := fun _ c => .done (c.rest[n]?.map (·.token)) c

/-- The next token. -/
def peek : Reading (Option Token) := peekAt 0

/-- The place of the next token, or the end of the source. -/
def peekPlace : Reading Extent := fun o c =>
  match c.rest with
  | l :: _ => .done l.extent c
  | [] => .done (.point o.size) c

/-- Where the next token starts. -/
def peekStart : Reading Nat := return (← peekPlace).start

/-- All tokens are passed. -/
def atEnd : Reading Bool := fun _ c => .done c.rest.isEmpty c

/-- The next token is `t`. -/
def check (t : Token) : Reading Bool := return (← peek) == some t

/-- Passes `n` tokens. -/
def pass (n : Nat) : Reading Unit := fun _ c => .done () (c.advanceBy n)

/-- Passes the next token if it is `t`. -/
def accept (t : Token) : Reading Bool := do
  if ← check t then
    pass 1
    return true
  else return false

/-- What stands behind the next token, if that is `t`. -/
def ifNext {α : Type} (t : Token) (x : Reading α) : Reading (Option α) := do
  if ← accept t then return some (← x)
  else return none

/-- Refuses the next token. -/
def refuseNext {α : Type} (expected : Expected) : Reading α := do
  refuse (.unexpected (← peekPlace) expected (← peek))

/-- Passes the next token, which must be `t`. -/
def expect (t : Token) : Reading Unit := do
  if ← check t then pass 1
  else if ← atEnd then refuse (.incomplete (← peekStart) (.token t))
  else refuseNext (.token t)

/-- Passes the next token, which must be an identifier. -/
def expectIdentifier : Reading String := do
  match ← peek with
  | some (.identifier text) =>
    pass 1
    return text
  | _ => refuseNext .identifier

/-- Where the last token passed ends, layout aside. -/
def lastStop : Reading Nat := fun _ c => .done c.lastStop c

/-- The last token passed is a line end. -/
def afterNewline : Reading Bool := fun _ c => .done c.afterNewline c

/-- The size of the source in bytes. -/
def sourceSize : Reading Nat := fun o c => .done o.size c

/-- A span with the next number. -/
def makeSpan (start stop : Nat) : Reading Span := fun o c =>
  .done ⟨start, stop, spanId o.module (c.made + 1)⟩ { c with made := c.made + 1 }

/-- A span from `start` to the last token passed. -/
def spanFrom (start : Nat) : Reading Span := do makeSpan start (← lastStop)

/-- The source between two offsets. -/
def sourceText (start stop : Nat) : Reading (List Char) := fun o c =>
  match Text.slice? o.text start stop with
  | some cs => .done cs c
  | none => .defect .slice

end Reading
end Outline
end Lineage
