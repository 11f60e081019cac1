/-
# Reading expressions

An expression is read as a chain of members, calls and subscripts of a primary
expression.  Where the chain is not all of it, the whole expression is kept as its
source text.  The readings below take the reading of a smaller expression as an
argument; `expression` closes the loop, one level of nesting at a time.
-/

import Lineage.Outline.Cursor
import Lineage.Outline.Run
import Lineage.Outline.Literal
import Lineage.Outline.Expression
import Lineage.Text.Blank

namespace Lineage
namespace Outline

open Source Reading

/-- The expression ends before the next token. -/
def atExpressionEnd : Reading Bool := do
  match ← peek with
  | none => return true
  | some t => return endsExpression t

/-- Passes an expression of no modelled shape and keeps its source, from `start`. -/
def looseExpression (start : Nat) : Reading Expression := do
  let n ← orFault .bracket (looseLength? 0 false (← ahead))
  pass n
  let stop := max (← lastStop) start
  let text ← sourceText start stop
  return .other (String.ofList text) (← makeSpan start stop)

/-- Passes the bracketed group ahead; the answer is the stretch between its brackets. -/
def passGroup : Reading Extent := do
  let tokens ← ahead
  let opened := (← peekPlace).stop
  let g ← orFault .bracket (group? 0 tokens)
  pass g.length
  if g.closed then
    match tokens[g.length - 1]? with
    | some l => return ⟨opened, l.extent.start⟩
    | none => fault .bracket
  else return ⟨opened, max (← lastStop) opened⟩

/-- The number of string literals ahead. -/
def stringCount (tokens : List Lexeme) : Nat := (tokens.takeWhile (·.token.isString)).length

/-- The values of the literals, joined. -/
def joinLiterals? : List Lexeme → Option String
  | [] => some ""
  | l :: ls =>
    match l.token with
    | .string literal => do
      let value ← literalValue? literal
      let rest ← joinLiterals? ls
      return value ++ rest
    | _ => none

/-- Passes the next `n` tokens, which are string literals, and joins their values. -/
def passStrings (n : Nat) : Reading String := do
  let value ← orFault .literal (joinLiterals? ((← ahead).take n))
  pass n
  return value

section Nested

variable (inner : Reading Expression)

/-- One more element of a tuple: each follows a comma, and a last comma may stand alone
before the closing parenthesis. -/
def tupleRound (elements : List Expression) :
    Reading (Round (List Expression) (List Expression)) := do
  if ← accept .comma then
    if ← check .closeParen then return .stop elements
    return .again (elements ++ [← inner])
  else return .stop elements

/-- The elements of a tuple whose first one is read. -/
def tupleRest (first : Expression) : Reading (List Expression) :=
  repeatRounds (tupleRound inner) [first]

/-- What parentheses hold: nothing, one expression, or a tuple. -/
def parenthesized (start : Nat) : Reading Expression := do
  pass 1
  if ← accept .closeParen then
    return .tuple [] (← spanFrom start)
  let first ← inner
  if ← check .comma then
    let elements ← tupleRest inner first
    expect .closeParen
    return .tuple elements (← spanFrom start)
  else
    expect .closeParen
    return first

/-- One more element of a list, with the comma behind it. -/
def listRound (elements : List Expression) :
    Reading (Round (List Expression) (List Expression)) := do
  if ← check .closeBracket then return .stop elements
  let elements := elements ++ [← inner]
  if ← accept .comma then return .again elements
  return .stop elements

/-- The elements of a list, up to its closing bracket. -/
def listElements : Reading (List Expression) := repeatRounds (listRound inner) []

/-- A list display. -/
def bracketed (start : Nat) : Reading Expression := do
  pass 1
  let elements ← listElements inner
  expect .closeBracket
  return .list elements (← spanFrom start)

/-- A display in braces, kept as its source. -/
def braced (start : Nat) : Reading Expression := do
  let _ ← passGroup
  let stop ← lastStop
  let text ← sourceText start stop
  return .other (String.ofList text) (← makeSpan start stop)

/-- A primary expression. -/
def primary : Reading Expression := do
  let start ← peekStart
  match ← peek with
  | some (.identifier id) =>
    pass 1
    return .name id (← spanFrom start)
  | some (.string _) =>
    let value ← passStrings (stringCount (← ahead))
    return .string value (← spanFrom start)
  | some (.number value) =>
    pass 1
    return .number value (← spanFrom start)
  | some .openParen => parenthesized inner start
  | some .openBracket => bracketed inner start
  | some .openBrace => braced start
  | none => refuse (.incomplete start .expression)
  | some t =>
    if endsExpression t then refuseNext .expression
    else looseExpression start

/-- The stars before an argument, which are passed. -/
def argumentStars : Reading Unpacking := do
  match ← peek with
  | some (.operator "*") =>
    pass 1
    return .iterable
  | some (.operator "**") =>
    pass 1
    return .mapping
  | _ => return .none

/-- The keyword before the value of an argument without stars, passed with its
equals sign. -/
def argumentKeyword (unpacking : Unpacking) : Reading (Option String) := do
  match unpacking, ← peek, ← peekAt 1 with
  | .none, some (.identifier name), some .equals =>
    pass 2
    return some name
  | _, _, _ => return none

/-- One argument. -/
def argument : Reading (Argument Expression) := do
  let unpacking ← argumentStars
  let name ← argumentKeyword unpacking
  let value ← inner
  return ⟨name, value, unpacking⟩

/-- One more argument of a call, with the comma behind it. -/
def argumentRound (found : List (Argument Expression)) :
    Reading (Round (List (Argument Expression)) (List (Argument Expression))) := do
  if ← check .closeParen then return .stop found
  if ← atEnd then refuse (.incomplete (← peekStart) (.token .closeParen))
  else
    let found := found ++ [← argument inner]
    if ← accept .comma then return .again found
    return .stop found

/-- The arguments of a call whose opening parenthesis is passed. -/
def arguments : Reading (List (Argument Expression)) := do
  let found ← repeatRounds (argumentRound inner) []
  expect .closeParen
  return found

/-- One more member, call or subscript of an expression that starts at `start`. -/
def postfixRound (start : Nat) (e : Expression) : Reading (Round Expression Expression) := do
  match ← peek with
  | some .dot =>
    match ← peekAt 1 with
    | some (.identifier field) =>
      pass 2
      return .again (.member e field (← spanFrom start))
    | _ => return .stop e
  | some .openParen =>
    pass 1
    let found ← arguments inner
    return .again (.call e found (← spanFrom start))
  | some .openBracket =>
    let between ← passGroup
    let stop ← lastStop
    let slice ← sourceText between.start between.stop
    return .again (.subscript e (String.ofList (Text.trim slice)) (← makeSpan start stop))
  | _ => return .stop e

/-- A primary expression and its members, calls and subscripts. -/
def chain : Reading Expression := do
  let start ← peekStart
  let e ← primary inner
  repeatRounds (postfixRound inner start) e

/-- An expression whose nested expressions are read by `inner`. -/
def expressionOver : Reading Expression := do
  let start ← peekStart
  if ← check .lambdaKeyword then looseExpression start
  else
    let e ← chain inner
    if ← atExpressionEnd then return e
    else looseExpression start

end Nested

/-- An expression of at most `depth` levels of nesting. -/
def expressionWithin : (depth : Nat) → Reading Expression
  | 0 => fault .rounds
  | n + 1 => expressionOver (expressionWithin n)

/-- An expression.  Every level of nesting passes a token. -/
def expression : Reading Expression := fun o c => expressionWithin (c.rest.length + 1) o c

/-- One more expression of a list without brackets: each follows a comma, and a last
comma may stand alone. -/
def expressionRound (elements : List Expression) :
    Reading (Round (List Expression) (List Expression)) := do
  if ← accept .comma then
    if ← atExpressionEnd then return .stop elements
    return .again (elements ++ [← expression])
  else return .stop elements

/-- One expression, or several with commas between them: a tuple. -/
def expressionList : Reading Expression := do
  let start ← peekStart
  let first ← expression
  if ← check .comma then
    let elements ← repeatRounds expressionRound [first]
    return .tuple elements (← spanFrom start)
  else return first

end Outline
end Lineage
