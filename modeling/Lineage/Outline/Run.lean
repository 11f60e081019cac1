/-
# Runs of tokens

The stretches of tokens that the outline passes over without reading them: a
bracketed group, the rest of a statement, an indented block, and an expression of
no modelled shape.  Each function says how many tokens such a run takes.

A run that would close more than it opened has no length (`none`).
-/

import Lineage.Source.Token

namespace Lineage
namespace Outline

open Source

/-- A token that no expression goes on with at its own bracket depth. -/
def endsExpression : Token → Bool
  | .newline | .indent | .dedent | .comma | .closeParen | .closeBracket | .closeBrace | .equals
  | .colon | .semicolon | .arrow | .augmented _ => true
  | _ => false

/-- A bracketed group: its tokens, and whether its closing bracket is among them. -/
structure Group where
  length : Nat
  closed : Bool
deriving DecidableEq, Repr

/-- One more token in front. -/
def Group.grow (g : Group) : Group := ⟨g.length + 1, g.closed⟩

/-- The group at the start of the tokens when `depth` brackets are open before them.
A line end breaks it off. -/
def group? (depth : Nat) : List Lexeme → Option Group
  | [] => some ⟨0, false⟩
  | l :: ls =>
    if l.token.isOpener then (group? (depth + 1) ls).map .grow
    else if l.token.isCloser then
      match depth with
      | 0 => none
      | 1 => some ⟨1, true⟩
      | d + 2 => (group? (d + 1) ls).map .grow
    else if l.token.isLayout then some ⟨0, false⟩
    else (group? depth ls).map .grow

/-- The rest of a statement: its tokens, and whether its last one is a colon. -/
structure Statement where
  length : Nat
  endsInColon : Bool
deriving DecidableEq, Repr

/-- The rest of a statement, through the end of its line.  `colon` says whether the
token before was a colon. -/
def statement (colon : Bool) : List Lexeme → Statement
  | [] => ⟨0, colon⟩
  | l :: ls =>
    if l.token = .newline then ⟨1, colon⟩
    else if l.token.isShift then ⟨0, colon⟩
    else
      let rest := statement (l.token = .colon) ls
      ⟨rest.length + 1, rest.endsInColon⟩

/-- The length of an indented block, through the `dedent` that ends it, when
`level` levels of it are open. -/
def blockLength? (level : Nat) : List Lexeme → Option Nat
  | [] => some 0
  | l :: ls =>
    if l.token = .indent then (blockLength? (level + 1) ls).map (· + 1)
    else if l.token = .dedent then
      match level with
      | 0 => none
      | 1 => some 1
      | n + 2 => (blockLength? (n + 1) ls).map (· + 1)
    else (blockLength? level ls).map (· + 1)

/-- The length of an expression of no modelled shape, when `depth` brackets of it
are open.  In the header of a lambda, up to its colon, every token belongs to it. -/
def looseLength? (depth : Nat) (inLambda : Bool) : List Lexeme → Option Nat
  | [] => some 0
  | l :: ls =>
    if l.token.isLayout then some 0
    else
      match depth with
      | 0 =>
        if l.token = .lambdaKeyword then (looseLength? 0 true ls).map (· + 1)
        else if inLambda then (looseLength? 0 (l.token ≠ .colon) ls).map (· + 1)
        else if endsExpression l.token then some 0
        else if l.token.isOpener then (looseLength? 1 false ls).map (· + 1)
        else if l.token.isCloser then none
        else (looseLength? 0 false ls).map (· + 1)
      | d + 1 =>
        if l.token.isOpener then (looseLength? (d + 2) inLambda ls).map (· + 1)
        else if l.token.isCloser then (looseLength? d inLambda ls).map (· + 1)
        else (looseLength? (d + 1) inLambda ls).map (· + 1)

end Outline
end Lineage
