/-
# Reading bindings

Names bound in a class body, and attributes that a method binds on its receiver.
A chain `a = b = value` binds each target, and a list of targets takes the
elements of a display of the same length.
-/

import Lineage.Outline.Term
import Lineage.Source.Layout

namespace Lineage
namespace Outline

open Source Reading

/-- Passes an indented block. -/
def passBlock : Reading Unit := do
  pass (← orFault .block (blockLength? 0 (← ahead)))

/-- Passes the rest of a statement, with the block that it opens. -/
def passStatement : Reading Unit := do
  let s := statement false (← ahead)
  pass s.length
  if s.endsInColon then
    if ← check .indent then passBlock

/-- Passes the end of a simple statement and what is not modelled before it. -/
def finishStatement : Reading Unit := do
  if ← accept .semicolon then
    let _ ← accept .newline
  else passStatement

/-- The value of each of `count` targets: an element of a display of that length;
the value itself if there is one target; otherwise unknown. -/
def targetValues (count : Nat) (value : Option Expression) : List (Option Expression) :=
  let whole := if count = 1 then [value] else List.replicate count none
  if count ≤ 1 then whole
  else
    match value.bind (·.elements?) with
    | some elements => if elements.length = count then elements.map some else whole
    | none => whole

/-- There is a value for every target. -/
@[simp] theorem length_targetValues (count : Nat) (value : Option Expression) :
    (targetValues count value).length = count := by
  have hwhole : (if count = 1 then [value] else List.replicate count none).length = count := by
    split <;> simp_all
  unfold targetValues
  simp only
  split
  · exact hwhole
  · split
    · split
      · simp_all
      · exact hwhole
    · exact hwhole

/-- Binds each target to its value. -/
def bindEach (typeHint : Option Expression) (start stop : Nat) :
    List String → List (Option Expression) → Reading (List Binding)
  | [], _ => return []
  | _ :: _, [] => fault .element
  | target :: targets, value :: values => do
    let b : Binding := ⟨target, value, typeHint, ← makeSpan start stop⟩
    return b :: (← bindEach typeHint start stop targets values)

/-- Binds each group of targets to the value. -/
def bindGroups (value typeHint : Option Expression) (start stop : Nat) :
    List (List String) → Reading (List Binding)
  | [] => return []
  | targets :: groups => do
    let bound ← bindEach typeHint start stop targets (targetValues targets.length value)
    return bound ++ (← bindGroups value typeHint start stop groups)

/-- The value after an equals sign, if there is one. -/
def optionalValue : Reading (Option Expression) := ifNext .equals expressionList

/-- One more value of a chain of equals signs: `targets` says what the one before
binds. -/
def chainRound (targets : Expression → List (List String))
    (found : List (List String) × Expression) :
    Reading (Round (List (List String) × Expression) (List (List String) × Expression)) := do
  if ← accept .equals then
    let next ← expressionList
    return .again (found.1 ++ targets found.2, next)
  else return .stop found

/-- The values of a chain of equals signs, of which all but the last one are targets. -/
def chainedValue (targets : Expression → List (List String)) (groups : List (List String)) :
    Reading (List (List String) × Expression) := do
  let value ← expressionList
  repeatRounds (chainRound targets) (groups, value)

/-! ## Class bodies -/

/-- Reserved words that are read as identifiers. -/
def reservedWords : List String := [
  "False", "None", "True", "and", "as", "assert", "await", "break", "continue", "del", "elif",
  "else", "except", "finally", "for", "from", "global", "if", "import", "in", "is", "nonlocal",
  "not", "or", "raise", "return", "try", "while", "with", "yield"]

/-- Identifiers with commas between them and an equals sign after them. -/
def listsTargets : List Token → Bool
  | .identifier _ :: .comma :: rest => listsTargets rest
  | .identifier _ :: .equals :: _ => true
  | .equals :: _ => true
  | _ => false

/-- The tokens start a binding: a name before an equals sign or a colon, or a list
of names before an equals sign. -/
def startsBinding : List Token → Bool
  | .identifier name :: rest =>
    !reservedWords.contains name &&
      match rest with
      | .equals :: _ => true
      | .colon :: _ => true
      | .comma :: rest => listsTargets rest
      | _ => false
  | _ => false

/-- What an expression on the left of an equals sign binds in a class body. -/
def classTargets : Expression → List (List String)
  | .name id _ => [[id]]
  | .tuple elements _ => [elements.filterMap (·.dottedName?)]
  | _ => []

/-- One more name before an equals sign, with the comma behind it. -/
def targetRound (names : List String) : Reading (Round (List String) (List String)) := do
  let names := names ++ [← expectIdentifier]
  if ← accept .comma then
    if ← check .equals then return .stop names
    return .again names
  else return .stop names

/-- A list of names before an equals sign. -/
def targetNames : Reading (List String) := repeatRounds targetRound []

/-- A binding with a type hint. -/
def hintedBinding (start : Nat) : Reading (List Binding) := do
  let target ← expectIdentifier
  expect .colon
  let typeHint ← expression
  let value ← optionalValue
  bindGroups value (some typeHint) start (← lastStop) [[target]]

/-- A binding without a type hint. -/
def plainBinding (start : Nat) : Reading (List Binding) := do
  let targets ← targetNames
  expect .equals
  let (groups, value) ← chainedValue classTargets [targets]
  bindGroups (some value) none start (← lastStop) groups

/-- A statement of a class body that binds names. -/
def classBinding : Reading (List Binding) := do
  let start ← peekStart
  let bound ← if (← peekAt 1) == some .colon then hintedBinding start else plainBinding start
  finishStatement
  return bound

/-! ## Receivers -/

/-- One more attribute of the receiver, with the comma behind it. -/
def receiverRound (receiver : String) (targets : List String) :
    Reading (Round (List String) (Option (List String))) := do
  match ← peek, ← peekAt 1, ← peekAt 2 with
  | some (.identifier name), some .dot, some (.identifier field) =>
    if name == receiver then
      pass 3
      let targets := targets ++ [field]
      if ← accept .comma then return .again targets
      return .stop (some targets)
    else return .stop none
  | _, _, _ => return .stop none

/-- Attributes of the receiver with commas between them; `none` for anything else. -/
def receiverTargets (receiver : String) : Reading (Option (List String)) :=
  repeatRounds (receiverRound receiver) []

/-- What an expression on the left of an equals sign binds on the receiver. -/
def receiverFields (receiver : String) : Expression → List (List String)
  | .member value field _ => if value.isName receiver then [[field]] else []
  | _ => []

/-- What a statement binds whose targets, which are attributes of the receiver, are
passed. -/
def receiverValues (receiver : String) (start : Nat) (targets : List String) :
    Reading (Option (List Binding)) := do
  if targets.length = 1 ∧ (← check .colon) then
    pass 1
    let typeHint ← expression
    let value ← optionalValue
    return some (← bindGroups value (some typeHint) start (← lastStop) [targets])
  else if ← accept .equals then
    let (groups, value) ← chainedValue (receiverFields receiver) [targets]
    return some (← bindGroups (some value) none start (← lastStop) groups)
  else return none

/-- A statement that binds attributes of the receiver; `none` for anything else. -/
def receiverBinding (receiver : String) : Reading (Option (List Binding)) := do
  let start ← peekStart
  match ← receiverTargets receiver with
  | none => return none
  | some targets => receiverValues receiver start targets

/-- Where a line of a function body is being read. -/
structure LineState where
  depth : Nat
  atStatement : Bool
  found : List Binding

/-- A token of a line that is not part of a receiver binding. -/
def LineState.pass (s : LineState) (t : Token) : LineState :=
  let depth := Layout.depthAfter s.depth t
  ⟨depth, depth == 0 && (t == .colon || t == .semicolon || t == .comma), s.found⟩

/-- The receiver binding at the next token, where a statement may begin.  A value that
cannot be read loses its binding and nothing else. -/
def lineBinding (receiver : Option String) (s : LineState) : Reading (Option (List Binding)) :=
  match receiver with
  | some r => if s.depth == 0 && s.atStatement then tentative (receiverBinding r) else pure none
  | none => pure none

/-- One step through a logical line: a receiver binding, or one token. -/
def lineRound (receiver : Option String) (s : LineState) :
    Reading (Round LineState (List Binding)) := do
  match ← peek with
  | none => return .stop s.found
  | some t =>
    if t == .newline then
      Reading.pass 1
      return .stop s.found
    if t.isShift then return .stop s.found
    match ← lineBinding receiver s with
    | some found => return .again ⟨s.depth, false, s.found ++ found⟩
    | none =>
      Reading.pass 1
      return .again (s.pass t)

/-- The receiver bindings of one logical line. -/
def lineBindings (receiver : Option String) : Reading (List Binding) :=
  repeatRounds (lineRound receiver) ⟨0, true, []⟩

end Outline
end Lineage
