/-
# Reading definitions

Functions, classes and the module.  Statements outside the outline are passed
over, with the blocks they open, so that an ordinary module is accepted without
modelling all of it.  Inside a function only the bindings of its receiver are
kept, and its body is never refused.
-/

import Lineage.Outline.Binding

namespace Lineage
namespace Outline

open Source Reading

/-- A function starts at the next token. -/
def atFunction : Reading Bool := do
  match ← peek, ← peekAt 1 with
  | some .defKeyword, _ => return true
  | some .asyncKeyword, some .defKeyword => return true
  | _, _ => return false

/-- A statement that is nothing but string literals, joined. -/
def docstring : Reading (Option String) := do
  let n := stringCount (← ahead)
  let ends := match ← peekAt n with
    | none => true
    | some t => t == .newline || t == .dedent
  if n = 0 || !ends then return none
  let value ← passStrings n
  let _ ← accept .newline
  return some value

/-- One more decorator line. -/
def decoratorRound (found : List Decorator) :
    Reading (Round (List Decorator) (List Decorator)) := do
  if ← check .atSign then
    let start ← peekStart
    pass 1
    let e ← expression
    let stop ← lastStop
    expect .newline
    let d : Decorator := ⟨e, ← makeSpan start stop⟩
    return .again (found ++ [d])
  else return .stop found

/-- The decorator lines before a definition. -/
def decorators : Reading (List Decorator) := do
  let found ← repeatRounds decoratorRound []
  if ← check .classKeyword then return found
  if ← atFunction then return found
  refuseNext .definition

/-! ## Functions -/

/-- The parameters found so far, and whether a star has been passed. -/
structure ParameterState where
  starred : Bool
  found : List Parameter

/-- After a mark that stands for no parameter: the next one if a comma follows. -/
def parameterMark (s : ParameterState) : Reading (Round ParameterState (List Parameter)) := do
  if ← accept .comma then return .again s
  return .stop s.found

/-- A parameter from its name on. -/
def namedParameter (s : ParameterState) (kind : ParameterKind) :
    Reading (Round ParameterState (List Parameter)) := do
  let name ← expectIdentifier
  let typeHint ← ifNext .colon expression
  let default ← ifNext .equals expression
  let found := s.found ++ [⟨name, kind, typeHint, default⟩]
  if ← accept .comma then return .again ⟨s.starred, found⟩
  return .stop found

/-- One item of a parameter list. -/
def parameterRound (s : ParameterState) : Reading (Round ParameterState (List Parameter)) := do
  if ← check .closeParen then return .stop s.found
  match ← peek with
  | some (.operator "/") =>
    pass 1
    parameterMark s
  | some (.operator "*") =>
    pass 1
    match ← peek with
    | some (.identifier _) => namedParameter ⟨true, s.found⟩ .variadic
    | _ => parameterMark ⟨true, s.found⟩
  | some (.operator "**") =>
    pass 1
    namedParameter s .variadicKeyword
  | some (.identifier _) => namedParameter s (if s.starred then .keywordOnly else .positional)
  | _ => refuseNext .parameter

/-- A parameter list whose opening parenthesis is passed. -/
def parameters : Reading (List Parameter) := do
  let found ← repeatRounds parameterRound ⟨false, []⟩
  expect .closeParen
  return found

/-- The open blocks of a function body, and what has been found in it. -/
structure BodyState where
  level : Nat
  found : List Binding

/-- One step through an indented function body: a layout token, a nested definition, or
a line. -/
def bodyRound (receiver : Option String) (s : BodyState) :
    Reading (Round BodyState (List Binding)) := do
  match ← peek with
  | none => return .stop s.found
  | some .indent =>
    pass 1
    return .again ⟨s.level + 1, s.found⟩
  | some .dedent =>
    pass 1
    match s.level with
    | 0 => fault .block
    | 1 => return .stop s.found
    | n + 2 => return .again ⟨n + 1, s.found⟩
  | some t =>
    if t == .defKeyword || t == .classKeyword || t == .atSign || (← atFunction) then
      passStatement
      return .again s
    else
      let more ← lineBindings receiver
      return .again ⟨s.level, s.found ++ more⟩

/-- The receiver bindings of an indented function body, through the `dedent` that
ends it.  Nested blocks are read; nested definitions are passed over. -/
def bodyBindings (receiver : Option String) : Reading (List Binding) :=
  repeatRounds (bodyRound receiver) ⟨1, []⟩

/-- The documentation and the receiver bindings of a function whose header is
passed. -/
def functionBody (receiver : Option String) : Reading (Option String × List Binding) := do
  if ← accept .newline then
    expect .indent
    let doc ← docstring
    return (doc, ← bodyBindings receiver)
  else
    let doc ← docstring
    if ← afterNewline then return (doc, [])
    return (doc, ← lineBindings receiver)

/-- A function, its decorators passed. -/
def functionDefinition (decorators : List Decorator) : Reading FunctionOutline := do
  let start ← peekStart
  let isAsync ← accept .asyncKeyword
  expect .defKeyword
  let name ← expectIdentifier
  expect .openParen
  let parameters ← parameters
  let returns ← ifNext .arrow expression
  expect .colon
  let (doc, receiverBindings) ← functionBody (receiverName? parameters)
  let span ← spanFrom start
  return ⟨name, parameters, decorators, returns, doc, isAsync, receiverBindings, span⟩

/-! ## Classes -/

/-- The arguments of a class header, parted into bases and keywords.  A starred
argument is a base known at run time only, and kept as text. -/
def headerParts : List (Argument Expression) → List Expression × List (Argument Expression)
  | [] => ([], [])
  | a :: rest =>
    let (bases, keywords) := headerParts rest
    match a.unpacking, a.name with
    | .none, none => (a.value :: bases, keywords)
    | .iterable, _ => (.other ("*" ++ a.value.text) a.value.span :: bases, keywords)
    | _, _ => (bases, a :: keywords)

/-- What has been found in a class body. -/
structure ClassBody where
  methods : List FunctionOutline
  bindings : List Binding
  classes : List ClassOutline

section Nested

variable (inner : List Decorator → Reading ClassOutline)

/-- A definition in a class body, its decorators passed. -/
def memberDefinition (found : ClassBody) (decorators : List Decorator) : Reading ClassBody := do
  if ← check .classKeyword then
    return { found with classes := found.classes ++ [← inner decorators] }
  else
    return { found with methods := found.methods ++ [← functionDefinition decorators] }

/-- One statement of a class body. -/
def classStatement (found : ClassBody) : Reading ClassBody := do
  match ← peek with
  | some .newline =>
    pass 1
    return found
  | some .indent => refuse (.unexpectedIndent (← peekPlace))
  | some .atSign => memberDefinition inner found (← decorators)
  | some .classKeyword => memberDefinition inner found []
  | _ =>
    if ← atFunction then memberDefinition inner found []
    else if startsBinding ((← ahead).map (·.token)) then
      return { found with bindings := found.bindings ++ (← classBinding) }
    else
      passStatement
      return found

/-- One more statement of an indented class body, or the `dedent` that ends it. -/
def indentedRound (found : ClassBody) : Reading (Round ClassBody ClassBody) := do
  if ← atEnd then return .stop found
  if ← accept .dedent then return .stop found
  return .again (← classStatement inner found)

/-- The statements of an indented class body, through the `dedent` that ends it. -/
def indentedBody (found : ClassBody) : Reading ClassBody :=
  repeatRounds (indentedRound inner) found

/-- One more statement of a class body on the line of its header. -/
def inlineRound (found : ClassBody) : Reading (Round ClassBody ClassBody) := do
  if ← afterNewline then return .stop found
  if ← check .dedent then return .stop found
  if ← atEnd then return .stop found
  return .again (← classStatement inner found)

/-- The statements of a class body on the line of its header. -/
def inlineBody (found : ClassBody) : Reading ClassBody := repeatRounds (inlineRound inner) found

/-- The documentation and the body of a class whose header is passed. -/
def classBody : Reading (Option String × ClassBody) := do
  if ← accept .newline then
    expect .indent
    let doc ← docstring
    return (doc, ← indentedBody inner ⟨[], [], []⟩)
  else
    let doc ← docstring
    return (doc, ← inlineBody inner ⟨[], [], []⟩)

/-- The arguments of a class header, if it has parentheses. -/
def classArguments : Reading (List (Argument Expression)) :=
  return (← ifNext .openParen (arguments expression)).getD []

/-- A class, its decorators passed. -/
def classOver (decorators : List Decorator) : Reading ClassOutline := do
  let start ← peekStart
  expect .classKeyword
  let name ← expectIdentifier
  let header ← classArguments
  expect .colon
  let (doc, body) ← classBody inner
  let span ← spanFrom start
  let (bases, keywords) := headerParts header
  return ⟨name, bases, keywords, decorators, doc, body.methods, body.bindings, body.classes, span⟩

end Nested

/-- A class with at most `depth` levels of classes, its decorators passed. -/
def classWithin : (depth : Nat) → List Decorator → Reading ClassOutline
  | 0, _ => fault .rounds
  | n + 1, decorators => classOver (classWithin n) decorators

/-- A class, its decorators passed.  Every level of classes passes a token. -/
def classDefinition (decorators : List Decorator) : Reading ClassOutline := fun o c =>
  classWithin (c.rest.length + 1) decorators o c

/-! ## Modules -/

/-- The definitions found at the top level. -/
structure TopLevel where
  classes : List ClassOutline
  functions : List FunctionOutline

/-- A definition at the top level, its decorators passed. -/
def topDefinition (found : TopLevel) (decorators : List Decorator) : Reading TopLevel := do
  if ← check .classKeyword then
    return { found with classes := found.classes ++ [← classDefinition decorators] }
  else
    return { found with functions := found.functions ++ [← functionDefinition decorators] }

/-- One statement at the top level. -/
def topStatement (found : TopLevel) : Reading TopLevel := do
  match ← peek with
  | some .newline | some .dedent =>
    pass 1
    return found
  | some .indent => refuse (.unexpectedIndent (← peekPlace))
  | some .atSign => topDefinition found (← decorators)
  | some .classKeyword => topDefinition found []
  | _ =>
    if ← atFunction then topDefinition found []
    else
      passStatement
      return found

/-- One more statement at the top level. -/
def topRound (found : TopLevel) : Reading (Round TopLevel TopLevel) := do
  if ← atEnd then return .stop found
  return .again (← topStatement found)

/-- A whole module. -/
def moduleOutline : Reading ModuleOutline := do
  let span ← makeSpan 0 (← sourceSize)
  let doc ← docstring
  let found ← repeatRounds topRound ⟨[], []⟩
  return ⟨doc, found.classes, found.functions, span⟩

/-- How the parse of a source ends. -/
inductive Parse where
  | outline (module : ModuleOutline)
  | refused (error : ParseError)
  | defect (what : Defect)

/-- The outline of the module at `path` with that source. -/
def parse (source path : String) : Parse :=
  let text := source.toList
  match tokenizeChars text with
  | .error e => .refused e
  | .ok tokens =>
    match moduleOutline ⟨text, moduleId path⟩ (.first tokens) with
    | .done m _ => .outline m
    | .refused e _ => .refused e
    | .defect d => .defect d

/-- The path of a source that has none. -/
def anonymousPath : String := "<anonymous>"

end Outline
end Lineage
