/-
# The outline as JSON

Every structure is written as an object with one field a member, an absent value
as `null`, and an expression as an object whose field `type` names its form.  For
each `toJson` that an index can hold there is an `ofJson?` that reads it back.
-/

import Lineage.Outline.Syntax
import Lineage.Json.Value

namespace Lineage
namespace Outline

open Json (ofOption ofList ofText?)

/-! ## Spans and tags -/

namespace Span

/-- A span as an object. -/
def toJson (s : Span) : Json :=
  .object [("start", .natural s.start), ("end", .natural s.stop), ("id", .text s.id)]

/-- Reads a span. -/
def ofJson? (j : Json) : Option Span := do
  let start ← j.required? "start" Json.asNatural?
  let stop ← j.required? "end" Json.asNatural?
  let id ← j.required? "id" Json.asText?
  return ⟨start, stop, id⟩

/-- A span is read back from what is written for it. -/
@[simp] theorem ofJson?_toJson (s : Span) : ofJson? s.toJson = some s := rfl

end Span

namespace Unpacking

/-- The name of a way of unpacking. -/
def tag : Unpacking → String
  | .none => "None"
  | .iterable => "Iterable"
  | .mapping => "Mapping"

/-- The way of unpacking of that name. -/
def ofTag? (s : String) : Option Unpacking :=
  if s = "None" then some .none
  else if s = "Iterable" then some .iterable
  else if s = "Mapping" then some .mapping
  else Option.none

/-- The unpacking of an argument is read back from its tag. -/
@[simp] theorem ofTag?_tag (u : Unpacking) : ofTag? u.tag = some u := by cases u <;> rfl

end Unpacking

namespace ParameterKind

/-- The name of a kind of parameter. -/
def tag : ParameterKind → String
  | .positional => "Positional"
  | .variadic => "VarPositional"
  | .keywordOnly => "KeywordOnly"
  | .variadicKeyword => "VarKeyword"

/-- The kind of parameter of that name. -/
def ofTag? (s : String) : Option ParameterKind :=
  if s = "Positional" then some .positional
  else if s = "VarPositional" then some .variadic
  else if s = "KeywordOnly" then some .keywordOnly
  else if s = "VarKeyword" then some .variadicKeyword
  else none

/-- The kind of a parameter is read back from its tag. -/
@[simp] theorem ofTag?_tag (k : ParameterKind) : ofTag? k.tag = some k := by cases k <;> rfl

end ParameterKind

/-! ## Expressions -/

namespace Expression

/-- An object with its form in front. -/
def tagged (form : String) (fields : List (String × Json)) : Json :=
  .object (("type", .text form) :: fields)

mutual

/-- An expression as an object. -/
def toJson : Expression → Json
  | .name id span => tagged "Name" [("id", .text id), ("span", span.toJson)]
  | .member value field span =>
    tagged "Attribute" [("value", value.toJson), ("attr", .text field), ("span", span.toJson)]
  | .call function arguments span =>
    tagged "Call" [("func", function.toJson), ("arguments", .list (argumentsToJson arguments)),
      ("span", span.toJson)]
  | .subscript value slice span =>
    tagged "Subscript" [("value", value.toJson), ("slice", .text slice), ("span", span.toJson)]
  | .string value span => tagged "Str" [("value", .text value), ("span", span.toJson)]
  | .number value span => tagged "Number" [("value", .text value), ("span", span.toJson)]
  | .tuple elements span =>
    tagged "Tuple" [("elements", .list (listToJson elements)), ("span", span.toJson)]
  | .list elements span =>
    tagged "List" [("elements", .list (listToJson elements)), ("span", span.toJson)]
  | .other text span => tagged "Other" [("text", .text text), ("span", span.toJson)]

/-- Expressions as objects. -/
def listToJson : List Expression → List Json
  | [] => []
  | e :: es => e.toJson :: listToJson es

/-- Arguments as objects. -/
def argumentsToJson : List (Argument Expression) → List Json
  | [] => []
  | ⟨keyword, value, unpacking⟩ :: rest =>
    .object [("name", ofText? keyword), ("value", value.toJson), ("unpack", .text unpacking.tag)]
      :: argumentsToJson rest

end

/-- Reads an argument whose value is read by `read`; the stars may be absent. -/
def argumentOfJson? (read : Json → Option Expression) (j : Json) :
    Option (Argument Expression) := do
  let name ← j.optional? "name" Json.asText?
  let value ← j.required? "value" read
  let unpacking ← match j.field? "unpack" with
    | none => some .none
    | some v => v.asText?.bind Unpacking.ofTag?
  return ⟨name, value, unpacking⟩

/-- Reads an expression of at most `depth` levels of nesting. -/
def ofJsonWithin? : (depth : Nat) → Json → Option Expression
  | 0, _ => none
  | n + 1, j => do
    let form ← j.required? "type" Json.asText?
    let span ← j.required? "span" Span.ofJson?
    match form with
    | "Name" => return .name (← j.required? "id" Json.asText?) span
    | "Attribute" =>
      return .member (← j.required? "value" (ofJsonWithin? n)) (← j.required? "attr" Json.asText?)
        span
    | "Call" =>
      return .call (← j.required? "func" (ofJsonWithin? n))
        (← j.required? "arguments" (Json.asListOf? (argumentOfJson? (ofJsonWithin? n)))) span
    | "Subscript" =>
      return .subscript (← j.required? "value" (ofJsonWithin? n))
        (← j.required? "slice" Json.asText?) span
    | "Str" => return .string (← j.required? "value" Json.asText?) span
    | "Number" => return .number (← j.required? "value" Json.asText?) span
    | "Tuple" =>
      return .tuple (← j.required? "elements" (Json.asListOf? (ofJsonWithin? n))) span
    | "List" =>
      return .list (← j.required? "elements" (Json.asListOf? (ofJsonWithin? n))) span
    | "Other" => return .other (← j.required? "text" Json.asText?) span
    | _ => none

/-- Reads an expression. -/
def ofJson? (j : Json) : Option Expression := ofJsonWithin? (j.depth + 1) j

end Expression

/-! ## Parts of definitions -/

/-- An argument as an object. -/
def Argument.toJson (a : Argument Expression) : Json :=
  .object [("name", ofText? a.name), ("value", a.value.toJson),
    ("unpack", .text a.unpacking.tag)]

namespace Parameter

/-- A parameter as an object. -/
def toJson (p : Parameter) : Json :=
  .object [("name", .text p.name), ("kind", .text p.kind.tag),
    ("annotation", ofOption Expression.toJson p.typeHint),
    ("default", ofOption Expression.toJson p.default)]

/-- Reads a parameter. -/
def ofJson? (j : Json) : Option Parameter := do
  let name ← j.required? "name" Json.asText?
  let kind ← j.required? "kind" fun v => v.asText?.bind ParameterKind.ofTag?
  let typeHint ← j.optional? "annotation" Expression.ofJson?
  let default ← j.optional? "default" Expression.ofJson?
  return ⟨name, kind, typeHint, default⟩

end Parameter

namespace Decorator

/-- A decorator as an object. -/
def toJson (d : Decorator) : Json :=
  .object [("expression", d.expression.toJson), ("span", d.span.toJson)]

/-- Reads a decorator. -/
def ofJson? (j : Json) : Option Decorator := do
  let expression ← j.required? "expression" Expression.ofJson?
  let span ← j.required? "span" Span.ofJson?
  return ⟨expression, span⟩

end Decorator

/-! ## Definitions -/

/-- A binding as an object. -/
def Binding.toJson (b : Binding) : Json :=
  .object [("target", .text b.target), ("value", ofOption Expression.toJson b.value),
    ("annotation", ofOption Expression.toJson b.typeHint), ("span", b.span.toJson)]

/-- A function as an object. -/
def FunctionOutline.toJson (f : FunctionOutline) : Json :=
  .object [("name", .text f.name), ("parameters", ofList Parameter.toJson f.parameters),
    ("decorators", ofList Decorator.toJson f.decorators),
    ("returns", ofOption Expression.toJson f.returns), ("docstring", ofText? f.doc),
    ("is_async", .bool f.isAsync),
    ("receiver_assignments", ofList Binding.toJson f.receiverBindings), ("span", f.span.toJson)]

mutual

/-- A class as an object. -/
def ClassOutline.toJson : ClassOutline → Json
  | ⟨name, bases, keywords, decorators, doc, methods, bindings, classes, span⟩ =>
    .object [("name", .text name), ("bases", ofList Expression.toJson bases),
      ("keywords", ofList Argument.toJson keywords),
      ("decorators", ofList Decorator.toJson decorators), ("docstring", ofText? doc),
      ("methods", ofList FunctionOutline.toJson methods),
      ("attributes", ofList Binding.toJson bindings),
      ("classes", .list (ClassOutline.listToJson classes)), ("span", span.toJson)]

/-- Classes as objects. -/
def ClassOutline.listToJson : List ClassOutline → List Json
  | [] => []
  | c :: cs => c.toJson :: ClassOutline.listToJson cs

end

/-- A module as an object. -/
def ModuleOutline.toJson (m : ModuleOutline) : Json :=
  .object [("docstring", ofText? m.doc), ("classes", .list (ClassOutline.listToJson m.classes)),
    ("functions", ofList FunctionOutline.toJson m.functions), ("span", m.span.toJson)]

end Outline
end Lineage
