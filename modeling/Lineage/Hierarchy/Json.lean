/-
# The index as JSON

A snapshot of an index: its declarations in order and its maps as objects.  For
each `toJson` there is an `ofJson?` that reads it back.
-/

import Lineage.Hierarchy.Index
import Lineage.Outline.Json

namespace Lineage
namespace Hierarchy

open Outline
open Json (ofOption ofList ofText? ofTexts)

/-! ## Parts -/

namespace ClassId

/-- An id as a number. -/
def toJson (id : ClassId) : Json := .natural id.val

/-- Reads an id. -/
def ofJson? (j : Json) : Option ClassId := j.asNatural?.map ClassId.mk

/-- A class id is read back from what is written for it. -/
@[simp] theorem ofJson?_toJson (id : ClassId) : ofJson? id.toJson = some id := rfl

end ClassId

namespace MethodKind

/-- The name of a kind of method. -/
def tag : MethodKind → String
  | .onInstance => "Instance"
  | .static => "Static"
  | .onClass => "Class"

/-- The kind of method of that name. -/
def ofTag? (s : String) : Option MethodKind :=
  if s = "Instance" then some .onInstance
  else if s = "Static" then some .static
  else if s = "Class" then some .onClass
  else none

/-- The kind of a method is read back from its tag. -/
@[simp] theorem ofTag?_tag (k : MethodKind) : ofTag? k.tag = some k := by cases k <;> rfl

end MethodKind

namespace Method

/-- A method as an object. -/
def toJson (m : Method) : Json :=
  .object [("name", .text m.name), ("kind", .text m.kind.tag),
    ("parameters", ofList Parameter.toJson m.parameters),
    ("decorators", ofList Decorator.toJson m.decorators),
    ("returns", ofOption Expression.toJson m.returns), ("docstring", ofText? m.doc),
    ("is_async", .bool m.isAsync), ("span", m.span.toJson)]

/-- Reads a method. -/
def ofJson? (j : Json) : Option Method := do
  let name ← j.required? "name" Json.asText?
  let kind ← j.required? "kind" fun v => v.asText?.bind MethodKind.ofTag?
  let parameters ← j.required? "parameters" (Json.asListOf? Parameter.ofJson?)
  let decorators ← j.required? "decorators" (Json.asListOf? Decorator.ofJson?)
  let returns ← j.optional? "returns" Expression.ofJson?
  let doc ← j.optional? "docstring" Json.asText?
  let isAsync ← j.required? "is_async" Json.asBool?
  let span ← j.required? "span" Span.ofJson?
  return ⟨name, kind, parameters, decorators, returns, doc, isAsync, span⟩

end Method

/-- An attribute as an object. -/
def attributeToJson (b : Binding) : Json :=
  .object [("name", .text b.target), ("value", ofOption Expression.toJson b.value),
    ("annotation", ofOption Expression.toJson b.typeHint), ("span", b.span.toJson)]

/-- Reads an attribute. -/
def attributeOfJson? (j : Json) : Option Binding := do
  let target ← j.required? "name" Json.asText?
  let value ← j.optional? "value" Expression.ofJson?
  let typeHint ← j.optional? "annotation" Expression.ofJson?
  let span ← j.required? "span" Span.ofJson?
  return ⟨target, value, typeHint, span⟩

namespace Accessor

/-- An accessor as an object. -/
def toJson : Accessor → Json
  | .method n => .object [("type", .text "Method"), ("value", .natural n)]
  | .expression e => .object [("type", .text "Expression"), ("value", e.toJson)]

/-- Reads an accessor. -/
def ofJson? (j : Json) : Option Accessor := do
  match ← j.required? "type" Json.asText? with
  | "Method" => return .method (← j.required? "value" Json.asNatural?)
  | "Expression" => return .expression (← j.required? "value" Expression.ofJson?)
  | _ => none

end Accessor

namespace Property

/-- A property as an object. -/
def toJson (p : Property) : Json :=
  .object [("name", .text p.name), ("getter", ofOption Accessor.toJson p.getter),
    ("setter", ofOption Accessor.toJson p.setter),
    ("deleter", ofOption Accessor.toJson p.deleter), ("doc", ofText? p.doc)]

/-- Reads a property. -/
def ofJson? (j : Json) : Option Property := do
  let name ← j.required? "name" Json.asText?
  let getter ← j.optional? "getter" Accessor.ofJson?
  let setter ← j.optional? "setter" Accessor.ofJson?
  let deleter ← j.optional? "deleter" Accessor.ofJson?
  let doc ← j.optional? "doc" Json.asText?
  return ⟨name, getter, setter, deleter, doc⟩

end Property

namespace NestedClass

/-- A nested class as an object. -/
def toJson (n : NestedClass) : Json := .object [("name", .text n.name), ("id", n.id.toJson)]

/-- Reads a nested class. -/
def ofJson? (j : Json) : Option NestedClass := do
  let name ← j.required? "name" Json.asText?
  let id ← j.required? "id" ClassId.ofJson?
  return ⟨name, id⟩

end NestedClass

/-! ## Declarations -/

namespace ClassDecl

/-- A declaration as an object. -/
def toJson (d : ClassDecl) : Json :=
  .object [("id", d.id.toJson), ("name", .text d.name),
    ("qualified_name", .text d.qualifiedName), ("module", .text d.module),
    ("super_class_expressions", ofList Expression.toJson d.bases),
    ("metaclass", ofOption Expression.toJson d.metaclass),
    ("decorators", ofList Decorator.toJson d.decorators), ("docstring", ofText? d.doc),
    ("methods", ofList Method.toJson d.methods),
    ("class_attributes", ofList attributeToJson d.classAttributes),
    ("instance_attributes", ofList attributeToJson d.instanceAttributes),
    ("nested_classes", ofList NestedClass.toJson d.nested),
    ("containing_class", ofOption ClassId.toJson d.container),
    ("slots", ofOption ofTexts d.slots), ("properties", ofList Property.toJson d.properties),
    ("span", d.span.toJson)]

/-- Reads a declaration. -/
def ofJson? (j : Json) : Option ClassDecl := do
  let id ← j.required? "id" ClassId.ofJson?
  let name ← j.required? "name" Json.asText?
  let qualifiedName ← j.required? "qualified_name" Json.asText?
  let module ← j.required? "module" Json.asText?
  let bases ← j.required? "super_class_expressions" (Json.asListOf? Expression.ofJson?)
  let metaclass ← j.optional? "metaclass" Expression.ofJson?
  let decorators ← j.required? "decorators" (Json.asListOf? Decorator.ofJson?)
  let doc ← j.optional? "docstring" Json.asText?
  let methods ← j.required? "methods" (Json.asListOf? Method.ofJson?)
  let classAttributes ← j.required? "class_attributes" (Json.asListOf? attributeOfJson?)
  let instanceAttributes ← j.required? "instance_attributes" (Json.asListOf? attributeOfJson?)
  let nested ← j.required? "nested_classes" (Json.asListOf? NestedClass.ofJson?)
  let container ← j.optional? "containing_class" ClassId.ofJson?
  let slots ← j.optional? "slots" (Json.asListOf? Json.asText?)
  let properties ← j.required? "properties" (Json.asListOf? Property.ofJson?)
  let span ← j.required? "span" Span.ofJson?
  return ⟨id, name, qualifiedName, module, bases, metaclass, decorators, doc, methods,
    classAttributes, instanceAttributes, nested, container, slots, properties, span⟩

end ClassDecl

/-! ## Indices -/

/-- Reads an object as a map. -/
def mapOfJson? {α : Type} (read : Json → Option α) : Json → Option (List (String × α))
  | .object fields => fields.mapM fun f => (read f.2).map fun a => (f.1, a)
  | _ => none

namespace ClassIndex

/-- An index as an object. -/
def toJson (index : ClassIndex) : Json :=
  .object [("classes", ofList ClassDecl.toJson index.classes),
    ("by_qualified_name", .object (index.byQualifiedName.map fun e => (e.1, e.2.toJson))),
    ("by_name", .object (index.byName.map fun e => (e.1, ofList ClassId.toJson e.2))),
    ("modules", ofTexts index.modules)]

/-- Reads an index. -/
def ofJson? (j : Json) : Option ClassIndex := do
  let classes ← j.required? "classes" (Json.asListOf? ClassDecl.ofJson?)
  let byQualifiedName ← j.required? "by_qualified_name" (mapOfJson? ClassId.ofJson?)
  let byName ← j.required? "by_name" (mapOfJson? (Json.asListOf? ClassId.ofJson?))
  let modules ← j.required? "modules" (Json.asListOf? Json.asText?)
  return ⟨classes, byQualifiedName, byName, modules⟩

end ClassIndex
end Hierarchy
end Lineage
