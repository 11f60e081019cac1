/-
# Class declarations

What an index keeps of a class: its place, its header, and its members, with the
facts that follow from them: instance attributes, slots, metaclass, and the kind
of each method.
-/

import Lineage.Outline.Expression

namespace Lineage
namespace Hierarchy

open Outline

/-- A class of an index, by its position. -/
structure ClassId where
  val : Nat
deriving DecidableEq, Repr, Inhabited

/-- What a method is called on. -/
inductive MethodKind where
  | onInstance
  | static
  | onClass
deriving DecidableEq, Repr, Inhabited

/-- A method of a class. -/
structure Method where
  name : String
  kind : MethodKind
  parameters : List Parameter
  decorators : List Decorator
  returns : Option Expression
  doc : Option String
  isAsync : Bool
  span : Span
deriving Repr, Inhabited

/-- One role of a property. -/
inductive Accessor where
  /-- A method of the class, by its position. -/
  | method (index : Nat)
  /-- Any other callable. -/
  | expression (value : Expression)
deriving Repr, Inhabited

/-- The roles that an accessor can have. -/
inductive Role where
  | getter
  | setter
  | deleter
deriving DecidableEq, Repr

/-- A property of a class. -/
structure Property where
  name : String
  getter : Option Accessor
  setter : Option Accessor
  deleter : Option Accessor
  doc : Option String
deriving Repr, Inhabited

/-- A class in the body of another. -/
structure NestedClass where
  name : String
  id : ClassId
deriving DecidableEq, Repr, Inhabited

/-- A class as it is declared. -/
structure ClassDecl where
  id : ClassId
  name : String
  /-- The module, the classes around it and its name, with dots between them. -/
  qualifiedName : String
  module : String
  bases : List Expression
  metaclass : Option Expression
  decorators : List Decorator
  doc : Option String
  methods : List Method
  classAttributes : List Binding
  instanceAttributes : List Binding
  nested : List NestedClass
  container : Option ClassId
  /-- The names in `__slots__`; `none` if attributes are not restricted. -/
  slots : Option (List String)
  properties : List Property
  span : Span
deriving Repr, Inhabited

/-- One of the decorators has that dotted name. -/
def hasDecorator (decorators : List Decorator) (name : String) : Bool :=
  decorators.any fun d => d.name? == some name

/-! ## Methods -/

/-- The kind of a method, by its decorators, else by the names that the language
treats specially. -/
def MethodKind.of (f : FunctionOutline) : MethodKind :=
  let decorated (names : List String) := names.any (hasDecorator f.decorators)
  if decorated ["staticmethod", "abc.abstractstaticmethod"] then .static
  else if decorated ["classmethod", "abc.abstractclassmethod"] then .onClass
  else if f.name = "__new__" then .static
  else if f.name = "__init_subclass__" ∨ f.name = "__class_getitem__" then .onClass
  else .onInstance

/-- A function of a class body as a method. -/
def Method.ofOutline (f : FunctionOutline) : Method :=
  ⟨f.name, .of f, f.parameters, f.decorators, f.returns, f.doc, f.isAsync, f.span⟩

/-! ## Properties -/

namespace Property

/-- The accessor in a role. -/
def accessor (p : Property) : Role → Option Accessor
  | .getter => p.getter
  | .setter => p.setter
  | .deleter => p.deleter

/-- The method that an accessor is. -/
def methodIndex? : Option Accessor → Option Nat
  | some (.method n) => some n
  | _ => none

/-- The methods among the accessors. -/
def methodIndices (p : Property) : List Nat :=
  [p.getter, p.setter, p.deleter].filterMap methodIndex?

end Property

/-! ## Facts of a class -/

/-- The bindings of the receiver in the methods of instances, those of `__init__`
first; the first binding of a name counts. -/
def instanceAttributesOf (functions : List FunctionOutline) : List Binding :=
  let ordered :=
    functions.filter (·.name == "__init__") ++ functions.filter (·.name != "__init__")
  let bindings :=
    (ordered.filter fun f => MethodKind.of f = .onInstance).flatMap (·.receiverBindings)
  bindings.foldl (fun found b =>
    if found.any (·.target == b.target) then found else found ++ [b]) []

/-- The names that a value of `__slots__` lists; `none` for a computed one. -/
def slotNames? (value : Expression) : Option (List String) :=
  match value.stringValue? with
  | some name => some [name]
  | none => value.elements?.bind (·.mapM Expression.stringValue?)

/-- The first attribute of that name. -/
def findAttribute? (attributes : List Binding) (name : String) : Option Binding :=
  attributes.find? (·.target == name)

/-- The slots that the class attributes declare. -/
def slotsOf (attributes : List Binding) : Option (List String) :=
  ((findAttribute? attributes "__slots__").bind (·.value)).bind slotNames?

/-- The metaclass: a keyword of the header, or else a class attribute. -/
def metaclassOf (c : ClassOutline) : Option Expression :=
  match c.keyword? "metaclass" with
  | some e => some e
  | none => (findAttribute? c.bindings "__metaclass__").bind (·.value)

namespace ClassDecl

/-- The first method of that name. -/
def method? (d : ClassDecl) (name : String) : Option Method := d.methods.find? (·.name == name)

/-- The first class attribute of that name. -/
def classAttribute? (d : ClassDecl) (name : String) : Option Binding :=
  findAttribute? d.classAttributes name

/-- The first instance attribute of that name. -/
def instanceAttribute? (d : ClassDecl) (name : String) : Option Binding :=
  findAttribute? d.instanceAttributes name

/-- The first nested class of that name. -/
def nestedClass? (d : ClassDecl) (name : String) : Option ClassId :=
  (d.nested.find? (·.name == name)).map (·.id)

/-- The first property of that name. -/
def property? (d : ClassDecl) (name : String) : Option Property :=
  d.properties.find? (·.name == name)

end ClassDecl
end Hierarchy
end Lineage
