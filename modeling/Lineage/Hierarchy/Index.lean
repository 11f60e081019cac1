/-
# The class index

The classes of any number of modules, in the order they were added, with the maps
that find them by name.  A class that is in the index does not change; only its
list of nested classes grows while its module is added.
-/

import Lineage.Hierarchy.Property

namespace Lineage
namespace Hierarchy

open Outline

/-- Classes of any number of modules. -/
structure ClassIndex where
  classes : List ClassDecl
  /-- The first class of each qualified name. -/
  byQualifiedName : List (String × ClassId)
  /-- All classes of each simple name. -/
  byName : List (String × List ClassId)
  modules : List String
deriving Repr

/-- The module of the builtin classes. -/
def builtinsModule : String := "builtins"

/-- A dotted name. -/
def dotted (scope name : String) : String := scope ++ "." ++ name

/-- A class without a source. -/
def ClassDecl.synthetic (id : ClassId) (module name : String) : ClassDecl where
  id := id
  name := name
  qualifiedName := dotted module name
  module := module
  bases := []
  metaclass := none
  decorators := []
  doc := none
  methods := []
  classAttributes := []
  instanceAttributes := []
  nested := []
  container := none
  slots := none
  properties := []
  span := ⟨0, 0, dotted module name⟩

/-- A class of a parsed module. -/
def ClassDecl.ofOutline (id : ClassId) (module qualifiedName : String)
    (container : Option ClassId) (c : ClassOutline) : ClassDecl :=
  let methods := c.methods.map Method.ofOutline
  { id := id
    name := c.name
    qualifiedName := qualifiedName
    module := module
    bases := c.bases
    metaclass := metaclassOf c
    decorators := c.decorators
    doc := c.doc
    methods := methods
    classAttributes := c.bindings
    instanceAttributes := instanceAttributesOf c.methods
    nested := []
    container := container
    slots := slotsOf c.bindings
    properties := discoverProperties methods c.bindings
    span := c.span }

namespace ClassIndex

/-- The index without classes. -/
def empty : ClassIndex := ⟨[], [], [], []⟩

/-- The number of classes. -/
def size (index : ClassIndex) : Nat := index.classes.length

/-- The class with that id. -/
def get? (index : ClassIndex) (id : ClassId) : Option ClassDecl := index.classes[id.val]?

/-- The id of the next class. -/
def nextId (index : ClassIndex) : ClassId := ⟨index.classes.length⟩

/-- The first class of a qualified name. -/
def lookup? (index : ClassIndex) (qualifiedName : String) : Option ClassId :=
  index.byQualifiedName.lookup qualifiedName

/-- Every class of a simple name, in the order they were added. -/
def findByName (index : ClassIndex) (name : String) : List ClassId :=
  (index.byName.lookup name).getD []

/-- The class of that name at the top level of a module. -/
def moduleClass? (index : ClassIndex) (module name : String) : Option ClassId :=
  (index.lookup? (dotted module name)).filter fun id =>
    match index.get? id with
    | some d => d.container.isNone
    | none => false

/-- The builtin class of that name. -/
def builtin? (index : ClassIndex) (name : String) : Option ClassId :=
  index.lookup? (dotted builtinsModule name)

/-- The class is one of the builtins. -/
def isBuiltin (index : ClassIndex) (id : ClassId) : Bool :=
  match index.get? id with
  | some d => d.module == builtinsModule
  | none => false

/-! ## Adding classes -/

/-- A map with a key bound, if it is not bound yet. -/
def bindFirst (map : List (String × ClassId)) (key : String) (id : ClassId) :
    List (String × ClassId) :=
  if (map.lookup key).isSome then map else map ++ [(key, id)]

/-- A map with one more class under a key. -/
def bindMore (key : String) (id : ClassId) :
    List (String × List ClassId) → List (String × List ClassId)
  | [] => [(key, [id])]
  | (k, ids) :: rest =>
    if k = key then (k, ids ++ [id]) :: rest else (k, ids) :: bindMore key id rest

/-- The index with one more class. -/
def insert (index : ClassIndex) (d : ClassDecl) : ClassIndex where
  classes := index.classes ++ [d]
  byQualifiedName := bindFirst index.byQualifiedName d.qualifiedName d.id
  byName := bindMore d.name d.id index.byName
  modules := index.modules

/-- The index with a class among the nested ones of its container. -/
def link (index : ClassIndex) (container : Option ClassId) (nested : NestedClass) : ClassIndex :=
  match container with
  | none => index
  | some parent =>
    { index with
      classes := index.classes.modify parent.val fun d =>
        { d with nested := d.nested ++ [nested] } }

mutual

/-- The index with a class and the classes in it, and their ids.  `scope` is the
qualified name of what the class stands in. -/
def addClass (index : ClassIndex) (module scope : String) (container : Option ClassId) :
    ClassOutline → ClassIndex × List ClassId
  | ⟨name, bases, keywords, decorators, doc, methods, bindings, classes, span⟩ =>
    let id := index.nextId
    let qualifiedName := dotted scope name
    let c : ClassOutline :=
      ⟨name, bases, keywords, decorators, doc, methods, bindings, classes, span⟩
    let added := (index.insert (.ofOutline id module qualifiedName container c)).link container
      ⟨name, id⟩
    let (index', ids) := addClasses added module qualifiedName (some id) classes
    (index', id :: ids)

/-- The index with classes that stand side by side, and their ids. -/
def addClasses (index : ClassIndex) (module scope : String) (container : Option ClassId) :
    List ClassOutline → ClassIndex × List ClassId
  | [] => (index, [])
  | c :: cs =>
    let (index', ids) := addClass index module scope container c
    let (index'', ids') := addClasses index' module scope container cs
    (index'', ids ++ ids')

end

/-- The index with one more module name, if it is new. -/
def addModuleName (index : ClassIndex) (module : String) : ClassIndex :=
  if index.modules.contains module then index
  else { index with modules := index.modules ++ [module] }

/-- The index with the classes of a parsed module, and their ids. -/
def addModule (index : ClassIndex) (module : String) (m : ModuleOutline) :
    ClassIndex × List ClassId :=
  let (index', ids) := index.addClasses module module none m.classes
  (index'.addModuleName module, ids)

/-- The index with the builtin `object`. -/
def withBuiltins : ClassIndex :=
  empty.insert (.synthetic empty.nextId builtinsModule "object")

end ClassIndex
end Hierarchy
end Lineage
