/-
# Views of a class

The queries about one class and its ancestry.  Every query has an answer: what is
not there is `none`, and a malformed hierarchy shows in the diagnostics.
-/

import Lineage.Hierarchy.Linearization

namespace Lineage
namespace Hierarchy

open Outline BaseGraph

/-- A class of an index, seen under a resolver and a context. -/
structure View where
  index : ClassIndex
  resolver : Resolver
  context : Context
  id : ClassId
  decl : ClassDecl
  isDeclared : index.get? id = some decl

/-- The view of a class; `none` if it is not in the index. -/
def ClassIndex.view? (index : ClassIndex) (resolver : Resolver) (context : Context)
    (id : ClassId) : Option View :=
  match h : index.get? id with
  | some d => some ⟨index, resolver, context, id, d, h⟩
  | none => none

/-- An item and the class that declares it. -/
structure Member (α : Type) where
  owner : ClassId
  item : α
deriving Repr

/-- A base as type queries see it. -/
inductive BaseType where
  | known (id : ClassId)
  | unresolved (base : Expression)
deriving Repr

/-- A name declared in a class body. -/
inductive Declaration where
  | attribute (binding : Binding)
  | method (method : Method)
  | nested (nested : NestedClass)
deriving Repr

/-- The name that is declared. -/
def Declaration.name : Declaration → String
  | .attribute b => b.target
  | .method m => m.name
  | .nested n => n.name

namespace View

/-- The bases of classes under the view. -/
def graph (v : View) : BaseGraph := v.index.graph v.resolver

/-! ## Ancestry -/

/-- The resolved bases; those that do not resolve are left out. -/
def superClasses (v : View) : List ClassId := v.graph.bases v.id

/-- The class or the expression that a base of a class is. -/
def baseType (v : View) (d : ClassDecl) (base : Expression) : BaseType :=
  match v.resolver v.index d base with
  | some id => .known id
  | none => .unresolved base

/-- Every base, resolved or not. -/
def superTypes (v : View) : List BaseType := v.decl.bases.map (v.baseType v.decl)

/-- The ancestors, and what is wrong with them. -/
def linearization (v : View) : Linearization := v.graph.linearize v.context.maxDepth v.id

/-- The ancestors in resolution order. -/
def ancestors (v : View) : List ClassId := v.linearization.ancestors

/-- What is wrong with the ancestry. -/
def diagnostics (v : View) : List Diagnostic := v.linearization.diagnostics

/-- The ancestors of a well-formed hierarchy, or the first diagnostic. -/
def checkedAncestors (v : View) : Except Diagnostic (List ClassId) :=
  let l := v.linearization
  match l.diagnostics with
  | d :: _ => .error d
  | [] => .ok l.ancestors

/-- The class, then its ancestors if inherited members count. -/
def chain (v : View) (inherited : Bool) : List ClassId :=
  v.id :: if inherited then v.ancestors else []

/-- The declarations along the chain. -/
def declared (v : View) (inherited : Bool) : List ClassDecl :=
  (v.chain inherited).filterMap v.index.get?

/-- The bases of a declaration that do not resolve. -/
def unresolvedBases (v : View) (d : ClassDecl) : List BaseType :=
  (d.bases.map (v.baseType d)).filter fun t =>
    match t with
    | .unresolved _ => true
    | .known _ => false

/-- The ancestors, each followed by its bases that do not resolve; those of the class
itself come first. -/
def ancestorTypes (v : View) : List BaseType :=
  (v.chain true).flatMap fun id =>
    (if id = v.id then [] else [.known id])
      ++ ((v.index.get? id).map v.unresolvedBases).getD []

/-- A walk from the classes `ahead` that meets a class of which `found` holds.  At
most `fresh` classes are entered, those in `seen` not again. -/
def walkFinds (bases : ClassId → List ClassId) (found : ClassId → Bool) (fresh : Nat)
    (seen ahead : List ClassId) : Bool :=
  match ahead with
  | [] => false
  | id :: rest =>
    if seen.contains id then walkFinds bases found fresh seen rest
    else if found id then true
    else
      match fresh with
      | 0 => false
      | n + 1 => walkFinds bases found n (id :: seen) (bases id ++ rest)
termination_by (fresh, ahead.length)

/-- The class or one of the classes reachable through its bases has the property. -/
def reaches (v : View) (found : ClassId → Bool) : Bool :=
  walkFinds v.graph.bases found (v.index.size + 1) [] [v.id]

/-- The class is `other` or derives from it. -/
def isSubclass (v : View) (other : ClassId) : Bool := v.reaches (· = other)

/-- The class is one of that qualified name or derives from one. -/
def isSubclassNamed (v : View) (qualifiedName : String) : Bool :=
  v.reaches fun id => ((v.index.get? id).map (·.qualifiedName)) == some qualifiedName

/-- The names of the root class. -/
def objectNames : List String := ["object", "builtins.object", "__builtin__.object"]

/-- A declaration that makes its class new-style. -/
def makesNewStyle (d : ClassDecl) : Bool :=
  d.metaclass.isSome || (d.module == builtinsModule && d.name == "object")
    || d.bases.any fun base => objectNames.any fun n => base.dottedName? == some n

/-- New-style: always at the current level; at the old one if the root class is an
ancestor or a metaclass is declared. -/
def isNewStyle (v : View) : Bool :=
  v.context.languageLevel ≠ .python2 || (v.declared true).any makesNewStyle

/-! ## Members -/

/-- The first member that the declarations along the chain offer. -/
def firstMember {α : Type} (v : View) (inherited : Bool) (pick : ClassDecl → Option α) :
    Option (Member α) :=
  (v.chain inherited).findSome? fun id =>
    ((v.index.get? id).bind pick).map fun item => ⟨id, item⟩

/-- The members that the declarations along the chain list. -/
def members {α : Type} (v : View) (inherited : Bool) (list : ClassDecl → List α) :
    List (Member α) :=
  (v.chain inherited).flatMap fun id =>
    (((v.index.get? id).map list).getD []).map fun item => ⟨id, item⟩

/-- The metaclass, own or inherited. -/
def metaclass (v : View) : Option (Member Expression) := v.firstMember true (·.metaclass)

/-- The methods, those of the class first. -/
def methods (v : View) (inherited : Bool) : List (Member Method) := v.members inherited (·.methods)

/-- The first method of that name. -/
def method? (v : View) (name : String) (inherited : Bool) : Option (Member Method) :=
  v.firstMember inherited (·.method? name)

/-- The constructor of a declaration: `__init__`, else `__new__` if it counts. -/
def constructorOf (newStyle : Bool) (d : ClassDecl) : Option Method :=
  (d.method? "__init__").or (if newStyle then d.method? "__new__" else none)

/-- The first constructor along the chain. -/
def constructor? (v : View) (inherited : Bool) : Option (Member Method) :=
  v.firstMember inherited (constructorOf v.isNewStyle)

/-- The first property with some property of its own, in declaration order. -/
def scanProperties (v : View) (p : Property → Bool) (inherited : Bool) :
    Option (Member Property) :=
  v.firstMember inherited fun d => d.properties.find? p

/-- The first property of that name. -/
def property? (v : View) (name : String) (inherited : Bool) : Option (Member Property) :=
  v.scanProperties (·.name == name) inherited

/-- The property of the class that has a method among its accessors.  Methods are
told apart by their spans. -/
def propertyByCallable? (v : View) (m : Method) : Option Property :=
  v.decl.properties.find? fun p => p.methodIndices.any fun i =>
    match v.decl.methods[i]? with
    | some found => found.span.id == m.span.id
    | none => false

/-- The class attributes, those of the class first. -/
def classAttributes (v : View) (inherited : Bool) : List (Member Binding) :=
  v.members inherited (·.classAttributes)

/-- The first class attribute of that name. -/
def classAttribute? (v : View) (name : String) (inherited : Bool) : Option (Member Binding) :=
  v.firstMember inherited (·.classAttribute? name)

/-- The first instance attribute of that name. -/
def instanceAttribute? (v : View) (name : String) (inherited : Bool) : Option (Member Binding) :=
  v.firstMember inherited (·.instanceAttribute? name)

/-- The first nested class of that name. -/
def nestedClass? (v : View) (name : String) (inherited : Bool) : Option ClassId :=
  (v.firstMember inherited (·.nestedClass? name)).map (·.item)

/-! ## Slots -/

/-- The slots of a declaration; a builtin class restricts attributes to none. -/
def slotsOf (d : ClassDecl) : Option (List String) :=
  match d.slots with
  | some slots => some slots
  | none => if d.module == builtinsModule then some [] else none

/-- Names with those of a list added that are not among them. -/
def addNew (names more : List String) : List String :=
  more.foldl (fun found n => if found.contains n then found else found ++ [n]) names

/-- The slots of an instance; `none` if a class along the chain does not restrict its
attributes. -/
def effectiveSlots (v : View) : Option (List String) :=
  ((v.declared true).mapM slotsOf).map fun lists => lists.foldl addNew []

/-! ## Declarations -/

/-- Where a declaration starts. -/
def startOf (v : View) : Declaration → Nat
  | .attribute b => b.span.start
  | .method m => m.span.start
  | .nested n => ((v.index.get? n.id).map (·.span.start)).getD 0

/-- The attributes, methods and nested classes of the class in source order. -/
def classDeclarations (v : View) : List Declaration :=
  (v.decl.classAttributes.map Declaration.attribute ++ v.decl.methods.map Declaration.method
    ++ v.decl.nested.map Declaration.nested).mergeSort fun a b => v.startOf a ≤ v.startOf b

/-- The attributes that the methods of the class bind on instances. -/
def instanceDeclarations (v : View) : List Declaration :=
  v.decl.instanceAttributes.map Declaration.attribute

end View

/-! ## Which views and ancestors there are -/

/-- Every class of an index has a view. -/
theorem ClassIndex.exists_view? {index : ClassIndex} {id : ClassId} {d : ClassDecl}
    (hd : index.get? id = some d) (resolver : Resolver) (context : Context) :
    ∃ v, index.view? resolver context id = some v := by
  unfold view?
  split
  · exact ⟨_, rfl⟩
  · rename_i hnone
    exact absurd (hd.symm.trans hnone) nofun

/-- The view of a class is one under the same index, resolver and context. -/
theorem view?_eq_some {index : ClassIndex} {resolver : Resolver} {context : Context} {a : ClassId}
    {u : View} (h : index.view? resolver context a = some u) :
    u.index = index ∧ u.resolver = resolver ∧ u.context = context ∧ u.id = a := by
  unfold ClassIndex.view? at h
  split at h
  · obtain rfl := Option.some.inj h
    exact ⟨rfl, rfl, rfl, rfl⟩
  · cases h

/-- Checked ancestors are the ancestors of a class with nothing to report. -/
theorem checkedAncestors_eq_ok {v : View} {l : List ClassId} (h : v.checkedAncestors = .ok l) :
    v.diagnostics = [] ∧ v.ancestors = l := by
  unfold View.checkedAncestors at h
  dsimp only at h
  split at h
  · cases h
  · rename_i hnone
    exact ⟨hnone, Except.ok.inj h⟩

/-- The ancestors are refused for the first diagnostic. -/
theorem checkedAncestors_eq_error_iff {v : View} {d : Diagnostic} :
    v.checkedAncestors = .error d ↔ v.diagnostics.head? = some d := by
  unfold View.checkedAncestors View.diagnostics
  dsimp only
  split
  · rename_i hsome
    rw [hsome, List.head?_cons, Except.error.injEq, Option.some.injEq]
  · rename_i hnone
    rw [hnone, List.head?_nil]
    exact ⟨nofun, nofun⟩

end Hierarchy
end Lineage
