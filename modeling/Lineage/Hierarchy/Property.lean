/-
# Discovering properties

Properties come from three shapes: a method with a property decorator, a method
decorated with a role of a property, and a class attribute bound to a property
call.  Each of them contributes to a property, in source order, and what a
property has already is kept.
-/

import Lineage.Hierarchy.Decl

namespace Lineage
namespace Hierarchy

open Outline

/-- What one declaration says about a property. -/
inductive Contribution where
  | declared (name : String)
  | accessor (name : String) (role : Role) (accessor : Accessor)
  | doc (name : String) (text : String)
deriving Repr

/-- The property that a contribution is about. -/
def Contribution.name : Contribution → String
  | .declared name => name
  | .accessor name _ _ => name
  | .doc name _ => name

/-- A declaration of a class body that may contribute. -/
inductive Declarer where
  | method (index : Nat) (method : Method)
  | attribute (binding : Binding)

/-- Where a declaration starts. -/
def Declarer.start : Declarer → Nat
  | .method _ m => m.span.start
  | .attribute b => b.span.start

/-- The declarations of a class body in source order. -/
def declarers (methods : List Method) (attributes : List Binding) : List Declarer :=
  (methods.zipIdx.map (fun (m, i) => Declarer.method i m)
    ++ attributes.map Declarer.attribute).mergeSort fun a b => a.start ≤ b.start

/-- The decorators that make a method a getter. -/
def getterDecorators : List String := [
  "property", "abc.abstractproperty", "abstractproperty", "functools.cached_property",
  "cached_property"]

/-- The names of the property type. -/
def propertyCalls : List String := ["property", "builtins.property", "__builtin__.property"]

/-- The role that the last part of a decorator names. -/
def roleOf? : String → Option Role
  | "getter" => some .getter
  | "setter" => some .setter
  | "deleter" => some .deleter
  | _ => none

/-- The parts of a dotted name before and after its last dot. -/
def splitLastDot? (name : String) : Option (String × String) :=
  let cs := name.toList.reverse
  let last := cs.takeWhile (· != '.')
  match cs.drop last.length with
  | [] => none
  | _ :: front => some (String.ofList front.reverse, String.ofList last.reverse)

/-- What a decorator of the method at `index` contributes. -/
def decoratorContributions (index : Nat) (m : Method) (d : Decorator) : List Contribution :=
  match d.name? with
  | none => []
  | some name =>
    if getterDecorators.contains name then
      .accessor m.name .getter (.method index)
        :: (m.doc.map fun text => Contribution.doc m.name text).toList
    else
      match splitLastDot? name with
      | none => []
      | some (target, last) =>
        match roleOf? last with
        | some role =>
          if target.contains '.' then [] else [.accessor target role (.method index)]
        | none => []

/-- The parameters of a property call, in order. -/
def propertyParameters : List String := ["fget", "fset", "fdel", "doc"]

/-- The role that a parameter of a property call stands for. -/
def parameterRole? : String → Option Role
  | "fget" => some .getter
  | "fset" => some .setter
  | "fdel" => some .deleter
  | _ => none

/-- The accessor that an argument names: a method of the class if it is the name of
one, none if it is `None`, the expression otherwise. -/
def accessorOf? (methods : List Method) (e : Expression) : Option Accessor :=
  if e.isName "None" then none
  else
    match e with
    | .name id _ =>
      match methods.findIdx? (·.name == id) with
      | some i => some (.method i)
      | none => some (.expression e)
    | _ => some (.expression e)

/-- What the argument for a parameter contributes. -/
def argumentContribution? (name : String) (methods : List Method) (parameter : String)
    (value : Expression) : Option Contribution :=
  if parameter = "doc" then value.stringValue?.map (.doc name ·)
  else
    match parameterRole? parameter with
    | some role => (accessorOf? methods value).map (.accessor name role ·)
    | none => none

/-- What the arguments of a property call contribute, `position` of which have been
given without a keyword before. -/
def callContributions (name : String) (methods : List Method) (position : Nat) :
    List (Argument Expression) → List Contribution
  | [] => []
  | a :: rest =>
    if a.unpacking ≠ .none then callContributions name methods position rest
    else
      match a.name with
      | some keyword =>
        (argumentContribution? name methods keyword a.value).toList
          ++ callContributions name methods position rest
      | none =>
        ((propertyParameters[position]?).bind
            fun parameter => argumentContribution? name methods parameter a.value).toList
          ++ callContributions name methods (position + 1) rest

/-- What a declaration contributes. -/
def contributionsOf (methods : List Method) : Declarer → List Contribution
  | .method i m => m.decorators.flatMap (decoratorContributions i m)
  | .attribute b =>
    match b.value with
    | some (.call function arguments _) =>
      match function.dottedName? with
      | some callee =>
        if propertyCalls.contains callee then
          .declared b.target :: callContributions b.target methods 0 arguments
        else []
      | none => []
    | _ => []

namespace Property

/-- A property of which nothing is known. -/
def named (name : String) : Property := ⟨name, none, none, none, none⟩

/-- What a property is after a contribution to it; a role that is filled stays. -/
def contribute (p : Property) : Contribution → Property
  | .declared _ => p
  | .accessor _ .getter a => { p with getter := p.getter.or (some a) }
  | .accessor _ .setter a => { p with setter := p.setter.or (some a) }
  | .accessor _ .deleter a => { p with deleter := p.deleter.or (some a) }
  | .doc _ text => { p with doc := p.doc.or (some text) }

/-- What is said about a property does not change its name. -/
@[simp] theorem name_contribute (p : Property) (c : Contribution) :
    (p.contribute c).name = p.name := by
  cases c with
  | accessor _ role _ => cases role <;> rfl
  | declared => rfl
  | doc => rfl

end Property

/-- Properties after one more contribution: to the one of that name, or a new one. -/
def addContribution (properties : List Property) (c : Contribution) : List Property :=
  match properties with
  | [] => [(Property.named c.name).contribute c]
  | p :: ps => if p.name = c.name then p.contribute c :: ps else p :: addContribution ps c

/-- The properties of a class, in the order of their first declaration. -/
def discoverProperties (methods : List Method) (attributes : List Binding) : List Property :=
  ((declarers methods attributes).flatMap (contributionsOf methods)).foldl addContribution []

end Hierarchy
end Lineage
