/-
# Resolving bases

A resolver turns a base expression of a class into a class of the index, if it
can.  By name, a simple name is looked up in the body around the class, at the top
of its module and among the builtins; a dotted name is tried as a qualified name,
absolute and relative to the module.
-/

import Lineage.Hierarchy.Index

namespace Lineage
namespace Hierarchy

open Outline

/-- Turns a base of a class into a class. -/
abbrev Resolver : Type := ClassIndex → ClassDecl → Expression → Option ClassId

namespace Resolver

/-- The nested class of that name in the class around `d`. -/
def inEnclosingBody? (index : ClassIndex) (d : ClassDecl) (name : String) : Option ClassId :=
  (d.container.bind index.get?).bind (·.nestedClass? name)

/-- The only class of that name in the index. -/
def onlyOne? (index : ClassIndex) (name : String) : Option ClassId :=
  match index.findByName name with
  | [id] => some id
  | _ => none

/-- The class that a name without dots means to `d`. -/
def simpleName? (anywhere : Bool) (index : ClassIndex) (d : ClassDecl) (name : String) :
    Option ClassId :=
  (inEnclosingBody? index d name).or <|
    (index.moduleClass? d.module name).or <|
      (index.builtin? name).or <|
        if anywhere then onlyOne? index name else none

/-- The modules that a builtin may be qualified with. -/
def builtinsNames : List String := ["builtins", "__builtin__"]

/-- The class that a dotted name means to `d`. -/
def dottedName? (index : ClassIndex) (d : ClassDecl) (name : String) : Option ClassId :=
  (index.lookup? name).or <|
    (index.lookup? (dotted d.module name)).or <|
      (splitLastDot? name).bind fun (module, last) =>
        if builtinsNames.contains module then index.builtin? last else none

/-- The expression whose name a base goes by: for a subscript, what it is taken of. -/
def origin : Expression → Expression
  | .subscript value _ _ => value
  | e => e

/-- Resolves bases by name.  With `anywhere`, a simple name found nowhere else
means the only class of that name in the index.  A class is no base of itself. -/
def names (anywhere : Bool) : Resolver := fun index d e =>
  ((origin e).dottedName?.bind fun name =>
    if name.contains '.' then dottedName? index d name
    else simpleName? anywhere index d name).filter (· ≠ d.id)

/-- Resolves bases by their text. -/
def table (entries : List (String × ClassId)) : Resolver := fun _ _ e => entries.lookup e.text

end Resolver
end Hierarchy
end Lineage
