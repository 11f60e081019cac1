/-
# The command `classes`

Sums up the classes of a Python source, or of all sources below a directory.
-/

import Lineage.Command.Arguments
import Lineage.Hierarchy.View
import Lineage.Json.Printer

namespace Lineage
namespace Command

open Hierarchy

/-- What is said about a property. -/
structure PropertySummary where
  name : String
  readable : Bool
  writable : Bool
  deletable : Bool
deriving DecidableEq, Repr

/-- What is said about a class. -/
structure ClassSummary where
  qualifiedName : String
  bases : List String
  ancestors : List String
  newStyle : Bool
  constructor : Option String
  methods : List String
  properties : List PropertySummary
  classAttributes : List String
  instanceAttributes : List String
  nestedClasses : List String
  slots : Option (List String)
  diagnostics : List String
deriving DecidableEq, Repr

/-- The summary of a class. -/
def summarize (v : View) : ClassSummary where
  qualifiedName := v.decl.qualifiedName
  bases := v.superTypes.map fun
    | .known id => v.graph.nameOf id
    | .unresolved e => e.text ++ " (unresolved)"
  ancestors := v.ancestors.map v.graph.nameOf
  newStyle := v.isNewStyle
  constructor := (v.constructor? true).map fun m => dotted (v.graph.nameOf m.owner) m.item.name
  methods := v.decl.methods.map (·.name)
  properties := v.decl.properties.map fun p =>
    ⟨p.name, p.getter.isSome, p.setter.isSome, p.deleter.isSome⟩
  classAttributes := v.decl.classAttributes.map (·.target)
  instanceAttributes := v.decl.instanceAttributes.map (·.target)
  nestedClasses := v.decl.nested.map fun n => v.graph.nameOf n.id
  slots := v.decl.slots
  diagnostics := v.diagnostics.map (·.message)

/-- The classes that the arguments ask for; builtin ones are never shown. -/
def selected (a : ClassesArguments) (index : ClassIndex) : List ClassDecl :=
  index.classes.filter fun d =>
    !index.isBuiltin d.id && a.module.all (· == d.module)
      && a.className.all fun n => n == d.name || n == d.qualifiedName

/-- The summaries of the classes that the arguments ask for. -/
def summaries (a : ClassesArguments) (index : ClassIndex) (resolver : Resolver)
    (context : Context) : List ClassSummary :=
  ((selected a index).filterMap fun d => index.view? resolver context d.id).map summarize

/-! ## As JSON -/

/-- The summary of a property as an object. -/
def PropertySummary.toJson (p : PropertySummary) : Json :=
  .object [("name", .text p.name), ("readable", .bool p.readable),
    ("writable", .bool p.writable), ("deletable", .bool p.deletable)]

/-- The summary of a class as an object. -/
def ClassSummary.toJson (s : ClassSummary) : Json :=
  .object [("qualifiedName", .text s.qualifiedName), ("bases", .ofTexts s.bases),
    ("ancestors", .ofTexts s.ancestors), ("newStyle", .bool s.newStyle),
    ("constructor", .ofText? s.constructor), ("methods", .ofTexts s.methods),
    ("properties", .ofList PropertySummary.toJson s.properties),
    ("classAttributes", .ofTexts s.classAttributes),
    ("instanceAttributes", .ofTexts s.instanceAttributes),
    ("nestedClasses", .ofTexts s.nestedClasses), ("slots", .ofOption .ofTexts s.slots),
    ("diagnostics", .ofTexts s.diagnostics)]

/-! ## As text -/

/-- A line with a label and values; none if there are no values. -/
def valuesLine (label separator : String) (values : List String) : List String :=
  if values.isEmpty then [] else ["  " ++ label ++ separator.intercalate values]

/-- The roles of a property, a dash for each one missing. -/
def access (p : PropertySummary) : String :=
  (if p.readable then "r" else "-") ++ (if p.writable then "w" else "-")
    ++ (if p.deletable then "d" else "-")

/-- The lines of a summary. -/
def summaryLines (s : ClassSummary) : List String :=
  [s.qualifiedName]
    ++ valuesLine "bases:      " ", " s.bases
    ++ valuesLine "mro:        " " -> " s.ancestors
    ++ (if s.newStyle then [] else ["  old-style class"])
    ++ valuesLine "init:       " "" s.constructor.toList
    ++ valuesLine "methods:    " ", " s.methods
    ++ s.properties.map (fun p => "  property:   " ++ p.name ++ " [" ++ access p ++ "]")
    ++ valuesLine "class attr: " ", " s.classAttributes
    ++ valuesLine "self attr:  " ", " s.instanceAttributes
    ++ valuesLine "nested:     " ", " s.nestedClasses
    ++ (match s.slots with
      | none => []
      | some [] => ["  slots:      (none)"]
      | some slots => valuesLine "slots:      " ", " slots)
    ++ s.diagnostics.map ("  warning: " ++ ·)
    ++ [""]

/-- Lines as text. -/
def joinLines (lines : List String) : String := String.join (lines.map (· ++ "\n"))

/-- What is printed for the summaries: JSON, or the lines of each and their count. -/
def printSummaries (json : Bool) (modules : Nat) (found : List ClassSummary) : String :=
  if json then (Json.ofList ClassSummary.toJson found).pretty ++ "\n"
  else if found.isEmpty then "No classes found\n"
  else
    joinLines (found.flatMap summaryLines
      ++ ["✓ " ++ found.length.repr ++ " classes in " ++ modules.repr ++ " modules"])

end Command
end Lineage
