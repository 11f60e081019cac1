/-
# Paths

A path is a text, read as its components: repeated and trailing slashes mean
nothing, nor do single dots, save one at the start.  Two paths are the same if
their components are.
-/

namespace Lineage
namespace Files

/-- A component of a path. -/
inductive Component where
  | root
  | here
  | up
  | named (name : String)
deriving DecidableEq, Repr

namespace Component

/-- The component as text. -/
def text : Component → String
  | .root => "/"
  | .here => "."
  | .up => ".."
  | .named name => name

/-- The rank of a component among those of different kinds. -/
def rank : Component → Nat
  | .root => 0
  | .here => 1
  | .up => 2
  | .named _ => 3

/-- The order of components: by kind, and names by their characters. -/
def compare (a b : Component) : Ordering :=
  match a, b with
  | .named m, .named n => Ord.compare m n
  | _, _ => Ord.compare a.rank b.rank

end Component

/-- The stretches of a text between slashes. -/
def splitSlashes : List Char → List (List Char)
  | [] => [[]]
  | c :: cs =>
    if c = '/' then [] :: splitSlashes cs
    else
      match splitSlashes cs with
      | [] => [[c]]
      | part :: parts => (c :: part) :: parts

/-- A stretch that is not the first one; empty ones and single dots mean nothing. -/
def innerComponent? (part : List Char) : Option Component :=
  if part = [] ∨ part = ['.'] then none
  else if part = ['.', '.'] then some .up
  else some (.named (String.ofList part))

/-- The components of a text. -/
def componentsOf (text : List Char) : List Component :=
  match text, splitSlashes text with
  | [], _ => []
  | '/' :: _, parts => .root :: parts.filterMap innerComponent?
  | _, [] => []
  | _, part :: parts =>
    (if part = ['.'] then [.here] else (innerComponent? part).toList)
      ++ parts.filterMap innerComponent?

/-- A path. -/
structure Path where
  text : String
deriving DecidableEq, Repr

namespace Path

/-- The components of a path. -/
def components (p : Path) : List Component := componentsOf p.text.toList

end Path

/-- The components without the last one; `none` if there is none, or it is the root. -/
def parent? (cs : List Component) : Option (List Component) :=
  match cs.getLast? with
  | none => none
  | some .root => none
  | some _ => some cs.dropLast

/-- The name that the last component is. -/
def fileName? (cs : List Component) : Option String :=
  match cs.getLast? with
  | some (.named name) => some name
  | _ => none

/-- A file name parted at its last dot; a dot at the start parts nothing. -/
def splitName (name : String) : String × Option String :=
  let after := name.toList.reverse.takeWhile (· != '.')
  match name.toList.reverse.drop (after.length + 1) with
  | [] => (name, none)
  | before => (String.ofList before.reverse, some (String.ofList after.reverse))

/-- A file name without what follows its last dot. -/
def stem (name : String) : String := (splitName name).1

/-- What follows the last dot of a file name. -/
def extension? (name : String) : Option String := (splitName name).2

/-- The components after those of `base`, if the path starts with them. -/
def below? : List Component → List Component → Option (List Component)
  | [], cs => some cs
  | _ :: _, [] => none
  | b :: base, c :: cs => if b = c then below? base cs else none

/-- The order of paths, component by component. -/
def comparePaths : List Component → List Component → Ordering
  | [], [] => .eq
  | [], _ :: _ => .lt
  | _ :: _, [] => .gt
  | a :: as, b :: bs => (a.compare b).then (comparePaths as bs)

/-- Paths in their order. -/
def sortPaths (paths : List Path) : List Path :=
  paths.mergeSort fun p q => comparePaths p.components q.components != .gt

/-! ## Python sources -/

/-- The path names a Python source: its extension is `py` or `pyi`. -/
def isPythonSource (p : Path) : Bool :=
  match (fileName? p.components).bind extension? with
  | some e => e == "py" || e == "pyi"
  | none => false

/-- The dotted module name of a source found under `root`: the directories between
them and the stem of the file.  The stem `__init__` is dropped, and directly under
`root` the name of `root` stands for it. -/
def moduleNameOf (root path : List Component) : String :=
  let inner := (below? root path).getD path
  let directories := ((parent? inner).getD []).map Component.text
  let name := ((fileName? path).map stem).getD ""
  let parts :=
    if name != "__init__" then directories ++ [name]
    else if directories.isEmpty then (fileName? root).toList
    else directories
  ".".intercalate parts

/-- The dotted module name of a source found under `root`. -/
def moduleName (root path : Path) : String := moduleNameOf root.components path.components

end Files
end Lineage
