/-
# A directory tree

A working directory with files below it, in which a path is resolved step by step
as an operating system does: each step but the last must lead to a directory, and
so must the last one before a trailing slash.  A path that leaves the working
directory leads to the directories above it, of which nothing else is known.
-/

import Lineage.Files.System
import Lineage.Text.Bytes

namespace Lineage
namespace Files

open Text

/-- A working directory: the files and the directories below it, by the names that
lead to them. -/
structure FileTree where
  files : List (List String × String)
  directories : List (List String)
deriving DecidableEq, Repr

/-- What a path leads to. -/
inductive Entry where
  | file (text : String)
  | directory (names : List String)
  /-- A directory that is not below the working directory. -/
  | outside
deriving DecidableEq, Repr

/-- The bytes that a path may have. -/
def pathLimit : Nat := 4095

/-- The bytes that a name in a path may have. -/
def nameLimit : Nat := 255

namespace FileTree

/-- Nothing. -/
def empty : FileTree := ⟨[], []⟩

/-- The names after one more component; `none` if it leaves the working directory. -/
def advance? (names : List String) : Component → Option (List String)
  | .named name => some (names ++ [name])
  | .here => some names
  | .up => if names.isEmpty then none else some names.dropLast
  | .root => none

/-- The places that the components lead to, one after another. -/
def places? (names : List String) : List Component → Option (List (List String))
  | [] => some []
  | c :: cs => do
    let place ← advance? names c
    return place :: (← places? place cs)

/-- The tree with a file written, in place of one that is there, and with the
directories on the way to it.  A file outside the working directory is not kept. -/
def write (t : FileTree) (p : Path) (text : String) : FileTree :=
  match places? [] p.components with
  | none => t
  | some places =>
    match places.getLast? with
    | none => t
    | some names =>
      { files := t.files.filter (·.1 != names) ++ [(names, text)]
        directories := t.directories ++ places.dropLast }

/-- The tree of a list of files, written one after another. -/
def ofList (files : List (Path × String)) : FileTree :=
  files.foldl (fun t f => t.write f.1 f.2) empty

/-- What lies at the names. -/
def entry? (t : FileTree) (names : List String) : Option Entry :=
  match t.files.find? (·.1 == names) with
  | some f => some (.file f.2)
  | none =>
    if names.isEmpty || t.directories.contains names then some (.directory names) else none

/-- The directory that an entry is in. -/
def above : Entry → Entry
  | .directory (name :: names) => .directory (name :: names).dropLast
  | _ => .outside

/-- What lies under a name in an entry. -/
def under? (t : FileTree) (name : String) : Entry → Option Entry
  | .directory names => t.entry? (names ++ [name])
  | _ => none

/-- One step from an entry. -/
def step (t : FileTree) (at? : Except SystemError Entry) (part : List Char) :
    Except SystemError Entry :=
  match at? with
  | .error e => .error e
  | .ok (.file _) => .error .notDirectory
  | .ok entry =>
    if part = [] ∨ part = ['.'] then .ok entry
    else if part = ['.', '.'] then .ok (above entry)
    else if nameLimit < byteLength part then .error .tooLong
    else
      match t.under? (String.ofList part) entry with
      | some e => .ok e
      | none => .error .missing

/-- The path is longer than the system takes. -/
def isTooLong (p : Path) : Bool := pathLimit < byteLength p.text.toList

/-- What a path leads to. -/
def resolve (t : FileTree) (p : Path) : Except SystemError Entry :=
  let cs := p.text.toList
  if cs.contains '\x00' then .error .containsNul
  else if isTooLong p then .error .tooLong
  else
    match cs with
    | [] => .error .missing
    | '/' :: _ => (splitSlashes cs).foldl t.step (.ok .outside)
    | _ => (splitSlashes cs).foldl t.step (.ok (.directory []))

/-- A path below the directory that `dir` names. -/
def join (dir : Path) (names : List String) : Path :=
  let slash := if dir.text.endsWith "/" then "" else "/"
  ⟨dir.text ++ slash ++ "/".intercalate names⟩

/-- The files below a directory, by the names that lead from it to them. -/
def filesBelow (t : FileTree) (names : List String) : List (List String) :=
  (t.files.filter fun f => names.isPrefixOf f.1).map fun f => f.1.drop names.length

/-- The directories below a directory, by the names that lead from it to them. -/
def directoriesBelow (t : FileTree) (names : List String) : List (List String) :=
  (t.directories.filter fun d => names.isPrefixOf d && d != names).map (·.drop names.length)

/-- The Python sources below a directory that `dir` names; it fails at a directory
whose path is too long to be opened. -/
def sourcesBelow (t : FileTree) (dir : Path) (names : List String) :
    Except IoError (List Path) :=
  match ((t.directoriesBelow names).map (join dir)).find? isTooLong with
  | some p => .error (.listing p .tooLong)
  | none => .ok (sortPaths (((t.filesBelow names).map (join dir)).filter isPythonSource))

/-- A directory tree as a file system. -/
def fileSystem (t : FileTree) : FileSystem Id where
  present p :=
    match t.resolve p with
    | .ok _ => true
    | .error _ => false
  isDirectory p :=
    match t.resolve p with
    | .ok (.directory _) | .ok .outside => true
    | _ => false
  read p :=
    match t.resolve p with
    | .ok (.file text) => .ok text
    | .ok _ => .error (.system .isDirectory)
    | .error e => .error (.system e)
  sources dir :=
    match t.resolve dir with
    | .ok (.directory names) => t.sourcesBelow dir names
    | .ok .outside => .ok []
    | .ok (.file _) => .ok ([dir].filter isPythonSource)
    | .error e => .error (.listing dir e)

end FileTree
end Files
end Lineage
