/-
# Loading sources

Adding the classes of a source to an index, and those of every Python source below
a directory.  A source that cannot be read or parsed ends the loading; the classes
of the sources before it stay.
-/

import Lineage.Files.System
import Lineage.Hierarchy.Index
import Lineage.Outline.Definition

namespace Lineage
namespace Hierarchy

open Outline Files

/-- Why loading ends early. -/
inductive LoadError where
  | parse (path : String) (error : Source.ParseError)
  | io (error : IoError)
  /-- The parse of a source takes a step that it never takes. -/
  | defect (path : String) (what : Defect)
deriving DecidableEq, Repr

/-- The message of an error. -/
def LoadError.message : LoadError → String
  | .parse path error => "Parse error in " ++ path ++ ": " ++ error.message
  | .io error => "IO error: " ++ error.message
  | .defect path _ => "Parse error in " ++ path

namespace ClassIndex

/-- The index with the classes of a source, under a module name, and their ids. -/
def addParsed (index : ClassIndex) (module path source : String) :
    ClassIndex × Except LoadError (List ClassId) :=
  match parse source path with
  | .outline m =>
    let (index', ids) := index.addModule module m
    (index', .ok ids)
  | .refused e => (index, .error (.parse path e))
  | .defect d => (index, .error (.defect path d))

/-- The index with the classes of a source that lies at its module name. -/
def addSource (index : ClassIndex) (module source : String) :
    ClassIndex × Except LoadError (List ClassId) :=
  index.addParsed module module source

section Files

variable {m : Type → Type} [Monad m]

/-- The index with the classes of the files, up to the first one that fails. -/
def loadFiles (fs : FileSystem m) (root : List Component) (index : ClassIndex) :
    List Path → m (ClassIndex × Except LoadError (List ClassId))
  | [] => return (index, .ok [])
  | file :: files => do
    match ← fs.read file with
    | .error e => return (index, .error (.io e))
    | .ok source =>
      match index.addParsed (moduleNameOf root file.components) file.text source with
      | (index', .error e) => return (index', .error e)
      | (index', .ok ids) => do
        match ← loadFiles fs root index' files with
        | (index'', .error e) => return (index'', .error e)
        | (index'', .ok more) => return (index'', .ok (ids ++ more))

/-- The index with the classes of a Python source, or of every one below a directory,
under module names relative to it. -/
def loadPath (fs : FileSystem m) (index : ClassIndex) (path : Path) :
    m (ClassIndex × Except LoadError (List ClassId)) := do
  if isPythonSource path then
    loadFiles fs ((parent? path.components).getD []) index [path]
  else
    match ← fs.sources path with
    | .error e => return (index, .error (.io e))
    | .ok files => loadFiles fs path.components index files

end Files
end ClassIndex
end Hierarchy
end Lineage
