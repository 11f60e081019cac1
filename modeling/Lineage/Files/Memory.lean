/-
# Files in memory

A file system that is nothing but a list of paths with their texts.  Directories
are the paths that files lie below.
-/

import Lineage.Files.System

namespace Lineage
namespace Files

/-- Files in memory. -/
structure MemoryFiles where
  entries : List (Path × String)
deriving DecidableEq, Repr

namespace MemoryFiles

/-- No files. -/
def empty : MemoryFiles := ⟨[]⟩

/-- The path names the file at `q`. -/
def sameFile (p q : Path) : Bool := p.components == q.components

/-- The files with one more; a file that is there already keeps its path and gets
the new text. -/
def write (fs : MemoryFiles) (p : Path) (text : String) : MemoryFiles :=
  if fs.entries.any (sameFile p ·.1) then
    ⟨fs.entries.map fun e => if sameFile p e.1 then (e.1, text) else e⟩
  else ⟨fs.entries ++ [(p, text)]⟩

/-- The files of a list, written one after another. -/
def ofList (files : List (Path × String)) : MemoryFiles :=
  files.foldl (fun fs f => fs.write f.1 f.2) empty

/-- The path `p` is the directory `dir` or lies below it. -/
def isBelow (dir p : Path) : Bool := (below? dir.components p.components).isSome

/-- Files in memory as a file system. -/
def fileSystem (fs : MemoryFiles) : FileSystem Id where
  present p := fs.entries.any (isBelow p ·.1)
  isDirectory p := fs.entries.any fun e => isBelow p e.1 && !sameFile p e.1
  read p :=
    match fs.entries.find? (sameFile p ·.1) with
    | some e => .ok e.2
    | none => .error (.absent p)
  sources dir :=
    .ok (sortPaths ((fs.entries.map (·.1)).filter fun p => isBelow dir p && isPythonSource p))

end MemoryFiles
end Files
end Lineage
