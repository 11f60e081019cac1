/-
# The program

The commands on the files, the input and the output of the machine.  What the machine
refuses becomes a value here, and nothing is decided.
-/

import Lineage.Command.Run

namespace Lineage
namespace Machine

open Command Files

/-- The refusal of a number, which the machine gives as it is or negated. -/
def cause? (code : UInt32) : Option SystemError :=
  match min code (0 - code) with
  | 2 => some .missing
  | 20 => some .notDirectory
  | 21 => some .isDirectory
  | 36 => some .tooLong
  | _ => none

/-- The refusal that an error of the machine is. -/
def refusal (e : IO.Error) : IoError :=
  let code? : Option UInt32 :=
    match e with
    | .noFileOrDirectory _ code _ => some code
    | .noSuchThing _ code _ => some code
    | .inappropriateType _ code _ => some code
    | .invalidArgument _ code _ => some code
    | _ => none
  match code?.bind cause? with
  | some cause => .system cause
  | none => .other e.toString

/-- What an action gives, or the refusal of the machine. -/
def attempt {α : Type} (action : IO α) : IO (Except IoError α) := do
  try
    return .ok (← action)
  catch e =>
    return .error (refusal e)

/-- The path names something. -/
def isPresent (path : Path) : IO Bool := do
  match ← attempt (IO.FS.realPath path.text) with
  | .ok _ => return true
  | .error _ => return false

/-- The path names a directory. -/
def isDirectory (path : Path) : IO Bool := do
  match ← attempt (IO.FS.realPath path.text) with
  | .ok place => place.isDir
  | .error _ => return false

/-- Everything below a directory, in path order; what is no directory stands alone. -/
def entriesBelow (dir : Path) : IO (List Path) := do
  let place ← IO.FS.realPath dir.text
  if !(← place.isDir) then return [dir]
  let entries ← place.walkDir
  let slash := if dir.text.endsWith "/" then "" else "/"
  let root := place.toString.length + 1
  return sortPaths (entries.toList.map fun entry =>
    ⟨dir.text ++ slash ++ String.ofList (entry.toString.toList.drop root)⟩)

/-- The Python sources below a directory, in path order. -/
def sourcesBelow (dir : Path) : IO (Except IoError (List Path)) := do
  match ← attempt (entriesBelow dir) with
  | .error (.system cause) => return .error (.listing dir cause)
  | .error e => return .error e
  | .ok entries =>
    return .ok (← (entries.filter isPythonSource).filterM fun path => do
      return !(← isDirectory path))

/-- The machine as a host of the program. -/
def host : Host IO where
  files := {
    present := isPresent
    isDirectory := isDirectory
    read := fun path => attempt (IO.FS.readFile path.text)
    sources := sourcesBelow }
  input := do (← IO.getStdin).readToEnd

/-- Prints how a program ends. -/
def report : Outcome → IO Unit
  | .printed text => do
    IO.eprint text.remarks
    IO.print text.output
  | .failed failure => IO.eprint (failure.remark ++ "\nError: " ++ failure.message ++ "\n\n")
  | .stopped stop => do
    IO.eprint stop.printed.remarks
    IO.print stop.printed.output

end Machine
end Lineage

/-- Runs the program on the machine. -/
def main (args : List String) : IO UInt32 := do
  let outcome ← Lineage.Command.run Lineage.Machine.host args
  Lineage.Machine.report outcome
  return outcome.code.toUInt32
