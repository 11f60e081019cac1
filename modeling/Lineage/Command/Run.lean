/-
# Running a command

A command reads its configuration, then its input, and prints.  What it asks of the
machine is a parameter, so that the same program runs on files in memory.
-/

import Lineage.Command.Classes
import Lineage.Command.Encode
import Lineage.Hierarchy.Load

namespace Lineage
namespace Command

open Files Hierarchy

/-- What a program asks of the machine. -/
structure Host (m : Type → Type) where
  files : FileSystem m
  /-- The standard input. -/
  input : m String

/-- How a program ends. -/
inductive Outcome where
  | printed (text : Printed)
  | failed (failure : Failure)
  | stopped (stop : Stop)
deriving DecidableEq, Repr

/-- The exit code of a program. -/
def Outcome.code : Outcome → Nat
  | .printed _ => 0
  | .failed _ => 1
  | .stopped .usage => 2
  | .stopped _ => 0

/-- The name and the version of the program. -/
def versionLine : String := "psikit 0.1.0\n"

/-- How the program is used. -/
def usageText : String :=
  "psikit - markup text encoding and Python class inspection\n\n"
    ++ "Usage: psikit encode [TEXT] [-f FILE] [-m MODE] [--non-ascii] [--json] [-v]\n"
    ++ "       psikit classes PATH [-m MODULE] [-c CLASS] [--py2] [--json]\n"

/-- What is printed where arguments are not carried out. -/
def Stop.printed : Stop → Printed
  | .usage => ⟨"", usageText⟩
  | .help => ⟨usageText, ""⟩
  | .version => ⟨versionLine, ""⟩

variable {m : Type → Type} [Monad m]

/-- The configuration of the working directory. -/
def loadConfig (files : FileSystem m) : ExceptT Failure m Config := do
  let path : Path := ⟨Config.fileName⟩
  if !(← files.present path) then return .default
  match ← files.read path with
  | .error e => throw (.unreadableConfig e)
  | .ok text =>
    match Config.read? text with
    | some config => return config
    | none => throw .malformedConfig

/-- The text to encode. -/
def inputText (host : Host m) (a : EncodeArguments) : ExceptT Failure m String := do
  match a.text, a.file with
  | some text, _ => return text
  | none, some path =>
    match ← host.files.read path with
    | .ok text => return text
    | .error e => throw (.unreadable path e)
  | none, none => host.input

/-- Runs `encode`. -/
def runEncode (host : Host m) (a : EncodeArguments) : ExceptT Failure m Printed := do
  let config ← loadConfig host.files
  let options ← ExceptT.mk (pure (encodeOptions a config.encode))
  return printEncoded a options (← inputText host a)

/-- The failure that an error of loading is. -/
def loadFailure : LoadError → Failure
  | .parse path error =>
    .unparsed path (path ++ ": " ++ error.message ++ " (" ++ error.label ++ ")")
  | .io cause => .loading cause
  | .defect path _ => .unparsed path path

/-- The index of the builtin classes and those of the sources at a path. -/
def loadClasses (files : FileSystem m) (path : Path) : ExceptT Failure m ClassIndex :=
  ExceptT.mk do
    match ← ClassIndex.withBuiltins.loadPath files path with
    | (index, .ok _) => return .ok index
    | (_, .error e) => return .error (loadFailure e)

/-- Runs `classes`. -/
def runClasses (host : Host m) (a : ClassesArguments) : ExceptT Failure m Printed := do
  let config ← loadConfig host.files
  let context := if a.python2 || config.languageLevel == .python2 then Context.python2
    else Context.python3
  if !(← host.files.present a.path) then throw (.noSuchPath a.path)
  let index ← loadClasses host.files a.path
  let resolver := Resolver.names (← host.files.isDirectory a.path)
  return ⟨printSummaries a.json index.modules.length (summaries a index resolver context), ""⟩

/-- Runs a command. -/
def runInvocation (host : Host m) : Invocation → ExceptT Failure m Printed
  | .encode a => runEncode host a
  | .classes a => runClasses host a

/-- Runs the program. -/
def run (host : Host m) (arguments : List String) : m Outcome := do
  match readInvocation arguments with
  | .error stop => return .stopped stop
  | .ok invocation =>
    match ← (runInvocation host invocation).run with
    | .ok printed => return .printed printed
    | .error failure => return .failed failure

end Command
end Lineage
