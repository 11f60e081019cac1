/-
# Command-line arguments

A command has flags, options with a value, and positional arguments.  A long name
follows two dashes, its value an equals sign or comes next; short names follow one
dash, several flags at once, the value of an option attached or next.  After `--`
all arguments are positional, and a lone dash always is.  Nothing may be given
twice, a path must not be empty, and a value that comes next must not look like an
option.
-/

import Lineage.Files.Path

namespace Lineage
namespace Command

/-- What follows the name of an argument. -/
inductive ValueKind where
  /-- Nothing: a flag. -/
  | flag
  | text
  | path
deriving DecidableEq, Repr

/-- A flag, an option with a value, or a positional argument. -/
structure ArgumentSpec where
  long : String
  short : Option Char
  kind : ValueKind
deriving DecidableEq, Repr

/-- The argument has a value. -/
def ArgumentSpec.takesValue (spec : ArgumentSpec) : Bool := spec.kind != .flag

/-- Why the arguments are not carried out. -/
inductive Stop where
  /-- They are not understood. -/
  | usage
  /-- They ask for help. -/
  | help
  /-- They ask for the version. -/
  | version
deriving DecidableEq, Repr

/-- What has been given: flags with an empty value, options with theirs, and under the
empty name the positional argument. -/
abbrev Given : Type := List (String × String)

/-- The arguments that a command takes: those with a name, and a positional one, which
goes by the empty name. -/
structure CommandSpec where
  named : List ArgumentSpec
  positional : ArgumentSpec
deriving DecidableEq, Repr

/-- A positional argument. -/
def positional (kind : ValueKind) : ArgumentSpec := ⟨"", none, kind⟩

/-- One more argument, which must not have been given and must not be an empty path. -/
def addGiven (given : Given) (spec : ArgumentSpec) (value : String) : Except Stop Given :=
  if (given.lookup spec.long).isSome || (spec.kind == .path && value.isEmpty) then .error .usage
  else .ok (given ++ [(spec.long, value)])

/-- The argument looks like an option. -/
def looksLikeOption (argument : String) : Bool :=
  match argument.toList with
  | '-' :: _ :: _ => true
  | _ => false

/-- A text parted at its first equals sign. -/
def splitEquals (cs : List Char) : List Char × Option (List Char) :=
  match cs.dropWhile (· != '=') with
  | [] => (cs, none)
  | _ :: value => (cs.takeWhile (· != '='), some value)

/-- The short names after a dash.  The second part of the answer is an option whose
value comes next. -/
def shortNames (specs : List ArgumentSpec) (given : Given) :
    List Char → Except Stop (Given × Option ArgumentSpec)
  | [] => .ok (given, none)
  | c :: cs =>
    match specs.find? (·.short == some c) with
    | some spec =>
      if spec.takesValue then
        match cs with
        | [] => .ok (given, some spec)
        | '=' :: value => (addGiven given spec (String.ofList value)).map (·, none)
        | value => (addGiven given spec (String.ofList value)).map (·, none)
      else
        match addGiven given spec "" with
        | .ok given => shortNames specs given cs
        | .error e => .error e
    | none => .error (if c = 'h' then .help else .usage)

/-- A long name after two dashes, with its value if that is attached. -/
def longName (specs : List ArgumentSpec) (given : Given) (cs : List Char) :
    Except Stop (Given × Option ArgumentSpec) :=
  let (name, value) := splitEquals cs
  match specs.find? (·.long.toList == name), value with
  | some spec, some value =>
    if spec.takesValue then (addGiven given spec (String.ofList value)).map (·, none)
    else .error .usage
  | some spec, none =>
    if spec.takesValue then .ok (given, some spec)
    else (addGiven given spec "").map (·, none)
  | none, none => .error (if name = "help".toList then .help else .usage)
  | none, some _ => .error .usage

/-- What an option-like argument gives. -/
def namedArgument (specs : List ArgumentSpec) (given : Given) :
    List Char → Except Stop (Given × Option ArgumentSpec)
  | '-' :: '-' :: cs => longName specs given cs
  | '-' :: cs => shortNames specs given cs
  | _ => .error .usage

/-- What all arguments give.  `pending` is an option whose value comes next, and with
`plain` every argument is positional. -/
def readArguments (command : CommandSpec) (plain : Bool) (pending : Option ArgumentSpec)
    (given : Given) : List String → Except Stop Given
  | [] => if pending.isSome then .error .usage else .ok given
  | a :: rest =>
    match pending with
    | some spec =>
      if looksLikeOption a then .error .usage
      else
        match addGiven given spec a with
        | .ok given => readArguments command plain none given rest
        | .error e => .error e
    | none =>
      if plain || !looksLikeOption a then
        match addGiven given command.positional a with
        | .ok given => readArguments command plain none given rest
        | .error e => .error e
      else if a = "--" then readArguments command true none given rest
      else
        match namedArgument command.named given a.toList with
        | .ok (given, pending) => readArguments command false pending given rest
        | .error e => .error e

/-! ## The commands -/

/-- The arguments of `encode`. -/
structure EncodeArguments where
  text : Option String
  file : Option Files.Path
  mode : Option String
  nonAscii : Bool
  json : Bool
  verbose : Bool
deriving DecidableEq, Repr

/-- The arguments of `classes`. -/
structure ClassesArguments where
  path : Files.Path
  module : Option String
  className : Option String
  python2 : Bool
  json : Bool
deriving DecidableEq, Repr

/-- A command with its arguments. -/
inductive Invocation where
  | encode (arguments : EncodeArguments)
  | classes (arguments : ClassesArguments)
deriving DecidableEq, Repr

/-- What `encode` takes. -/
def encodeSpec : CommandSpec where
  named := [
    ⟨"file", some 'f', .path⟩, ⟨"mode", some 'm', .text⟩, ⟨"non-ascii", none, .flag⟩,
    ⟨"json", none, .flag⟩, ⟨"verbose", some 'v', .flag⟩]
  positional := positional .text

/-- What `classes` takes. -/
def classesSpec : CommandSpec where
  named := [
    ⟨"module", some 'm', .text⟩, ⟨"class", some 'c', .text⟩, ⟨"py2", none, .flag⟩,
    ⟨"json", none, .flag⟩]
  positional := positional .path

/-- The arguments of `encode`: a text or a file, not both. -/
def encodeArguments (given : Given) : Except Stop EncodeArguments := do
  let text := given.lookup ""
  let file := (given.lookup "file").map Files.Path.mk
  if text.isSome && file.isSome then .error .usage
  return ⟨text, file, given.lookup "mode", (given.lookup "non-ascii").isSome,
    (given.lookup "json").isSome, (given.lookup "verbose").isSome⟩

/-- The arguments of `classes`: the path must be given. -/
def classesArguments (given : Given) : Except Stop ClassesArguments := do
  match given.lookup "" with
  | none => .error .usage
  | some path =>
    return ⟨⟨path⟩, given.lookup "module", given.lookup "class",
      (given.lookup "py2").isSome, (given.lookup "json").isSome⟩

/-- What short names before any command ask for. -/
def leadingShort : List Char → Stop
  | 'h' :: _ => .help
  | 'V' :: _ => .version
  | _ => .usage

/-- The commands that help can be asked for. -/
def helpTopics : List (List String) := [[], ["encode"], ["classes"], ["help"]]

/-- The command that the arguments call. -/
def readInvocation : List String → Except Stop Invocation
  | "encode" :: rest => do
    return .encode (← encodeArguments (← readArguments encodeSpec false none [] rest))
  | "classes" :: rest => do
    return .classes (← classesArguments (← readArguments classesSpec false none [] rest))
  | "help" :: rest => .error (if helpTopics.contains rest then .help else .usage)
  | "--help" :: _ => .error .help
  | "--version" :: _ => .error .version
  | a :: _ =>
    match a.toList with
    | '-' :: cs => .error (leadingShort cs)
    | _ => .error .usage
  | [] => .error .usage

end Command
end Lineage
