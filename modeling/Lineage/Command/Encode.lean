/-
# The command `encode`

Encodes a text, from the arguments, a file or the standard input, and prints it as
markup or as its nodes.
-/

import Lineage.Command.Arguments
import Lineage.Command.Config
import Lineage.Command.Failure
import Lineage.Json.Printer
import Lineage.Markup.Encode

namespace Lineage
namespace Command

open Markup

/-- What a command prints. -/
structure Printed where
  output : String
  remarks : String
deriving DecidableEq, Repr

/-- The options of the configuration, as the arguments change them. -/
def encodeOptions (a : EncodeArguments) (configured : EncodeOptions) :
    Except Failure EncodeOptions := do
  let mode ← match a.mode with
    | none => pure configured.mode
    | some name =>
      match EncodeMode.ofTag? name with
      | some mode => pure mode
      | none => throw (.invalidMode name)
  return { configured with mode := mode, escapeNonAscii := configured.escapeNonAscii || a.nonAscii }

/-- The label of a node in the breakdown. -/
def nodeLabel : Node → String
  | .text _ => "text"
  | .reference .. => "ref "
  | .cdata _ => "cdata"

/-- The breakdown of the nodes, one after another. -/
def breakdown (nodes : List Node) : String :=
  String.join (nodes.map fun n => "  " ++ nodeLabel n ++ " " ++ n.markup ++ "\n")

/-- What is printed for a text: its markup, on a line of its own, or its nodes. -/
def printEncoded (a : EncodeArguments) (o : EncodeOptions) (text : String) : Printed :=
  let f := encode o text
  { output :=
      if a.json then (Json.ofList Node.toJson f.nodes).pretty ++ "\n"
      else f.markup ++ (if text.endsWith "\n" then "" else "\n")
    remarks := if a.verbose then breakdown f.nodes else "" }

end Command
end Lineage
