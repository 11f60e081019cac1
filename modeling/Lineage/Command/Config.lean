/-
# Configuration

Defaults for the commands, from a file in the working directory.  A file that is
not there stands for no defaults; one that does not say what it should is refused.
-/

import Lineage.Hierarchy.Context
import Lineage.Json.Reader
import Lineage.Markup.Json
import Lineage.Files.System

namespace Lineage
namespace Command

/-- The configuration. -/
structure Config where
  languageLevel : Hierarchy.LanguageLevel
  encode : Markup.EncodeOptions
deriving DecidableEq, Repr

namespace Config

/-- The configuration of a directory without one. -/
def default : Config := ⟨.python3, .default⟩

/-- The name of the configuration file. -/
def fileName : String := "psikit.config.json"

/-- Reads a configuration. -/
def ofJson? (j : Json) : Option Config := do
  let fields ← j.members? ["languageLevel", "encode"]
  let level ← Json.memberOr? fields "languageLevel"
    (Json.asVariant? Hierarchy.LanguageLevel.ofTag?) .python3
  let encode ← Json.memberOr? fields "encode" Markup.EncodeOptions.ofJson? .default
  return ⟨level, encode⟩

/-- The configuration that a text writes. -/
def read? (text : String) : Option Config := (Json.read? text).bind ofJson?

end Config
end Command
end Lineage
