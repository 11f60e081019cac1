/-
# The context of queries

The level of the language, and the longest chain of bases that is followed.
-/

import Lineage.Json.Structure

namespace Lineage
namespace Hierarchy

/-- The level of the language. -/
inductive LanguageLevel where
  | python2
  | python3
deriving DecidableEq, Repr

/-- The context of queries. -/
structure Context where
  languageLevel : LanguageLevel
  maxDepth : Nat
deriving DecidableEq, Repr

namespace LanguageLevel

/-- The name of a level. -/
def tag : LanguageLevel → String
  | .python2 => "python2"
  | .python3 => "python3"

/-- The level of that name. -/
def ofTag? : String → Option LanguageLevel
  | "python2" => some .python2
  | "python3" => some .python3
  | _ => none

end LanguageLevel

namespace Context

/-- The longest chain followed if nothing else is said. -/
def defaultMaxDepth : Nat := 256

/-- Queries at the current level. -/
def python3 : Context := ⟨.python3, defaultMaxDepth⟩

/-- Queries at the old level. -/
def python2 : Context := ⟨.python2, defaultMaxDepth⟩

/-- Reads a context. -/
def ofJson? (j : Json) : Option Context := do
  let fields ← j.members? ["languageLevel", "maxDepth"]
  let level ← Json.memberOr? fields "languageLevel" (Json.asVariant? LanguageLevel.ofTag?) .python3
  let depth ← Json.memberOr? fields "maxDepth" Json.asNatural? defaultMaxDepth
  return ⟨level, depth⟩

/-- A context as an object. -/
def toJson (c : Context) : Json :=
  .object [("languageLevel", .text c.languageLevel.tag), ("maxDepth", .natural c.maxDepth)]

end Context
end Hierarchy
end Lineage
