/-
# Nodes and options as JSON

A node is an object whose field `type` names its kind; it may also be read from a
list of its kind and its other fields in order.  The options are an object whose
fields may be absent, or a list of their values in order.
-/

import Lineage.Markup.Escape
import Lineage.Markup.Node
import Lineage.Json.Structure

namespace Lineage
namespace Markup

namespace Node

/-- A node as an object. -/
def toJson : Node → Json
  | .text value => .object [("type", .text "text"), ("value", .text value)]
  | .reference char written =>
    .object [("type", .text "charRef"), ("ch", .text char.toString),
      ("reference", .text written)]
  | .cdata value => .object [("type", .text "cData"), ("value", .text value)]

/-- The names of the fields of a node of that kind. -/
def fieldNames? : String → Option (List String)
  | "text" => some ["value"]
  | "charRef" => some ["ch", "reference"]
  | "cData" => some ["value"]
  | _ => none

/-- The kind of a node and its fields, in an object or in the list that begins with
the kind. -/
def fields? : Json → Option (String × Json)
  | .list (kind :: values) => do
    let kind ← kind.asText?
    let names ← fieldNames? kind
    if names.length = values.length then some (kind, .object (names.zip values)) else none
  | j => return (← j.required? "type" Json.asText?, j)

/-- Reads a node. -/
def ofJson? (j : Json) : Option Node := do
  let (kind, fields) ← fields? j
  match kind with
  | "text" => return .text (← fields.required? "value" Json.asText?)
  | "charRef" =>
    return .reference (← fields.required? "ch" Json.asChar?)
      (← fields.required? "reference" Json.asText?)
  | "cData" => return .cdata (← fields.required? "value" Json.asText?)
  | _ => none

end Node

/-- The mode of that name. -/
def EncodeMode.ofTag? : String → Option EncodeMode
  | "entities" => some .entities
  | "cdata" => some .cdata
  | _ => none

/-- Reads the options of the encoder. -/
def EncodeOptions.ofJson? (j : Json) : Option EncodeOptions := do
  let fields ← j.members? ["mode", "escapeNonAscii", "extraEscapes"]
  let mode ← Json.memberOr? fields "mode" (Json.asVariant? EncodeMode.ofTag?) .entities
  let escapeNonAscii ← Json.memberOr? fields "escapeNonAscii" Json.asBool? false
  let extraEscapes ← Json.memberOr? fields "extraEscapes" (Json.asListOf? Json.asChar?) []
  return ⟨mode, escapeNonAscii, extraEscapes⟩

end Markup
end Lineage
