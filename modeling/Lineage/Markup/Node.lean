/-
# Nodes of encoded text

Encoded text is a row of nodes: plain runs, references to one character, and
sections whose content needs no escaping.
-/

import Lineage.Markup.Entity

namespace Lineage
namespace Markup

/-- A node of encoded text. -/
inductive Node where
  /-- A plain run. -/
  | text (value : String)
  /-- An escaped character and its reference. -/
  | reference (char : Char) (reference : String)
  /-- A CDATA section. -/
  | cdata (value : String)
deriving DecidableEq, Repr

/-- What opens a section. -/
def cdataOpen : String := "<![CDATA["

/-- What closes a section. -/
def cdataClose : String := "]]>"

namespace Node

/-- The node as markup. -/
def markup : Node → String
  | .text value => value
  | .reference _ written => written
  | .cdata value => cdataOpen ++ value ++ cdataClose

/-- The text that the node stands for.  A reference that names no character stands
for the character it was made for. -/
def decoded : Node → String
  | .text value => value
  | .reference char written => ((decodeReference? written).getD char).toString
  | .cdata value => value

/-- The node is a plain run. -/
def isText : Node → Bool
  | .text _ => true
  | _ => false

/-- The node is a reference. -/
def isReference : Node → Bool
  | .reference .. => true
  | _ => false

/-- The reference that the node is. -/
def reference? : Node → Option String
  | .reference _ written => some written
  | _ => none

/-- The payload that the node shares with equal ones. -/
def payload? : Node → Option String
  | .text value => some value
  | .cdata value => some value
  | .reference .. => none

end Node

/-- The nodes as markup. -/
def markupAll (nodes : List Node) : String := String.join (nodes.map Node.markup)

/-- The text that the nodes stand for. -/
def decodeNodes (nodes : List Node) : String := String.join (nodes.map Node.decoded)

end Markup
end Lineage
