/-
# Fragments

A fragment collects the nodes of one or more payloads.  Equal payloads of its
plain runs and sections are kept once, in a table in the order of their first
use.
-/

import Lineage.Markup.Node

namespace Lineage
namespace Markup

/-- Distinct texts in the order of their first use. -/
structure TextTable where
  entries : List String
deriving DecidableEq, Repr

namespace TextTable

/-- The table without entries. -/
def empty : TextTable := ⟨[]⟩

/-- The table with a text among its entries. -/
def intern (t : TextTable) (text : String) : TextTable :=
  if t.entries.contains text then t else ⟨t.entries ++ [text]⟩

/-- The table with the payload of a node among its entries. -/
def internPayload (t : TextTable) (n : Node) : TextTable :=
  match n.payload? with
  | some text => t.intern text
  | none => t

/-- The number of distinct texts. -/
def size (t : TextTable) : Nat := t.entries.length

/-- Interning adds the text to the table, and nothing else. -/
theorem mem_intern {t : TextTable} {text s : String} :
    s ∈ (t.intern text).entries ↔ s ∈ t.entries ∨ s = text := by
  unfold intern
  split
  · rename_i h
    constructor
    · exact Or.inl
    · rintro (h' | rfl)
      · exact h'
      · simpa using h
  · simp

end TextTable

/-- A plain run as nodes: an empty one is none. -/
def runNodes (text : String) : List Node := if text.isEmpty then [] else [.text text]

/-- The reference to a character. -/
def referenceTo (c : Char) : Node := .reference c (charReference c)

/-- Nodes, with the table of their payloads. -/
structure Fragment where
  nodes : List Node
  table : TextTable
deriving DecidableEq, Repr

namespace Fragment

/-- The fragment without nodes. -/
def empty : Fragment := ⟨[], .empty⟩

/-- More nodes at the end. -/
def append (f : Fragment) (nodes : List Node) : Fragment :=
  ⟨f.nodes ++ nodes, nodes.foldl TextTable.internPayload f.table⟩

/-- A plain run; an empty one is no node. -/
def pushText (f : Fragment) (text : String) : Fragment := f.append (runNodes text)

/-- A reference to a character. -/
def pushReference (f : Fragment) (c : Char) : Fragment := f.append [referenceTo c]

/-- A section. -/
def pushSection (f : Fragment) (text : String) : Fragment := f.append [.cdata text]

/-- The nodes as markup. -/
def markup (f : Fragment) : String := markupAll f.nodes

/-- The text that the fragment encodes. -/
def decode (f : Fragment) : String := decodeNodes f.nodes

end Fragment
end Markup
end Lineage
