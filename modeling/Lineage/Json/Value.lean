/-
# JSON values

A value of the data format JSON.  An object keeps its fields in order, a repeated
field included, so that a reader of a structure can refuse it.  Numbers written
as plain digits are naturals; any other number is kept as it is written.  A text
that contains half of a surrogate pair stands for no characters and is
`unreadable`, and so is an object with such a name among those of its fields.
-/

namespace Lineage

/-- A JSON value. -/
inductive Json where
  | null
  | bool (value : Bool)
  | natural (value : Nat)
  | number (text : String)
  | text (value : String)
  | unreadable
  | list (items : List Json)
  | object (fields : List (String × Json))
deriving Repr, Inhabited

namespace Json

/-- An optional value, `null` when absent. -/
def ofOption {α : Type} (write : α → Json) : Option α → Json
  | none => .null
  | some a => write a

/-- A list of values. -/
def ofList {α : Type} (write : α → Json) (items : List α) : Json := .list (items.map write)

/-- A text or `null`. -/
def ofText? (text : Option String) : Json := ofOption .text text

/-- A list of texts. -/
def ofTexts (texts : List String) : Json := ofList .text texts

/-- The values of every field of that name, in order. -/
def fieldAll (name : String) : Json → List Json
  | .object fields => (fields.filter (·.1 == name)).map (·.2)
  | _ => []

/-- The value of the last field of that name. -/
def field? (name : String) (j : Json) : Option Json := (j.fieldAll name).getLast?

/-- The text that the value is. -/
def asText? : Json → Option String
  | .text s => some s
  | _ => none

/-- The natural number that the value is. -/
def asNatural? : Json → Option Nat
  | .natural n => some n
  | _ => none

/-- The truth value that the value is. -/
def asBool? : Json → Option Bool
  | .bool b => some b
  | _ => none

/-- The items of a list. -/
def asList? : Json → Option (List Json)
  | .list items => some items
  | _ => none

/-- Reads every item of a list. -/
def asListOf? {α : Type} (read : Json → Option α) (j : Json) : Option (List α) :=
  j.asList?.bind (·.mapM read)

/-- Reads an optional value, `null` when absent. -/
def asOption? {α : Type} (read : Json → Option α) : Json → Option (Option α)
  | .null => some none
  | j => (read j).map some

/-- Reads the field of that name, which must be there. -/
def required? {α : Type} (name : String) (read : Json → Option α) (j : Json) : Option α :=
  (j.field? name).bind read

/-- Reads the field of that name, which may be absent or `null`. -/
def optional? {α : Type} (name : String) (read : Json → Option α) (j : Json) :
    Option (Option α) :=
  match j.field? name with
  | none => some none
  | some v => v.asOption? read

mutual

/-- The levels of nesting of a value. -/
def depth : Json → Nat
  | .list items => depthList items + 1
  | .object fields => depthFields fields + 1
  | _ => 0

/-- The levels of nesting of the deepest item. -/
def depthList : List Json → Nat
  | [] => 0
  | j :: js => max j.depth (depthList js)

/-- The levels of nesting of the deepest field. -/
def depthFields : List (String × Json) → Nat
  | [] => 0
  | (_, j) :: fields => max j.depth (depthFields fields)

end

/-- A text of exactly one character. -/
def asChar? (j : Json) : Option Char :=
  j.asText?.bind fun s =>
    match s.toList with
    | [c] => some c
    | _ => none

end Json
end Lineage
