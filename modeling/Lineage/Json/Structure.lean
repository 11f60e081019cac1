/-
# Structures and variants in JSON

A structure with optional members is written as an object, or as the list of its
members in order.  A repeated member is refused, an unknown one is passed over.  A
variant without content is its name, or an object with that name and `null`.
-/

import Lineage.Json.Value

namespace Lineage
namespace Json

/-- No two fields have the same name among `names`. -/
def distinctFields (names : List String) (fields : List (String × Json)) : Bool :=
  names.all fun n => (fields.filter (·.1 == n)).length ≤ 1

/-- The members of a structure whose members are `names`; those present only. -/
def members? (names : List String) : Json → Option (List (String × Json))
  | .object fields =>
    if distinctFields names fields then some (fields.filter fun f => names.contains f.1) else none
  | .list items => if items.length ≤ names.length then some (names.zip items) else none
  | _ => none

/-- The member of that name, or `absent` if there is none. -/
def memberOr? {α : Type} (members : List (String × Json)) (name : String)
    (read : Json → Option α) (absent : α) : Option α :=
  match members.lookup name with
  | some j => read j
  | none => some absent

/-- Reads a variant without content. -/
def asVariant? {α : Type} (ofTag? : String → Option α) : Json → Option α
  | .text name => ofTag? name
  | .object [(name, .null)] => ofTag? name
  | _ => none

end Json
end Lineage
