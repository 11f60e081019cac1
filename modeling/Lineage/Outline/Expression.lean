/-
# Views of an expression

The text of an expression in a normal form, its dotted name, and the parts of it
that queries ask for.
-/

import Lineage.Outline.Syntax
import Lineage.Text.Quoted

namespace Lineage
namespace Outline

namespace Unpacking

/-- The stars of an argument. -/
def stars : Unpacking → String
  | .none => ""
  | .iterable => "*"
  | .mapping => "**"

end Unpacking

namespace Expression

/-- The stretch of source that the expression takes. -/
def span : Expression → Span
  | .name _ s | .member _ _ s | .call _ _ s | .subscript _ _ s | .string _ s | .number _ s
  | .tuple _ s | .list _ s | .other _ s => s

mutual

/-- The expression in its normal form. -/
def text : Expression → String
  | .name id _ => id
  | .member value field _ => value.text ++ "." ++ field
  | .call function arguments _ =>
    function.text ++ "(" ++ ", ".intercalate (argumentTexts arguments) ++ ")"
  | .subscript value slice _ => value.text ++ "[" ++ slice ++ "]"
  | .string value _ => Text.quoted value
  | .number value _ => value
  | .tuple elements _ =>
    "(" ++ ", ".intercalate (texts elements) ++ (if elements.length = 1 then ",)" else ")")
  | .list elements _ => "[" ++ ", ".intercalate (texts elements) ++ "]"
  | .other text _ => text

/-- The normal forms of expressions. -/
def texts : List Expression → List String
  | [] => []
  | e :: es => e.text :: texts es

/-- The normal forms of arguments. -/
def argumentTexts : List (Argument Expression) → List String
  | [] => []
  | ⟨keyword, value, unpacking⟩ :: rest =>
    (unpacking.stars ++ (match keyword with | some n => n ++ "=" | none => "") ++ value.text)
      :: argumentTexts rest

end

/-- The dotted name of a chain of members of a name. -/
def dottedName? : Expression → Option String
  | .name id _ => some id
  | .member value field _ => value.dottedName?.map (· ++ "." ++ field)
  | _ => none

/-- The value of a string. -/
def stringValue? : Expression → Option String
  | .string value _ => some value
  | _ => none

/-- The expression is that name. -/
def isName (id : String) : Expression → Bool
  | .name n _ => n == id
  | _ => false

/-- The elements of a tuple or list. -/
def elements? : Expression → Option (List Expression)
  | .tuple elements _ => some elements
  | .list elements _ => some elements
  | _ => none

end Expression

namespace Decorator

/-- The dotted name of a decorator, a trailing call aside. -/
def name? (d : Decorator) : Option String :=
  match d.expression with
  | .call function _ _ => function.dottedName?
  | e => e.dottedName?

/-- The arguments of a decorator that is a call. -/
def arguments (d : Decorator) : List (Argument Expression) :=
  match d.expression with
  | .call _ arguments _ => arguments
  | _ => []

end Decorator

/-- The value of the first keyword of that name in a class header. -/
def ClassOutline.keyword? (c : ClassOutline) (name : String) : Option Expression :=
  (c.keywords.find? (·.name == some name)).map (·.value)

end Outline
end Lineage
