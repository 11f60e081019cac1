/-
# Decoding markup

`decode` reads markup text: plain characters, references and sections.  Anything
else that starts with `&` or `<` is an error at its byte offset.
-/

import Lineage.Markup.Node
import Lineage.Text.Bytes

namespace Lineage
namespace Markup

open Text

/-- Why markup is refused, and at which byte. -/
inductive MarkupError where
  | unknownReference (reference : String) (offset : Nat)
  | unterminatedSection (offset : Nat)
  | unescaped (c : Char) (offset : Nat)
deriving DecidableEq, Repr

/-- The message of an error. -/
def MarkupError.message : MarkupError → String
  | .unknownReference reference offset =>
    "Unknown character reference " ++ reference ++ " at " ++ offset.repr
  | .unterminatedSection offset => "Unterminated CDATA section at " ++ offset.repr
  | .unescaped c offset => "Unescaped '" ++ c.toString ++ "' at " ++ offset.repr

/-- The item at the start of a text: what it stands for, and the characters that it
takes besides the first one. -/
def item (offset : Nat) (c : Char) (cs : List Char) : Except MarkupError (List Char × Nat) :=
  match after? cdataOpen.toList (c :: cs) with
  | some inner =>
    match breakAt? cdataClose.toList inner with
    | some (body, _) => .ok (body, cdataOpen.length + body.length + cdataClose.length - 1)
    | none => .error (.unterminatedSection offset)
  | none =>
    if c = '&' then
      match breakAt? [';'] cs with
      | some (body, _) =>
        match referenceBody? body with
        | some ch => .ok ([ch], body.length + 1)
        | none => .error (.unknownReference (String.ofList (c :: body ++ [';'])) offset)
      | none => .error (.unknownReference (String.ofList (c :: cs)) offset)
    else if c = '<' then .error (.unescaped c offset)
    else .ok ([c], 0)

/-- The text that markup from `offset` on stands for, its first `pending` characters
being read already. -/
def decodeFrom (pending offset : Nat) : List Char → Except MarkupError (List Char)
  | [] => .ok []
  | c :: cs =>
    match pending with
    | n + 1 => decodeFrom n (offset + c.utf8Size) cs
    | 0 =>
      match item offset c cs with
      | .error e => .error e
      | .ok (out, n) =>
        match decodeFrom n (offset + c.utf8Size) cs with
        | .error e => .error e
        | .ok rest => .ok (out ++ rest)

/-- The text that markup stands for. -/
def decode (markup : String) : Except MarkupError String :=
  match decodeFrom 0 0 markup.toList with
  | .error e => .error e
  | .ok cs => .ok (String.ofList cs)

end Markup
end Lineage
