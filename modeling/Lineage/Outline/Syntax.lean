/-
# The class outline of a module

What is kept of a source: its classes and functions with their headers,
documentation and bindings.  An expression is kept as far as class analysis needs
it, and as text beyond that.
-/

namespace Lineage
namespace Outline

/-- A stretch of the source, in bytes, with its identity. -/
structure Span where
  start : Nat
  stop : Nat
  id : String
deriving DecidableEq, Repr, Inhabited

/-- How an argument is unpacked: not at all, by one star or by two. -/
inductive Unpacking where
  | none
  | iterable
  | mapping
deriving DecidableEq, Repr, Inhabited

/-- An argument of a call or of a class header. -/
structure Argument (ε : Type) where
  name : Option String
  value : ε
  unpacking : Unpacking
deriving Repr, Inhabited

/-- An expression. -/
inductive Expression where
  | name (id : String) (span : Span)
  | member (value : Expression) (field : String) (span : Span)
  | call (function : Expression) (arguments : List (Argument Expression)) (span : Span)
  | subscript (value : Expression) (slice : String) (span : Span)
  | string (value : String) (span : Span)
  | number (value : String) (span : Span)
  | tuple (elements : List Expression) (span : Span)
  | list (elements : List Expression) (span : Span)
  /-- Anything else, as it stands in the source. -/
  | other (text : String) (span : Span)
deriving Repr, Inhabited

/-- How a parameter takes its arguments. -/
inductive ParameterKind where
  | positional
  | variadic
  | keywordOnly
  | variadicKeyword
deriving DecidableEq, Repr, Inhabited

/-- A parameter of a function. -/
structure Parameter where
  name : String
  kind : ParameterKind
  typeHint : Option Expression
  default : Option Expression
deriving Repr, Inhabited

/-- A decorator line. -/
structure Decorator where
  expression : Expression
  span : Span
deriving Repr, Inhabited

/-- A name bound in a class body, or an attribute bound on a receiver. -/
structure Binding where
  target : String
  value : Option Expression
  typeHint : Option Expression
  span : Span
deriving Repr, Inhabited

/-- A function or method. -/
structure FunctionOutline where
  name : String
  parameters : List Parameter
  decorators : List Decorator
  returns : Option Expression
  doc : Option String
  isAsync : Bool
  /-- The attributes that the body binds on its first parameter. -/
  receiverBindings : List Binding
  span : Span
deriving Repr, Inhabited

/-- A class: the positional arguments of its header are its bases. -/
structure ClassOutline where
  name : String
  bases : List Expression
  keywords : List (Argument Expression)
  decorators : List Decorator
  doc : Option String
  methods : List FunctionOutline
  bindings : List Binding
  classes : List ClassOutline
  span : Span
deriving Repr, Inhabited

/-- A module. -/
structure ModuleOutline where
  doc : Option String
  classes : List ClassOutline
  functions : List FunctionOutline
  span : Span
deriving Repr, Inhabited

/-- The name of the first parameter, if it is positional: the receiver of a method. -/
def receiverName? : List Parameter → Option String
  | [] => none
  | p :: _ => if p.kind = .positional then some p.name else none

end Outline
end Lineage
