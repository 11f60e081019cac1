/-
# Walking an outline

The definitions of a module in the order of a walk: the classes, each with its
methods and then its own classes, and after them the functions.
-/

import Lineage.Outline.Syntax

namespace Lineage
namespace Outline

/-- A step of a walk. -/
inductive WalkEvent where
  | module
  | enterClass (name : String)
  | leaveClass (name : String)
  | function (name : String)
deriving DecidableEq, Repr

mutual

/-- The walk through a class. -/
def ClassOutline.walk : ClassOutline → List WalkEvent
  | ⟨name, _, _, _, _, methods, _, classes, _⟩ =>
    .enterClass name :: methods.map (.function ·.name) ++ ClassOutline.walkAll classes
      ++ [.leaveClass name]

/-- The walk through classes. -/
def ClassOutline.walkAll : List ClassOutline → List WalkEvent
  | [] => []
  | c :: cs => c.walk ++ ClassOutline.walkAll cs

end

/-- The walk through a module. -/
def ModuleOutline.walk (m : ModuleOutline) : List WalkEvent :=
  .module :: ClassOutline.walkAll m.classes ++ m.functions.map (.function ·.name)

/-- The name of the function that a step visits. -/
def WalkEvent.function? : WalkEvent → Option String
  | .function name => some name
  | _ => none

/-- The names of all functions and methods, in the order of the walk. -/
def ModuleOutline.functionNames (m : ModuleOutline) : List String :=
  m.walk.filterMap WalkEvent.function?

end Outline
end Lineage
