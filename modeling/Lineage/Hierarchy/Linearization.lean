/-
# Linearization

The ancestors of a class in resolution order.  The orders of its bases and the
list of its bases are merged; if they contradict each other, the order falls back
to the last occurrence of each class.  Both put a class before its own bases.

A base that is being linearized already closes a cycle: it is dropped and
reported.  A class below the longest chain followed is taken without its bases and
reported.  What was found without any such report does not depend on the way to
the class, and is kept for the next time.
-/

import Lineage.Hierarchy.Context
import Lineage.Hierarchy.Merge
import Lineage.Hierarchy.Resolver

namespace Lineage
namespace Hierarchy

/-- What is wrong with a hierarchy.  Classes go by their qualified names. -/
inductive Diagnostic where
  /-- The classes along a cycle, the first one again at the end. -/
  | cyclic (cycle : List String)
  | inconsistent (name : String) (bases : List String)
  | tooDeep (name : String) (limit : Nat)
deriving DecidableEq, Repr

namespace Diagnostic

/-- The class that a diagnostic is reported on. -/
def reportedOn : Diagnostic → String
  | .cyclic cycle => cycle.head?.getD ""
  | .inconsistent name _ => name
  | .tooDeep name _ => name

/-- The message of a diagnostic. -/
def message : Diagnostic → String
  | .cyclic cycle => "Cyclic inheritance: " ++ " -> ".intercalate cycle
  | .inconsistent name bases =>
    "Cannot create a consistent method resolution order for " ++ name ++ " (bases "
      ++ ", ".intercalate bases ++ ")"
  | .tooDeep name limit =>
    "Inheritance chain of " ++ name ++ " exceeds " ++ limit.repr ++ " levels"

end Diagnostic

/-- The bases of classes, as a graph. -/
structure BaseGraph where
  /-- The direct bases of a class, in order. -/
  bases : ClassId → List ClassId
  /-- The qualified name of a class. -/
  nameOf : ClassId → String

/-- The resolved bases of a class in declaration order, each once; bases that are not
in the index are left out. -/
def superClasses (index : ClassIndex) (resolver : Resolver) (id : ClassId) : List ClassId :=
  match index.get? id with
  | none => []
  | some d =>
    (d.bases.filterMap (resolver index d)).foldl
      (fun found base =>
        if (index.get? base).isSome && !found.contains base then found ++ [base] else found) []

/-- The graph of an index under a resolver. -/
def ClassIndex.graph (index : ClassIndex) (resolver : Resolver) : BaseGraph where
  bases := superClasses index resolver
  nameOf id := ((index.get? id).map (·.qualifiedName)).getD ""

/-- What is carried along a walk through the bases. -/
structure Walk where
  /-- The orders that do not depend on the way to a class. -/
  known : List (ClassId × List ClassId)
  diagnostics : List Diagnostic
  /-- The number of reports that make an order depend on the way. -/
  unstable : Nat
deriving Repr

namespace Walk

/-- Before the first class. -/
def start : Walk := ⟨[], [], 0⟩

/-- One more diagnostic, unless it has been reported. -/
def report (w : Walk) (d : Diagnostic) : Walk :=
  if w.diagnostics.contains d then w else { w with diagnostics := w.diagnostics ++ [d] }

/-- A diagnostic that makes the orders in progress depend on the way. -/
def reportUnstable (w : Walk) (d : Diagnostic) : Walk :=
  { w.report d with unstable := w.unstable + 1 }

/-- An order kept for the next time. -/
def keep (w : Walk) (id : ClassId) (order : List ClassId) : Walk :=
  { w with known := (id, order) :: w.known }

end Walk

namespace BaseGraph

variable (g : BaseGraph)

/-- The bases that close no cycle, when the classes on `way` are in progress, the
first one at the head. -/
def openBases (way : List ClassId) : List ClassId → Walk → List ClassId × Walk
  | [], w => ([], w)
  | base :: rest, w =>
    if way.contains base then
      let cycle := way.dropWhile (· ≠ base) ++ [base]
      openBases way rest (w.reportUnstable (.cyclic (cycle.map g.nameOf)))
    else
      let (bases, w') := openBases way rest w
      (base :: bases, w')

/-- One order after another. -/
def orders (visit : ClassId → Walk → List ClassId × Walk) :
    List ClassId → Walk → List (List ClassId) × Walk
  | [], w => ([], w)
  | base :: rest, w =>
    let (order, w') := visit base w
    let (others, w'') := orders visit rest w'
    (order :: others, w'')

/-- The merged orders of the bases of a class. -/
def mergeBases (id : ClassId) (bases : List ClassId) (baseOrders : List (List ClassId)) (w : Walk) :
    List ClassId × Walk :=
  match c3Merge (baseOrders ++ [bases]) with
  | some merged => (merged, w)
  | none =>
    (keepLast baseOrders.flatten, w.report (.inconsistent (g.nameOf id) (bases.map g.nameOf)))

/-- The order of a class, itself first.  `left` more levels may be entered, and the
classes on `way` are in progress. -/
def visit (limit : Nat) : (left : Nat) → (way : List ClassId) → ClassId → Walk →
    List ClassId × Walk
  | left, way, id, w =>
    match w.known.lookup id with
    | some order => (order, w)
    | none =>
      match left with
      | 0 => ([id], w.reportUnstable (.tooDeep (g.nameOf id) limit))
      | n + 1 =>
        let way := way ++ [id]
        let (bases, w₁) := g.openBases way (g.bases id) w
        let (baseOrders, w₂) := orders (visit limit n way) bases w₁
        let (merged, w₃) := g.mergeBases id bases baseOrders w₂
        let order := id :: merged
        (order, if w₃.unstable = w.unstable then w₃.keep id order else w₃)

/-- The ancestors of a class, and what is wrong with them. -/
structure Linearization where
  ancestors : List ClassId
  diagnostics : List Diagnostic
deriving DecidableEq, Repr

/-- The ancestors of a class in resolution order, following chains of at most
`maxDepth` classes. -/
def linearize (maxDepth : Nat) (id : ClassId) : Linearization :=
  let (order, w) := g.visit maxDepth maxDepth [] id .start
  ⟨order.drop 1, w.diagnostics⟩

end BaseGraph
end Hierarchy
end Lineage
