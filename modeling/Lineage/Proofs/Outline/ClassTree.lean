/-
# Classes in order

A class comes before the classes in its body, and these in the order they stand in
(`preorder`).  What is shown of a class from the classes in its body holds of every
class (`forest_induction`).
-/

import Lineage.Outline.Syntax

namespace Lineage
namespace Outline

mutual

/-- A class and those in its body, at any depth, in the order they begin. -/
def ClassOutline.preorder : ClassOutline → List ClassOutline
  | ⟨name, bases, keywords, decorators, doc, methods, bindings, classes, span⟩ =>
    ⟨name, bases, keywords, decorators, doc, methods, bindings, classes, span⟩ ::
      preorderAll classes

/-- The classes side by side, each with those in its body. -/
def preorderAll : List ClassOutline → List ClassOutline
  | [] => []
  | c :: cs => c.preorder ++ preorderAll cs

end

variable {c k : ClassOutline} {cs ks : List ClassOutline}

/-- The classes of a class are itself and those in its body. -/
theorem preorder_eq (c : ClassOutline) : c.preorder = c :: preorderAll c.classes := by
  cases c
  rfl

/-- Without classes there is none at any depth. -/
@[simp] theorem preorderAll_nil : preorderAll [] = [] := rfl

/-- The classes side by side, with those in them, are those of the first one, then the others. -/
@[simp] theorem preorderAll_cons (c : ClassOutline) (cs : List ClassOutline) :
    preorderAll (c :: cs) = c.preorder ++ preorderAll cs := rfl

mutual

/-- Classes and lists of classes are made from the inside out. -/
private theorem of_body {P : ClassOutline → Prop} {Q : List ClassOutline → Prop}
    (body : ∀ c : ClassOutline, Q c.classes → P c) (nil : Q [])
    (cons : ∀ c cs, P c → Q cs → Q (c :: cs)) : ∀ c, P c
  | ⟨_, _, _, _, _, _, _, classes, _⟩ => body _ (of_parts body nil cons classes)

/-- What a body hands to its class, and classes hand to a list of them, holds of all lists. -/
private theorem of_parts {P : ClassOutline → Prop} {Q : List ClassOutline → Prop}
    (body : ∀ c : ClassOutline, Q c.classes → P c) (nil : Q [])
    (cons : ∀ c cs, P c → Q cs → Q (c :: cs)) : ∀ cs, Q cs
  | [] => nil
  | c :: cs => cons c cs (of_body body nil cons c) (of_parts body nil cons cs)

end

/-- Induction over classes and lists of them. -/
theorem forest_induction {P : ClassOutline → Prop} {Q : List ClassOutline → Prop}
    (body : ∀ c : ClassOutline, Q c.classes → P c) (nil : Q [])
    (cons : ∀ c cs, P c → Q cs → Q (c :: cs)) : (∀ c, P c) ∧ ∀ cs, Q cs :=
  ⟨of_body body nil cons, of_parts body nil cons⟩

/-- A class is itself, or one in its body. -/
theorem mem_preorder : k ∈ c.preorder ↔ k = c ∨ k ∈ preorderAll c.classes := by
  rw [preorder_eq, List.mem_cons]

/-- Classes behind each other have those of both parts in them. -/
theorem preorderAll_append (cs cs' : List ClassOutline) :
    preorderAll (cs ++ cs') = preorderAll cs ++ preorderAll cs' := by
  induction cs with
  | nil => rfl
  | cons c cs ih => rw [List.cons_append, preorderAll_cons, ih, preorderAll_cons, List.append_assoc]

/-- A single class has those in it. -/
theorem preorderAll_singleton (c : ClassOutline) : preorderAll [c] = c.preorder :=
  List.append_nil _

end Outline
end Lineage
