/-
# What an outline should list

The definitions among logical lines: those that begin with `class`, with `def` or with
`async def`.  An outline lists them (`Lists`) if its classes and functions are these lines, in
order and by name, and every class lists the definitions of its own block
(`ClassOutline.Mirrors`).  `Conventional` are the lines of which that is expected, and
`FlatHeader` the class headers without brackets between the parameters of a lambda.
-/

import Lineage.Outline.Syntax
import Lineage.Proofs.Outline.Passing
import Lineage.Proofs.Source.LayoutTree

namespace Lineage
namespace Source

open Outline

/-! ### Lines -/

/-- A token that begins a definition. -/
def Token.isHead (t : Token) : Bool := t == .classKeyword || t == .defKeyword

/-- The tokens that begin definitions are the first of the line, or the second behind
`async`. -/
def keywordsLead : List Token → Bool
  | .asyncKeyword :: .defKeyword :: ts => ts.all (!·.isHead)
  | _ :: ts => ts.all (!·.isHead)
  | [] => true

/-- The first colon outside brackets is the last token. -/
def endsAtColon (depth : Nat) : List Token → Bool
  | [] => true
  | t :: ts =>
    if t = .colon ∧ depth = 0 then ts.isEmpty else endsAtColon (Layout.depthAfter depth t) ts

/-- Definitions begin their lines, and a class header ends its line. -/
structure Conventional (line : List Token) : Prop where
  keywords : keywordsLead line = true
  header : line.head? = some .classKeyword → endsAtColon 0 line = true

/-- Whether a line is conventional can be decided. -/
instance : DecidablePred Conventional := fun line =>
  decidable_of_iff (keywordsLead line = true ∧
    (line.head? = some .classKeyword → endsAtColon 0 line = true))
    ⟨fun h => ⟨h.1, h.2⟩, fun h => ⟨h.keywords, h.header⟩⟩

/-- In a class header, no bracket opens between a `lambda` and the next colon. -/
def FlatHeader (line : List Token) : Prop :=
  line.head? = some .classKeyword → flatLambdas false line = true

/-- Whether a class header is flat can be decided. -/
instance : DecidablePred FlatHeader := fun _ => inferInstanceAs (Decidable (_ → _))

/-- The name of what is defined by a line that begins with the tokens. -/
def definedName? : List Token → Option String
  | .classKeyword :: .identifier name :: _ => some name
  | .defKeyword :: .identifier name :: _ => some name
  | .asyncKeyword :: .defKeyword :: .identifier name :: _ => some name
  | _ => none

variable {p q : List Token} {d : Nat}

/-- The name is on the line. -/
theorem definedName?_append_newline : definedName? (p ++ .newline :: q) = definedName? p := by
  rcases p with - | ⟨a, - | ⟨b, - | ⟨e, p⟩⟩⟩
  · rfl
  · cases a <;> rfl
  · cases a <;> first | rfl | cases b <;> rfl
  · cases a <;> first | rfl | cases b <;> first | rfl | cases e <;> rfl

/-- The name is on the first of the lines. -/
theorem definedName?_tokens_append {l : LogicalLine} :
    definedName? (l.tokens ++ q) = definedName? l.line := by
  rw [tokens_eq, List.append_assoc, List.cons_append, definedName?_append_newline]

/-- A colon outside brackets is the last token. -/
theorem eq_nil_of_endsAtColon (h : endsAtColon d (p ++ .colon :: q) = true)
    (hdepth : depthFrom d p = 0) : q = [] := by
  induction p generalizing d with
  | nil =>
    obtain rfl : d = 0 := hdepth
    simpa [endsAtColon] using h
  | cons t p ih =>
    rw [List.cons_append, endsAtColon] at h
    split at h
    · simp at h
    · exact ih h hdepth

namespace LogicalLine

/-- The line begins a class. -/
def startsClass (l : LogicalLine) : Bool := l.line.head? == some .classKeyword

/-- The line begins a function. -/
def startsFunction (l : LogicalLine) : Bool :=
  match l.line with
  | .defKeyword :: _ => true
  | .asyncKeyword :: .defKeyword :: _ => true
  | _ => false

/-- The line begins a definition. -/
def isDefinition (l : LogicalLine) : Bool := l.startsClass || l.startsFunction

/-- The name of what the line defines. -/
def name? (l : LogicalLine) : Option String := definedName? l.line

variable {l : LogicalLine}

/-- A line that begins a class begins no function. -/
theorem startsFunction_of_startsClass (h : l.startsClass = true) : l.startsFunction = false := by
  unfold startsClass at h
  unfold startsFunction
  split <;> simp_all

/-- No token of a line that is no definition begins one. -/
theorem isHead_eq_false (h : l.isDefinition = false) (hline : keywordsLead l.line = true) :
    ∀ t ∈ l.line, t.isHead = false := by
  obtain ⟨line, block⟩ := l
  simp only [isDefinition, startsClass, startsFunction, LogicalLine.line] at h hline ⊢
  unfold keywordsLead at hline
  split at hline
  · simp at h
  · rename_i t ts hasync
    simp only [List.all_eq_true, Bool.not_eq_true'] at hline
    rintro u (_ | ⟨_, hu⟩)
    · cases t <;> simp_all [Token.isHead]
    · exact hline u hu
  · simp

end LogicalLine
end Source

namespace Outline

open Source LogicalLine

mutual

/-- The class has the name, the methods and the classes that the lines define. -/
def ClassOutline.Mirrors : ClassOutline → LogicalLine → Prop
  | ⟨name, _, _, _, _, methods, _, classes, _⟩, l =>
    l.name? = some name ∧
      ClassOutline.MirrorsAll classes (l.block.filter (·.startsClass)) ∧
      methods.map (some ·.name) = (l.block.filter (·.startsFunction)).map (·.name?)

/-- The classes are those that the lines define, in order. -/
def ClassOutline.MirrorsAll : List ClassOutline → List LogicalLine → Prop
  | [], [] => True
  | k :: ks, l :: ls => k.Mirrors l ∧ ClassOutline.MirrorsAll ks ls
  | _, _ => False

end

/-- The classes and functions are the definitions among the lines. -/
structure Lists (classes : List ClassOutline) (functions : List FunctionOutline)
    (lines : List LogicalLine) : Prop where
  classes : ClassOutline.MirrorsAll classes (lines.filter (·.startsClass))
  functions : functions.map (some ·.name) = (lines.filter (·.startsFunction)).map (·.name?)

variable {k : ClassOutline} {ks : List ClassOutline} {f : FunctionOutline}
  {fs : List FunctionOutline} {l : LogicalLine} {ls : List LogicalLine}

/-- A class mirrors a line of its name if it lists the definitions of the block below. -/
theorem ClassOutline.mirrors_iff :
    k.Mirrors l ↔ l.name? = some k.name ∧ Lists k.classes k.methods l.block := by
  obtain ⟨name, _, _, _, _, methods, _, classes, _⟩ := k
  rw [Mirrors]
  exact ⟨fun h => ⟨h.1, h.2.1, h.2.2⟩, fun h => ⟨h.1, h.2.1, h.2.2⟩⟩

/-- One more class mirrors one more line. -/
theorem ClassOutline.MirrorsAll.append (h : MirrorsAll ks ls) (hk : k.Mirrors l) :
    MirrorsAll (ks ++ [k]) (ls ++ [l]) := by
  induction ks generalizing ls with
  | nil =>
    cases ls with
    | nil => exact ⟨hk, trivial⟩
    | cons m ls => exact h.elim
  | cons k' ks ih =>
    cases ls with
    | nil => exact h.elim
    | cons m ls => exact ⟨h.1, ih h.2⟩

/-- Without lines there is nothing to list. -/
theorem lists_nil : Lists [] [] [] := ⟨trivial, rfl⟩

/-- Behind a line that is no definition the same is listed. -/
theorem Lists.skip (h : Lists ks fs ls) (hl : l.isDefinition = false) :
    Lists ks fs (ls ++ [l]) := by
  rw [isDefinition, Bool.or_eq_false_iff] at hl
  refine ⟨?_, ?_⟩
  · simpa [hl.1] using h.classes
  · simpa [hl.2] using h.functions

/-- Behind a line that begins a class, the class is listed as well. -/
theorem Lists.addClass (h : Lists ks fs ls) (hl : l.startsClass = true) (hk : k.Mirrors l) :
    Lists (ks ++ [k]) fs (ls ++ [l]) := by
  refine ⟨?_, ?_⟩
  · simpa [hl] using h.classes.append hk
  · simpa [startsFunction_of_startsClass hl] using h.functions

/-- Behind a line that begins a function, the function is listed as well. -/
theorem Lists.addFunction (h : Lists ks fs ls) (hl : l.startsFunction = true)
    (hf : l.name? = some f.name) : Lists ks (fs ++ [f]) (ls ++ [l]) := by
  have hclass : l.startsClass = false := by
    cases hclass : l.startsClass with
    | true => rw [startsFunction_of_startsClass hclass] at hl; cases hl
    | false => rfl
  refine ⟨?_, ?_⟩
  · simpa [hclass] using h.classes
  · simpa [hl, hf] using h.functions

end Outline
end Lineage
