/-
# Faithful outlines

A part of an outline is faithful if every span in it is a stretch of the source, in its
place among the others, and if names, numbers and what is kept as text read as the source
does there (`Expression.Faithful` and on).  A part is made faithful by the parts it is made
of, and stays so between wider bounds.
-/

import Lineage.Proofs.Outline.ClassTree
import Lineage.Proofs.Source.Spelling
import Lineage.Outline.Binding
import Lineage.Outline.Expression

namespace Lineage
namespace Outline

open Source Text

variable {text : List Char} {lo lo' hi hi' : Nat}

/-! ### Spans -/

/-- The span is a stretch of the text between two offsets, on borders of characters. -/
structure Span.Within (text : List Char) (lo hi : Nat) (s : Span) : Prop where
  le_start : lo ≤ s.start
  start_le : s.start ≤ s.stop
  stop_le : s.stop ≤ hi
  isCut_start : IsCut text s.start
  isCut_stop : IsCut text s.stop

/-- One of the spans ends before the other one starts. -/
def Span.Disjoint (s s' : Span) : Prop := s.stop ≤ s'.start ∨ s'.stop ≤ s.start

/-- A span within offsets is within wider ones. -/
theorem Span.Within.mono {s : Span} (h : s.Within text lo hi) (hlo : lo' ≤ lo) (hhi : hi ≤ hi') :
    s.Within text lo' hi' :=
  ⟨Nat.le_trans hlo h.le_start, h.start_le, Nat.le_trans h.stop_le hhi, h.isCut_start, h.isCut_stop⟩

/-- The bounds of a span do not cross. -/
theorem Span.Within.le {s : Span} (h : s.Within text lo hi) : lo ≤ hi :=
  Nat.le_trans h.le_start (Nat.le_trans h.start_le h.stop_le)

/-- Of two spans apart from each other, each is apart from the other. -/
theorem Span.Disjoint.symm {s s' : Span} (h : s.Disjoint s') : s'.Disjoint s := Or.symm h

/-! ### Expressions -/

namespace Expression

mutual

/-- An expression and those in it, at any depth. -/
def nodes : Expression → List Expression
  | .name id s => [.name id s]
  | .member value field s => .member value field s :: value.nodes
  | .call function arguments s =>
    .call function arguments s :: (function.nodes ++ argumentNodes arguments)
  | .subscript value slice s => .subscript value slice s :: value.nodes
  | .string value s => [.string value s]
  | .number value s => [.number value s]
  | .tuple elements s => .tuple elements s :: nodesAll elements
  | .list elements s => .list elements s :: nodesAll elements
  | .other text s => [.other text s]

/-- Expressions and those in them. -/
def nodesAll : List Expression → List Expression
  | [] => []
  | e :: es => e.nodes ++ nodesAll es

/-- The values of arguments and the expressions in them. -/
def argumentNodes : List (Argument Expression) → List Expression
  | [] => []
  | ⟨_, value, _⟩ :: rest => value.nodes ++ argumentNodes rest

end

/-- A name, a number or a text reads as the source does at its span, and a name is a word. -/
def Quotes (text : List Char) : Expression → Prop
  | .name id span => slice? text span.start span.stop = some id.toList ∧ IsWord id.toList
  | .number s span | .other s span => slice? text span.start span.stop = some s.toList
  | _ => True

/-- Every span in the expression is between the offsets, and what is quoted is quoted right. -/
def Faithful (text : List Char) (lo hi : Nat) (e : Expression) : Prop :=
  ∀ n ∈ e.nodes, n.span.Within text lo hi ∧ n.Quotes text

variable {e f value function : Expression} {elements : List Expression}
  {found : List (Argument Expression)} {s : Span} {field slice id : String}

/-- The nodes of expressions side by side are the nodes of each. -/
theorem mem_nodesAll : f ∈ nodesAll elements ↔ ∃ e ∈ elements, f ∈ e.nodes := by
  induction elements with
  | nil => simp [nodesAll]
  | cons e elements ih => simp [nodesAll, ih]

/-- The nodes of arguments are the nodes of their values. -/
theorem mem_argumentNodes : f ∈ argumentNodes found ↔ ∃ a ∈ found, f ∈ a.value.nodes := by
  induction found with
  | nil => simp [argumentNodes]
  | cons a found ih => simp [argumentNodes, ih]

/-- An expression is one of its nodes. -/
theorem mem_nodes_self (e : Expression) : e ∈ e.nodes := by
  cases e <;> simp [nodes]

/-- The span of a faithful expression is between the offsets. -/
theorem Faithful.within (h : e.Faithful text lo hi) : e.span.Within text lo hi :=
  (h e (mem_nodes_self e)).1

/-- A faithful expression is so between wider offsets. -/
theorem Faithful.mono (h : e.Faithful text lo hi) (hlo : lo' ≤ lo) (hhi : hi ≤ hi') :
    e.Faithful text lo' hi' :=
  fun n hn => ⟨(h n hn).1.mono hlo hhi, (h n hn).2⟩

/-- An expression is faithful if it is on its own, and what is in it is. -/
theorem faithful_of_nodes {parts : List Expression} (hnodes : e.nodes = e :: parts)
    (hs : e.span.Within text lo hi) (hquotes : e.Quotes text)
    (hparts : ∀ n ∈ parts, n.span.Within text lo hi ∧ n.Quotes text) : e.Faithful text lo hi := by
  intro n hn
  rw [hnodes] at hn
  rcases List.mem_cons.1 hn with rfl | hn
  · exact ⟨hs, hquotes⟩
  · exact hparts n hn

/-- A name, a number, a string or a text has no parts. -/
theorem faithful_leaf (hnodes : e.nodes = [e]) (hs : e.span.Within text lo hi)
    (hquotes : e.Quotes text) : e.Faithful text lo hi :=
  faithful_of_nodes hnodes hs hquotes fun _ hn => nomatch hn

/-- An attribute is faithful if its value is. -/
theorem faithful_member (hs : s.Within text lo hi) (hvalue : value.Faithful text lo hi) :
    (member value field s).Faithful text lo hi := faithful_of_nodes rfl hs trivial hvalue

/-- A subscript is faithful if its value is. -/
theorem faithful_subscript (hs : s.Within text lo hi) (hvalue : value.Faithful text lo hi) :
    (subscript value slice s).Faithful text lo hi := faithful_of_nodes rfl hs trivial hvalue

/-- A call is faithful if what is called and the arguments are. -/
theorem faithful_call (hs : s.Within text lo hi) (hfunction : function.Faithful text lo hi)
    (hfound : ∀ a ∈ found, a.value.Faithful text lo hi) :
    (call function found s).Faithful text lo hi := by
  refine faithful_of_nodes rfl hs trivial fun n hn => ?_
  rcases List.mem_append.1 hn with hn | hn
  · exact hfunction n hn
  · obtain ⟨a, ha, hn⟩ := mem_argumentNodes.1 hn
    exact hfound a ha n hn

/-- A tuple or a list is faithful if its elements are. -/
theorem faithful_display (hnodes : e.nodes = e :: nodesAll elements)
    (hs : e.span.Within text lo hi) (hquotes : e.Quotes text)
    (h : ∀ f ∈ elements, f.Faithful text lo hi) : e.Faithful text lo hi := by
  refine faithful_of_nodes hnodes hs hquotes fun n hn => ?_
  obtain ⟨f, hf, hn⟩ := mem_nodesAll.1 hn
  exact h f hf n hn

/-- The elements of a display are in it. -/
theorem nodes_subset_of_mem_elements (he : e.elements? = some elements) (hf : f ∈ elements) :
    f.nodes ⊆ e.nodes := by
  intro n hn
  cases e <;> simp only [elements?, reduceCtorEq, Option.some.injEq] at he
  · subst he
    exact List.mem_cons_of_mem _ (mem_nodesAll.2 ⟨f, hf, hn⟩)
  · subst he
    exact List.mem_cons_of_mem _ (mem_nodesAll.2 ⟨f, hf, hn⟩)

/-- The elements of a display are faithful if it is. -/
theorem Faithful.of_mem_elements (h : e.Faithful text lo hi) (he : e.elements? = some elements)
    (hf : f ∈ elements) : f.Faithful text lo hi :=
  fun n hn => h n (nodes_subset_of_mem_elements he hf hn)

end Expression

/-- An optional expression is faithful if it is there. -/
def FaithfulOption (text : List Char) (lo hi : Nat) (e : Option Expression) : Prop :=
  ∀ value, e = some value → value.Faithful text lo hi

/-- An optional faithful expression is so between wider offsets. -/
theorem FaithfulOption.mono {e : Option Expression} (h : FaithfulOption text lo hi e)
    (hlo : lo' ≤ lo) (hhi : hi ≤ hi') : FaithfulOption text lo' hi' e :=
  fun value hvalue => (h value hvalue).mono hlo hhi

/-- Where no expression is there, nothing has to be faithful. -/
theorem faithfulOption_none : FaithfulOption text lo hi none := fun _ h => nomatch h

/-- An expression that is there is faithful as an optional one. -/
theorem faithfulOption_some {e : Expression} (h : e.Faithful text lo hi) :
    FaithfulOption text lo hi (some e) := fun _ heq => Option.some.inj heq ▸ h

/-- A base is faithful, or the text of one with a star before it. -/
def FaithfulBase (text : List Char) (lo hi : Nat) (e : Expression) : Prop :=
  e.Faithful text lo hi ∨
    ∃ value : Expression, value.Faithful text lo hi ∧ e = .other ("*" ++ value.text) value.span

/-! ### Statements -/

/-- The span of a decorator is between the offsets, and its expression is in it. -/
structure Decorator.Faithful (text : List Char) (lo hi : Nat) (d : Decorator) : Prop where
  within : d.span.Within text lo hi
  expression : d.expression.Faithful text d.span.start d.span.stop

/-- The span of a binding is between the offsets, and its expressions are in it. -/
structure Binding.Faithful (text : List Char) (lo hi : Nat) (b : Binding) : Prop where
  within : b.span.Within text lo hi
  value : FaithfulOption text b.span.start b.span.stop b.value
  typeHint : FaithfulOption text b.span.start b.span.stop b.typeHint

/-- The expressions of a parameter are between the offsets. -/
structure Parameter.Faithful (text : List Char) (lo hi : Nat) (p : Parameter) : Prop where
  typeHint : FaithfulOption text lo hi p.typeHint
  default : FaithfulOption text lo hi p.default

/-- The span of a function is between the offsets, and its parts are in it, behind its
decorators. -/
structure FunctionOutline.Faithful (text : List Char) (lo hi : Nat) (f : FunctionOutline) :
    Prop where
  within : f.span.Within text lo hi
  start_lt : f.span.start < f.span.stop
  decorators : ∀ d ∈ f.decorators, d.Faithful text 0 f.span.start
  parameters : ∀ p ∈ f.parameters, p.Faithful text f.span.start f.span.stop
  returns : FaithfulOption text f.span.start f.span.stop f.returns
  receiverBindings : ∀ b ∈ f.receiverBindings, b.Faithful text f.span.start f.span.stop

/-- A faithful decorator is so between wider offsets. -/
theorem Decorator.Faithful.mono {d : Decorator} (h : d.Faithful text lo hi) (hlo : lo' ≤ lo)
    (hhi : hi ≤ hi') : d.Faithful text lo' hi' :=
  ⟨h.within.mono hlo hhi, h.expression⟩

/-- A faithful binding is so between wider offsets. -/
theorem Binding.Faithful.mono {b : Binding} (h : b.Faithful text lo hi) (hlo : lo' ≤ lo)
    (hhi : hi ≤ hi') : b.Faithful text lo' hi' :=
  ⟨h.within.mono hlo hhi, h.value, h.typeHint⟩

/-- A faithful parameter is so between wider offsets. -/
theorem Parameter.Faithful.mono {p : Parameter} (h : p.Faithful text lo hi) (hlo : lo' ≤ lo)
    (hhi : hi ≤ hi') : p.Faithful text lo' hi' :=
  ⟨h.typeHint.mono hlo hhi, h.default.mono hlo hhi⟩

/-- A faithful function is so between wider offsets. -/
theorem FunctionOutline.Faithful.mono {f : FunctionOutline} (h : f.Faithful text lo hi)
    (hlo : lo' ≤ lo) (hhi : hi ≤ hi') : f.Faithful text lo' hi' :=
  ⟨h.within.mono hlo hhi, h.start_lt, h.decorators, h.parameters, h.returns, h.receiverBindings⟩

/-! ### Class bodies -/

/-- The spans of definitions. -/
def definitionSpans (methods : List FunctionOutline) (classes : List ClassOutline) : List Span :=
  methods.map (·.span) ++ classes.map (·.span)

/-- The definitions and bindings of a class body are between the offsets, apart from each
other, and in the order of the source. -/
structure FaithfulBody (text : List Char) (lo hi : Nat) (methods : List FunctionOutline)
    (bindings : List Binding) (classes : List ClassOutline) : Prop where
  method : ∀ f ∈ methods, f.Faithful text lo hi
  binding : ∀ b ∈ bindings, b.Faithful text lo hi
  nested : ∀ k ∈ classes, k.span.Within text lo hi ∧ k.span.start < k.span.stop
  disjoint : (definitionSpans methods classes).Pairwise Span.Disjoint
  bindings_disjoint : ∀ b ∈ bindings, ∀ s ∈ definitionSpans methods classes, b.span.Disjoint s
  methods_sorted : methods.Pairwise (·.span.start < ·.span.start)
  classes_sorted : classes.Pairwise (·.span.start < ·.span.start)
  bindings_sorted : bindings.Pairwise (·.span.start ≤ ·.span.start)

/-- The name of a class is a word, its span a stretch of the text, and its parts are in it,
behind its decorators. -/
structure ClassOutline.Faithful (text : List Char) (c : ClassOutline) : Prop where
  name : IsWord c.name.toList
  within : c.span.Within text 0 (byteLength text)
  start_lt : c.span.start < c.span.stop
  decorators : ∀ d ∈ c.decorators, d.Faithful text 0 c.span.start
  bases : ∀ e ∈ c.bases, FaithfulBase text c.span.start c.span.stop e
  keywords : ∀ a ∈ c.keywords, a.value.Faithful text c.span.start c.span.stop
  body : FaithfulBody text c.span.start c.span.stop c.methods c.bindings c.classes

/-- The definitions of a module and the classes in them are faithful. -/
structure ModuleOutline.Faithful (text : List Char) (m : ModuleOutline) : Prop where
  within : m.span.Within text 0 (byteLength text)
  functions : ∀ f ∈ m.functions, f.Faithful text 0 (byteLength text)
  classes : ∀ c ∈ preorderAll m.classes, c.Faithful text

namespace FaithfulBody

variable {methods : List FunctionOutline} {bindings bound : List Binding}
  {classes : List ClassOutline} {f : FunctionOutline} {k : ClassOutline} {s : Span} {mid : Nat}

/-- A body without members is faithful. -/
theorem nil : FaithfulBody text lo hi [] [] [] := by
  constructor <;> simp [definitionSpans]

/-- A faithful body is so between wider offsets. -/
theorem mono (h : FaithfulBody text lo hi methods bindings classes) (hlo : lo' ≤ lo)
    (hhi : hi ≤ hi') : FaithfulBody text lo' hi' methods bindings classes :=
  { h with
    method := fun f hf => (h.method f hf).mono hlo hhi
    binding := fun b hb => (h.binding b hb).mono hlo hhi
    nested := fun k hk => ⟨(h.nested k hk).1.mono hlo hhi, (h.nested k hk).2⟩ }

/-- The definitions of a body end before what stands behind it. -/
theorem stop_le (h : FaithfulBody text lo hi methods bindings classes)
    (hs : s ∈ definitionSpans methods classes) : s.stop ≤ hi := by
  rcases List.mem_append.1 hs with hs | hs
  · obtain ⟨f, hf, rfl⟩ := List.mem_map.1 hs
    exact (h.method f hf).within.stop_le
  · obtain ⟨k, hk, rfl⟩ := List.mem_map.1 hs
    exact (h.nested k hk).1.stop_le

/-- The definitions with one more, which stands behind them. -/
theorem definitions_concat (spans spans' : List Span)
    (h : FaithfulBody text lo hi methods bindings classes) (hs : hi ≤ s.start)
    (hsplit : definitionSpans methods classes = spans ++ spans') :
    (spans ++ s :: spans').Pairwise Span.Disjoint ∧
      ∀ b ∈ bindings, ∀ s' ∈ spans ++ s :: spans', b.span.Disjoint s' := by
  have hperm : (spans ++ s :: spans').Perm (s :: definitionSpans methods classes) := by
    rw [hsplit]
    exact List.perm_middle
  constructor
  · refine (hperm.pairwise_iff fun h => h.symm).2 (List.pairwise_cons.2 ⟨?_, h.disjoint⟩)
    exact fun s' hs' => .inr (Nat.le_trans (h.stop_le hs') hs)
  · intro b hb s' hs'
    rcases List.mem_cons.1 (hperm.mem_iff.1 hs') with rfl | hs'
    · exact .inl (Nat.le_trans (h.binding b hb).within.stop_le hs)
    · exact h.bindings_disjoint b hb s' hs'

/-- **A method behind a body goes into it.** -/
theorem addMethod (h : FaithfulBody text lo mid methods bindings classes) (hlo : lo ≤ mid)
    (hhi : mid ≤ hi) (hf : f.Faithful text mid hi) :
    FaithfulBody text lo hi (methods ++ [f]) bindings classes := by
  obtain ⟨hdisjoint, hbindings⟩ :=
    h.definitions_concat (methods.map (·.span)) (classes.map (·.span)) hf.within.le_start rfl
  have hspans : definitionSpans (methods ++ [f]) classes =
      methods.map (·.span) ++ f.span :: classes.map (·.span) := by
    simp [definitionSpans]
  have hwider := h.mono (Nat.le_refl lo) hhi
  refine { hwider with
    method := ?_
    disjoint := hspans ▸ hdisjoint
    bindings_disjoint := hspans ▸ hbindings
    methods_sorted := ?_ }
  · intro g hg
    rcases List.mem_append.1 hg with hg | hg
    · exact hwider.method g hg
    · rw [List.mem_singleton.1 hg]
      exact hf.mono hlo (Nat.le_refl hi)
  · refine List.pairwise_append.2 ⟨h.methods_sorted, List.pairwise_singleton _ _, ?_⟩
    intro g hg g' hg'
    rw [List.mem_singleton.1 hg']
    have hbefore := (h.method g hg).within.stop_le
    have hnonempty := (h.method g hg).start_lt
    have hbehind := hf.within.le_start
    omega

/-- **A class behind a body goes into it.** -/
theorem addClass (h : FaithfulBody text lo mid methods bindings classes) (hlo : lo ≤ mid)
    (hhi : mid ≤ hi) (hk : k.span.Within text mid hi ∧ k.span.start < k.span.stop) :
    FaithfulBody text lo hi methods bindings (classes ++ [k]) := by
  obtain ⟨hdisjoint, hbindings⟩ :=
    h.definitions_concat (definitionSpans methods classes) [] hk.1.le_start (List.append_nil _).symm
  have hspans : definitionSpans methods (classes ++ [k]) =
      definitionSpans methods classes ++ [k.span] := by
    simp [definitionSpans]
  have hwider := h.mono (Nat.le_refl lo) hhi
  refine { hwider with
    nested := ?_
    disjoint := hspans ▸ hdisjoint
    bindings_disjoint := hspans ▸ hbindings
    classes_sorted := ?_ }
  · intro g hg
    rcases List.mem_append.1 hg with hg | hg
    · exact hwider.nested g hg
    · rw [List.mem_singleton.1 hg]
      exact ⟨hk.1.mono hlo (Nat.le_refl hi), hk.2⟩
  · refine List.pairwise_append.2 ⟨h.classes_sorted, List.pairwise_singleton _ _, ?_⟩
    intro g hg g' hg'
    rw [List.mem_singleton.1 hg']
    obtain ⟨hwithin, hnonempty⟩ := h.nested g hg
    have hbefore := hwithin.stop_le
    have hbehind := hk.1.le_start
    omega

/-- **The bindings of a statement behind a body go into it.** -/
theorem addBindings (h : FaithfulBody text lo mid methods bindings classes) (hlo : lo ≤ mid)
    (hhi : mid ≤ hi) (hbound : ∀ b ∈ bound, b.Faithful text mid hi)
    (hsorted : bound.Pairwise (·.span.start ≤ ·.span.start)) :
    FaithfulBody text lo hi methods (bindings ++ bound) classes := by
  have hwider := h.mono (Nat.le_refl lo) hhi
  refine { hwider with
    binding := ?_
    bindings_disjoint := ?_
    bindings_sorted := ?_ }
  · intro b hb
    rcases List.mem_append.1 hb with hb | hb
    · exact hwider.binding b hb
    · exact (hbound b hb).mono hlo (Nat.le_refl hi)
  · intro b hb s hs
    rcases List.mem_append.1 hb with hb | hb
    · exact h.bindings_disjoint b hb s hs
    · exact .inr (Nat.le_trans (h.stop_le hs) (hbound b hb).within.le_start)
  · refine List.pairwise_append.2 ⟨h.bindings_sorted, hsorted, ?_⟩
    intro b hb b' hb'
    have hbefore := (h.binding b hb).within
    exact Nat.le_trans (Nat.le_trans hbefore.start_le hbefore.stop_le)
      (hbound b' hb').within.le_start

end FaithfulBody

/-! ### Values of targets -/

/-- A target takes nothing, the whole value, or an element of it. -/
theorem cases_targetValues {count : Nat} {value v : Option Expression}
    (hv : v ∈ targetValues count value) :
    v = none ∨ v = value ∨ ∃ display elements e, value = some display ∧
      display.elements? = some elements ∧ e ∈ elements ∧ v = some e := by
  have hwhole : v ∈ (if count = 1 then [value] else List.replicate count none) →
      v = none ∨ v = value := by
    intro hv
    split at hv
    · exact .inr (List.mem_singleton.1 hv)
    · exact .inl (List.eq_of_mem_replicate hv)
  unfold targetValues at hv
  dsimp only at hv
  split at hv
  · exact (hwhole hv).imp_right .inl
  · split at hv
    · rename_i elements helements
      split at hv
      · obtain ⟨e, he, rfl⟩ := List.mem_map.1 hv
        obtain ⟨display, hdisplay, helements⟩ := Option.bind_eq_some_iff.1 helements
        exact .inr (.inr ⟨display, elements, e, hdisplay, helements, he, rfl⟩)
      · exact (hwhole hv).imp_right .inl
    · exact (hwhole hv).imp_right .inl

/-- What targets take of a faithful value is faithful. -/
theorem faithfulOption_of_mem_targetValues {count : Nat} {value v : Option Expression}
    (h : FaithfulOption text lo hi value) (hv : v ∈ targetValues count value) :
    FaithfulOption text lo hi v := by
  rcases cases_targetValues hv with rfl | rfl | ⟨display, elements, e, rfl, helements, he, rfl⟩
  · exact faithfulOption_none
  · exact h
  · exact faithfulOption_some ((h display rfl).of_mem_elements helements he)

end Outline
end Lineage
