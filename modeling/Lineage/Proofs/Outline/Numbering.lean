/-
# Spans are told apart by their numbers

The spans of an outline are those of its definitions and those of its expressions (`Spans`).
One value may stand in several bindings, so an expression may occur more than once, but every
definition has a span of its own.  `Numbered` says so of the spans made behind `lo`, up to
`hi`: no two definitions have the same number, and spans of the same number are the same.
What is read later is numbered apart from what was read before (`Numbered.append`), and what
has been read may be dropped, repeated and reordered as long as the definitions stay apart
(`Numbered.of_subset`, `Numbered.swap`).  So a reading numbers its outline if the readings it
is made of do (`Numbers`), from expressions up to the module (`numbered_of_parse`).
-/

import Lineage.Proofs.Outline.Counting
import Lineage.Proofs.Outline.Faithfulness

namespace Lineage
namespace Outline

open Source Reading

variable {α β σ : Type}

/-! ### Spans of an outline -/

/-- The spans of a part of an outline: of its definitions, and of its expressions. -/
@[ext]
structure Spans where
  definitions : List Span
  expressions : List Span

namespace Spans

/-- No spans. -/
def empty : Spans := ⟨[], []⟩

/-- The span of a definition. -/
def ofDefinition (s : Span) : Spans := ⟨[s], []⟩

/-- The span of an expression. -/
def ofExpression (s : Span) : Spans := ⟨[], [s]⟩

/-- The spans of a part and of one behind it. -/
instance : Append Spans :=
  ⟨fun S T => ⟨S.definitions ++ T.definitions, S.expressions ++ T.expressions⟩⟩

/-- The spans of parts side by side. -/
def each (f : α → Spans) (as : List α) : Spans :=
  ⟨as.flatMap fun a => (f a).definitions, as.flatMap fun a => (f a).expressions⟩

/-- All of them. -/
def all (S : Spans) : List Span := S.definitions ++ S.expressions

variable {S T U : Spans} {s : Span} {f : α → Spans} {as bs : List α} {a : α}

/-- The definitions of two parts. -/
@[simp] theorem definitions_append : (S ++ T).definitions = S.definitions ++ T.definitions := rfl

/-- The expressions of two parts. -/
@[simp] theorem expressions_append : (S ++ T).expressions = S.expressions ++ T.expressions := rfl

/-- A span of two parts is a span of one of them. -/
theorem mem_all_append : s ∈ (S ++ T).all ↔ s ∈ S.all ∨ s ∈ T.all := by
  simp only [all, definitions_append, expressions_append, List.mem_append]
  exact or_or_or_comm

/-- Putting parts side by side is associative. -/
theorem append_assoc (S T U : Spans) : S ++ T ++ U = S ++ (T ++ U) :=
  Spans.ext (List.append_assoc ..) (List.append_assoc ..)

/-- Without parts there are no spans. -/
@[simp] theorem each_nil : each f [] = empty := rfl

/-- The parts of two lists side by side. -/
theorem each_append : each f (as ++ bs) = each f as ++ each f bs :=
  Spans.ext List.flatMap_append List.flatMap_append

/-- The first part and the others. -/
theorem each_cons : each f (a :: as) = f a ++ each f as := rfl

/-- A single part. -/
theorem each_singleton : each f [a] = f a :=
  Spans.ext (List.flatMap_singleton ..) (List.flatMap_singleton ..)

end Spans

open Spans

/-- The spans of an expression and of those in it. -/
def Expression.spans (e : Expression) : Spans := ⟨[], e.nodes.map (·.span)⟩

/-- The spans of an optional expression. -/
def optionSpans (e : Option Expression) : Spans := each Expression.spans e.toList

/-- The spans of the value of an argument. -/
def Argument.spans (a : Argument Expression) : Spans := a.value.spans

/-- The spans of a parameter. -/
def Parameter.spans (p : Parameter) : Spans := optionSpans p.typeHint ++ optionSpans p.default

/-- The spans of a decorator, itself included. -/
def Decorator.spans (d : Decorator) : Spans := d.expression.spans ++ ofDefinition d.span

/-- The spans of a binding, itself included. -/
def Binding.spans (b : Binding) : Spans :=
  optionSpans b.typeHint ++ optionSpans b.value ++ ofDefinition b.span

/-- The spans of a function, itself included. -/
def FunctionOutline.spans (f : FunctionOutline) : Spans :=
  each Decorator.spans f.decorators ++ each Parameter.spans f.parameters ++ optionSpans f.returns
    ++ each Binding.spans f.receiverBindings ++ ofDefinition f.span

/-- The spans of the header of a class. -/
def headerSpans (bases : List Expression) (keywords : List (Argument Expression)) : Spans :=
  each Expression.spans bases ++ each Argument.spans keywords

/-- The spans of a class, itself included, but for the classes in it. -/
def ClassOutline.spans (c : ClassOutline) : Spans :=
  each Decorator.spans c.decorators ++ headerSpans c.bases c.keywords
    ++ each FunctionOutline.spans c.methods ++ each Binding.spans c.bindings ++ ofDefinition c.span

/-- The spans of a module: of itself, of its classes at any depth and of its functions. -/
def ModuleOutline.spans (m : ModuleOutline) : Spans :=
  ofDefinition m.span ++ each ClassOutline.spans (preorderAll m.classes)
    ++ each FunctionOutline.spans m.functions

/-- The span of a function is among its spans. -/
theorem FunctionOutline.span_mem_definitions (f : FunctionOutline) :
    f.span ∈ f.spans.definitions := List.mem_append_right _ List.mem_cons_self

/-- The methods of a class are among its definitions, in order. -/
theorem ClassOutline.methods_sublist_definitions (c : ClassOutline) :
    (each FunctionOutline.spans c.methods).definitions.Sublist c.spans.definitions :=
  ((List.sublist_append_right _ _).trans (List.sublist_append_left _ _)).trans
    (List.sublist_append_left _ _)

/-- The classes of a module are among its definitions, in order. -/
theorem ModuleOutline.classes_sublist_definitions (m : ModuleOutline) :
    (each ClassOutline.spans (preorderAll m.classes)).definitions.Sublist m.spans.definitions :=
  (List.sublist_append_right _ _).trans (List.sublist_append_left _ _)

/-! ### Numbers -/

/-- The spans are numbered behind `lo`, up to `hi`: definitions apart from each other, and
spans of the same number are the same. -/
structure Numbered (module : String) (lo hi : Nat) (S : Spans) : Prop where
  le : lo ≤ hi
  number : ∀ s ∈ S.all, ∃ k, lo < k ∧ k ≤ hi ∧ s.id = spanId module k
  same : ∀ s ∈ S.all, ∀ t ∈ S.all, s.id = t.id → s = t
  apart : (S.definitions.map (·.id)).Nodup

namespace Numbered

variable {module : String} {lo mid hi hi' n : Nat} {S T U : Spans} {s t : Span}

/-- Where there are no spans, nothing has to be numbered. -/
theorem empty (h : lo ≤ hi) : Numbered module lo hi .empty :=
  ⟨h, fun _ hs => (nomatch hs), fun _ hs => (nomatch hs), List.nodup_nil⟩

/-- Numbers may begin earlier and end later. -/
theorem mono (h : Numbered module mid hi S) (hlo : lo ≤ mid) (hhi : hi ≤ hi') :
    Numbered module lo hi' S := by
  refine ⟨Nat.le_trans hlo (Nat.le_trans h.le hhi), fun s hs => ?_, h.same, h.apart⟩
  obtain ⟨k, hlt, hle, hid⟩ := h.number s hs
  exact ⟨k, Nat.lt_of_le_of_lt hlo hlt, Nat.le_trans hle hhi, hid⟩

/-- What is numbered later has other numbers. -/
theorem id_ne (h : Numbered module lo mid S) (h' : Numbered module mid hi T) (hs : s ∈ S.all)
    (ht : t ∈ T.all) : s.id ≠ t.id := by
  obtain ⟨k, _, hle, hs⟩ := h.number s hs
  obtain ⟨k', hlt, _, ht⟩ := h'.number t ht
  rw [hs, ht, Ne, spanId_inj]
  exact Nat.ne_of_lt (Nat.lt_of_le_of_lt hle hlt)

/-- **What is read later is numbered apart from what was read before.** -/
theorem append (h : Numbered module lo mid S) (h' : Numbered module mid hi T) :
    Numbered module lo hi (S ++ T) where
  le := Nat.le_trans h.le h'.le
  number s hs := by
    rcases mem_all_append.1 hs with hs | hs
    · exact (h.mono (Nat.le_refl lo) h'.le).number s hs
    · exact (h'.mono h.le (Nat.le_refl hi)).number s hs
  same s hs t ht hid := by
    rcases mem_all_append.1 hs with hs | hs <;> rcases mem_all_append.1 ht with ht | ht
    · exact h.same s hs t ht hid
    · exact absurd hid (h.id_ne h' hs ht)
    · exact absurd hid.symm (h.id_ne h' ht hs)
    · exact h'.same s hs t ht hid
  apart := by
    rw [definitions_append, List.map_append]
    refine List.nodup_append.2 ⟨h.apart, h'.apart, fun a ha b hb => ?_⟩
    obtain ⟨s, hs, rfl⟩ := List.mem_map.1 ha
    obtain ⟨t, ht, rfl⟩ := List.mem_map.1 hb
    exact h.id_ne h' (List.mem_append_left _ hs) (List.mem_append_left _ ht)

/-- What was read before may be dropped. -/
theorem behind (h : Numbered module mid hi T) (hlo : lo ≤ mid) : Numbered module lo hi T :=
  h.mono hlo (Nat.le_refl hi)

/-- Expressions may be dropped and repeated. -/
theorem of_subset (h : Numbered module lo hi S) (hdefinitions : T.definitions = S.definitions)
    (hexpressions : T.expressions ⊆ S.expressions) : Numbered module lo hi T := by
  have hall : T.all ⊆ S.all := by
    intro s hs
    rw [all, hdefinitions] at hs
    rcases List.mem_append.1 hs with hs | hs
    · exact List.mem_append_left _ hs
    · exact List.mem_append_right _ (hexpressions hs)
  exact ⟨h.le, fun s hs => h.number s (hall hs), fun s hs t ht => h.same s (hall hs) t (hall ht),
    hdefinitions ▸ h.apart⟩

/-- The order does not matter. -/
theorem swap (h : Numbered module lo hi (S ++ T ++ U)) : Numbered module lo hi (S ++ U ++ T) := by
  have hall : ∀ {s}, s ∈ (S ++ U ++ T).all → s ∈ (S ++ T ++ U).all := by
    intro s
    simp only [mem_all_append]
    exact or_right_comm.1
  refine ⟨h.le, fun s hs => h.number s (hall hs),
    fun s hs t ht => h.same s (hall hs) t (hall ht), ?_⟩
  have hperm : (S ++ U ++ T).definitions.Perm (S ++ T ++ U).definitions := by
    simp only [definitions_append, List.append_assoc]
    exact List.perm_append_comm.append_left S.definitions
  exact ((hperm.map _).nodup_iff).2 h.apart

/-- Parts behind others are numbered behind them. -/
theorem appendEach {f : α → Spans} {as bs : List α} (h : Numbered module lo mid (each f as))
    (h' : Numbered module mid hi (each f bs)) : Numbered module lo hi (each f (as ++ bs)) := by
  rw [each_append]
  exact h.append h'

/-- One more part behind those that have been found. -/
theorem concat {f : α → Spans} {as : List α} {a : α} (h : Numbered module lo mid (each f as))
    (ha : Numbered module mid hi (f a)) : Numbered module lo hi (each f (as ++ [a])) := by
  rw [← each_singleton (f := f)] at ha
  exact h.appendEach ha

/-- An expression with a span of its own over those in it. -/
theorem parent {e : Expression} {inner : List Expression}
    (h : Numbered module lo hi (⟨[], inner.map (·.span)⟩ ++ ofExpression e.span))
    (hnodes : e.nodes = e :: inner) : Numbered module lo hi e.spans := by
  refine h.of_subset rfl ?_
  have hspans : e.spans.expressions = e.span :: inner.map (·.span) :=
    (congrArg (List.map _) hnodes).trans (List.map_cons ..)
  rw [hspans]
  exact (List.perm_append_singleton e.span _).symm.subset

end Numbered

/-- The spans of expressions side by side are those of their nodes. -/
theorem each_expression_spans (es : List Expression) :
    each Expression.spans es = ⟨[], (Expression.nodesAll es).map (·.span)⟩ := by
  induction es with
  | nil => rfl
  | cons e es ih =>
    rw [Expression.nodesAll, List.map_append, each_cons, ih]
    rfl

/-- The spans of arguments are those of the nodes in their values. -/
theorem each_argument_spans (found : List (Argument Expression)) :
    each Argument.spans found = ⟨[], (Expression.argumentNodes found).map (·.span)⟩ := by
  induction found with
  | nil => rfl
  | cons a found ih =>
    rw [Expression.argumentNodes, List.map_append, each_cons, ih]
    rfl

/-! ### Contracts -/

/-- What the reading finds has the numbers of the spans it makes. -/
def Numbers (o : Origin) (x : Reading α) (f : α → Spans) : Prop :=
  ∀ n, Counts o n x fun a m => Numbered o.module n m (f a)

/-- The rounds of a loop number what they add to what has been found. -/
def NumbersRound (o : Origin) (step : σ → Reading (Round σ α)) (f : σ → Spans) (g : α → Spans) :
    Prop :=
  ∀ s lo n, Numbered o.module lo n (f s) → Counts o n (step s) (Round.Holds
    (fun s' m => Numbered o.module lo m (f s')) fun a m => Numbered o.module lo m (g a))

variable {o : Origin} {lo n start : Nat} {x : Reading α} {f : α → Spans} {g : σ → Spans}

/-- **A loop numbers what it finds if its rounds do.** -/
theorem NumbersRound.loop {step : σ → Reading (Round σ α)} (h : NumbersRound o step g f) {s : σ}
    (hs : Numbered o.module lo n (g s)) :
    Counts o n (repeatRounds step s) fun a m => Numbered o.module lo m (f a) :=
  counts_repeatRounds (I := fun s m => Numbered o.module lo m (g s)) (fun s m => h s lo m) hs

/-- The span of a definition is its only one. -/
theorem all_ofDefinition (s : Span) : (ofDefinition s).all = [s] := rfl

/-- The span of an expression is its only one. -/
theorem all_ofExpression (s : Span) : (ofExpression s).all = [s] := rfl

/-- A new span has a number of its own. -/
theorem numbers_makeSpan {f : Span → Spans} (hf : ∀ s, (f s).all = [s]) (start stop : Nat) :
    Numbers o (makeSpan start stop) f := by
  intro n c hc
  subst hc
  refine ⟨Nat.le_succ _, Nat.le_succ _, fun s hs => ?_, fun s hs t ht _ => ?_, ?_⟩
  · rw [hf, List.mem_singleton] at hs
    exact ⟨c.made + 1, Nat.lt_succ_self _, Nat.le_refl _, hs ▸ rfl⟩
  · rw [hf, List.mem_singleton] at hs ht
    exact hs.trans ht.symm
  · have hnodup : ((f ⟨start, stop, spanId o.module (c.made + 1)⟩).all.map (·.id)).Nodup := by
      rw [hf]
      exact List.pairwise_singleton _ _
    exact hnodup.sublist ((List.sublist_append_left _ _).map _)

/-- A span that is made has the next number. -/
theorem numbers_spanFrom {f : Span → Spans} (hf : ∀ s, (f s).all = [s]) (start : Nat) :
    Numbers o (spanFrom start) f :=
  fun n => silent_lastStop.then fun _ => numbers_makeSpan hf start _ n

/-- Items with commas between them are numbered one behind the other. -/
theorem numbersRound_commaRound {item : Reading α} {ended : Reading Bool}
    (hitem : Numbers o item f) (hended : Silent o ended) :
    NumbersRound o (commaRound item ended) (each f) (each f) := by
  intro found lo n hfound
  refine (silent_accept _).then fun comma => ?_
  split
  · refine hended.then fun last => ?_
    split
    · exact counts_pure hfound
    · exact (hitem n).bind fun a m ha => counts_pure (hfound.concat ha)
  · exact counts_pure hfound

/-! ### Expressions -/

/-- An expression of no modelled shape is numbered. -/
theorem numbers_looseExpression (start : Nat) :
    Numbers o (looseExpression start) Expression.spans := by
  intro n
  refine silent_ahead.then fun tokens => (silent_orFault _ _).then fun k =>
    (silent_pass k).then fun _ => silent_lastStop.then fun stop =>
    (silent_sourceText _ _).then fun text => ?_
  exact (numbers_makeSpan all_ofExpression _ _ n).bind fun s m hs => counts_pure hs

/-- A tuple or a list with a span of its own behind those of its elements. -/
theorem counts_display {elements : List Expression} {f : Span → Expression}
    (h : Numbered o.module lo n (each Expression.spans elements)) (hspan : ∀ s, (f s).span = s)
    (hnodes : ∀ s, (f s).nodes = f s :: Expression.nodesAll elements) :
    Counts o n (spanFrom start >>= fun s => pure (f s)) fun e m =>
      Numbered o.module lo m e.spans := by
  refine (numbers_spanFrom all_ofExpression start n).bind fun s m hs => counts_pure ?_
  have hparts := h.append hs
  rw [each_expression_spans, ← hspan s] at hparts
  exact hparts.parent (hnodes s)

section Nested

variable {inner : Reading Expression} (hinner : Numbers o inner Expression.spans)

include hinner

/-- The rounds over a tuple number the elements that they add. -/
theorem numbersRound_tupleRound :
    NumbersRound o (tupleRound inner) (each Expression.spans) (each Expression.spans) := by
  rw [tupleRound_eq]
  exact numbersRound_commaRound hinner (silent_check _)

/-- What stands in round brackets is numbered, with the brackets. -/
theorem numbers_parenthesized (start : Nat) :
    Numbers o (parenthesized inner start) Expression.spans := by
  intro n
  refine (silent_pass 1).then fun _ => (silent_accept _).then fun closed => ?_
  split
  · exact (numbers_spanFrom all_ofExpression start n).bind fun s m hs => counts_pure hs
  · refine (hinner n).bind fun first m hfirst => (silent_check _).then fun comma => ?_
    split
    · rw [← each_singleton (f := Expression.spans)] at hfirst
      refine ((numbersRound_tupleRound hinner).loop hfirst).bind
        fun elements m helements => (silent_expect _).then fun _ => ?_
      exact counts_display helements (fun _ => rfl) fun _ => rfl
    · exact (silent_expect _).then fun _ => counts_pure hfirst

/-- The rounds over a list number the elements that they add. -/
theorem numbersRound_listRound :
    NumbersRound o (listRound inner) (each Expression.spans) (each Expression.spans) := by
  intro elements lo n helements
  refine (silent_check _).then fun closed => ?_
  split
  · exact counts_pure helements
  · refine (hinner n).bind fun e m he => (silent_accept _).then fun comma => ?_
    have hmore := helements.concat he
    split <;> exact counts_pure hmore

/-- What stands in square brackets is numbered, with the brackets. -/
theorem numbers_bracketed (start : Nat) :
    Numbers o (bracketed inner start) Expression.spans := by
  intro n
  refine (silent_pass 1).then fun _ => ?_
  refine ((numbersRound_listRound hinner).loop (.empty (Nat.le_refl n))).bind
    fun elements m helements => (silent_expect _).then fun _ => ?_
  exact counts_display helements (fun _ => rfl) fun _ => rfl

omit hinner in
/-- What stands in braces is numbered as one expression. -/
theorem numbers_braced (start : Nat) : Numbers o (braced start) Expression.spans := by
  intro n
  refine silent_passGroup.then fun _ => silent_lastStop.then fun stop =>
    (silent_sourceText _ _).then fun text => ?_
  exact (numbers_makeSpan all_ofExpression _ _ n).bind fun s m hs => counts_pure hs

/-- A primary expression is numbered, if the expressions in it are. -/
theorem numbers_primary : Numbers o (primary inner) Expression.spans := by
  intro n
  refine silent_peekStart.then fun start => silent_peek.then fun next => ?_
  have hleaf : Counts o n (spanFrom start) fun s m => Numbered o.module n m (ofExpression s) :=
    numbers_spanFrom all_ofExpression start n
  split
  · exact (silent_pass 1).then fun _ => hleaf.bind fun s m hs => counts_pure hs
  · exact silent_ahead.then fun _ => (silent_passStrings _).then fun value =>
      hleaf.bind fun s m hs => counts_pure hs
  · exact (silent_pass 1).then fun _ => hleaf.bind fun s m hs => counts_pure hs
  · exact numbers_parenthesized hinner start n
  · exact numbers_bracketed hinner start n
  · exact numbers_braced start n
  · exact counts_refuse _
  · split
    · exact counts_refuseNext _
    · exact numbers_looseExpression start n

/-- An argument is numbered by its value. -/
theorem numbers_argument : Numbers o (argument inner) Argument.spans := by
  intro n
  refine silent_argumentStars.then fun unpacking => (silent_argumentKeyword _).then fun name => ?_
  exact (hinner n).bind fun value m hvalue => counts_pure hvalue

/-- The rounds over arguments number those that they add. -/
theorem numbersRound_argumentRound :
    NumbersRound o (argumentRound inner) (each Argument.spans) (each Argument.spans) := by
  intro found lo n hfound
  refine (silent_check _).then fun closed => ?_
  split
  · exact counts_pure hfound
  · refine silent_atEnd.then fun ended => ?_
    split
    · exact silent_peekStart.then fun _ => counts_refuse _
    · refine (numbers_argument hinner n).bind fun a m ha => (silent_accept _).then fun comma => ?_
      have hmore := hfound.concat ha
      split <;> exact counts_pure hmore

/-- Arguments are numbered. -/
theorem numbers_arguments : Numbers o (arguments inner) (each Argument.spans) := by
  intro n
  refine ((numbersRound_argumentRound hinner).loop (.empty (Nat.le_refl n))).bind
    fun found m hfound => (silent_expect _).then fun _ => counts_pure hfound

/-- A chain with one more member, call or subscript. -/
theorem numbersRound_postfixRound (start : Nat) :
    NumbersRound o (postfixRound inner start) Expression.spans Expression.spans := by
  intro e lo n he
  refine silent_peek.then fun next => ?_
  split
  · refine (silent_peekAt 1).then fun second => ?_
    split
    · refine (silent_pass 2).then fun _ => ?_
      exact (numbers_spanFrom all_ofExpression start n).bind fun s m hs =>
        counts_pure ((he.append hs).parent rfl)
    · exact counts_pure he
  · refine (silent_pass 1).then fun _ => (numbers_arguments hinner n).bind fun found m hfound => ?_
    refine (numbers_spanFrom all_ofExpression start m).bind fun s m' hs => counts_pure ?_
    rw [each_argument_spans] at hfound
    have hparts : Numbered o.module lo m'
        (⟨[], (e.nodes ++ Expression.argumentNodes found).map (·.span)⟩ ++ ofExpression s) := by
      rw [List.map_append]
      exact (he.append hfound).append hs
    exact hparts.parent rfl
  · refine silent_passGroup.then fun _ => silent_lastStop.then fun stop =>
      (silent_sourceText _ _).then fun slice => ?_
    exact (numbers_makeSpan all_ofExpression start stop n).bind fun s m hs =>
      counts_pure ((he.append hs).parent rfl)
  · exact counts_pure he

/-- A chain of attributes, calls and subscripts is numbered. -/
theorem numbers_chain : Numbers o (chain inner) Expression.spans := by
  intro n
  refine silent_peekStart.then fun start => (numbers_primary hinner n).bind fun e m he => ?_
  exact (numbersRound_postfixRound hinner start).loop he

/-- The spans of a chain that is not the whole expression are dropped. -/
theorem numbers_expressionOver : Numbers o (expressionOver inner) Expression.spans := by
  intro n
  refine silent_peekStart.then fun start => (silent_check _).then fun isLambda => ?_
  split
  · exact numbers_looseExpression start n
  · refine (numbers_chain hinner n).bind fun e m he => silent_atExpressionEnd.then fun ended => ?_
    split
    · exact counts_pure he
    · exact (numbers_looseExpression start m).mono fun e' m' _ he' => he'.behind he.le

end Nested

/-- Expressions nested up to any depth are numbered. -/
theorem numbers_expressionWithin (k : Nat) : Numbers o (expressionWithin k) Expression.spans := by
  induction k with
  | zero => exact fun _ => counts_fault _
  | succ k ih => exact numbers_expressionOver ih

/-- **An expression is numbered.** -/
theorem numbers_expression : Numbers o expression Expression.spans := fun n c hc =>
  numbers_expressionWithin (c.rest.length + 1) n c hc

/-- The rounds over an expression list number the expressions that they add. -/
theorem numbersRound_expressionRound :
    NumbersRound o expressionRound (each Expression.spans) (each Expression.spans) := by
  rw [expressionRound_eq]
  exact numbersRound_commaRound numbers_expression silent_atExpressionEnd

/-- An expression list is numbered. -/
theorem numbers_expressionList : Numbers o expressionList Expression.spans := by
  intro n
  refine silent_peekStart.then fun start => (numbers_expression n).bind fun first m hfirst =>
    (silent_check _).then fun comma => ?_
  split
  · rw [← each_singleton (f := Expression.spans)] at hfirst
    refine (numbersRound_expressionRound.loop hfirst).bind fun elements m helements => ?_
    exact counts_display helements (fun _ => rfl) fun _ => rfl
  · exact counts_pure hfirst

end Outline
end Lineage
