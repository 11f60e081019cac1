/-
# Definitions have spans of their own

The readings of statements and definitions number what they find, from expressions on.  The
bindings of one statement share its value, each with a span of its own
(`counts_bindGroups`); an attempt at a binding that is given up leaves a gap in the numbers
(`numbers_lineBinding`); and what a class body has found is kept as its parts while more of
any kind is read behind it (`counts_memberDefinition`).  So the spans of a parsed outline are
numbered (`numbered_of_parse`).
-/

import Lineage.Proofs.Outline.Numbering

namespace Lineage
namespace Outline

open Source Reading Spans

variable {α : Type} {o : Origin} {t : Token} {module : String} {lo mid hi n start stop : Nat}

/-- The spans of an expression that is there are its own. -/
theorem optionSpans_some (e : Expression) : optionSpans (some e) = e.spans := each_singleton

/-- What stands behind a token that may be missing is numbered. -/
theorem numbers_ifNext {x : Reading α} {f : α → Spans} (hx : Numbers o x f) :
    Numbers o (ifNext t x) fun a => each f a.toList := by
  intro n
  refine (silent_accept t).then fun accepted => ?_
  split
  · refine (hx n).bind fun a m ha => counts_pure ?_
    rw [← each_singleton (f := f)] at ha
    exact ha
  · exact counts_pure (.empty (Nat.le_refl n))

/-! ### Bindings -/

/-- Expressions are no definitions. -/
theorem definitions_optionSpans (e : Option Expression) : (optionSpans e).definitions = [] := by
  cases e <;> rfl

/-- A binding is one definition. -/
theorem Binding.definitions_spans (b : Binding) :
    b.spans.definitions = (ofDefinition b.span).definitions := by
  rw [Binding.spans, definitions_append, definitions_append, definitions_optionSpans,
    definitions_optionSpans]
  rfl

/-- What a target takes of a value is among its expressions. -/
theorem expressions_subset_of_mem_targetValues {count : Nat} {value v : Option Expression}
    (hv : v ∈ targetValues count value) :
    (optionSpans v).expressions ⊆ (optionSpans value).expressions := by
  rcases cases_targetValues hv with rfl | rfl | ⟨display, elements, e, rfl, helements, he, rfl⟩
  · exact List.nil_subset _
  · exact List.Subset.refl _
  · rw [optionSpans_some, optionSpans_some]
    exact List.map_subset _ (Expression.nodes_subset_of_mem_elements helements he)

/-- Bindings with spans of their own, and with expressions among those of the spans `shared`. -/
structure BoundOver (module : String) (lo hi : Nat) (shared : List Span) (bound : List Binding) :
    Prop where
  numbered : Numbered module lo hi (each (fun b => ofDefinition b.span) bound)
  expressions_subset : (each Binding.spans bound).expressions ⊆ shared

namespace BoundOver

variable {shared : List Span} {bound bound' : List Binding} {b : Binding}

/-- Without bindings no spans are needed. -/
theorem nil (module : String) (n : Nat) (shared : List Span) : BoundOver module n n shared [] :=
  ⟨.empty (Nat.le_refl n), List.nil_subset _⟩

/-- Bindings behind others are numbered behind them. -/
theorem append (h : BoundOver module lo mid shared bound)
    (h' : BoundOver module mid hi shared bound') :
    BoundOver module lo hi shared (bound ++ bound') := by
  refine ⟨each_append ▸ h.numbered.append h'.numbered, ?_⟩
  rw [each_append]
  exact List.append_subset.2 ⟨h.expressions_subset, h'.expressions_subset⟩

/-- The bindings are numbered behind the expressions that they share. -/
theorem spans (h : BoundOver module mid hi shared bound)
    (hshared : Numbered module lo mid ⟨[], shared⟩) :
    Numbered module lo hi (each Binding.spans bound) := by
  refine (hshared.append h.numbered).of_subset ?_ ?_
  · exact congrArg (List.flatMap · bound) (funext Binding.definitions_spans)
  · exact List.Subset.trans h.expressions_subset (List.subset_append_left _ _)

end BoundOver

/-- Each target has a binding of its own. -/
theorem counts_bindEach {typeHint : Option Expression} {targets : List String}
    {values : List (Option Expression)} {shared : List Span}
    (htypeHint : (optionSpans typeHint).expressions ⊆ shared)
    (hvalues : ∀ v ∈ values, (optionSpans v).expressions ⊆ shared) :
    Counts o n (bindEach typeHint start stop targets values) fun bound m =>
      BoundOver o.module n m shared bound := by
  induction targets generalizing values n with
  | nil => exact counts_pure (.nil o.module n shared)
  | cons target targets ih =>
    cases values with
    | nil => exact counts_fault _
    | cons value values =>
      refine (numbers_makeSpan all_ofDefinition start stop n).bind fun s m hs => ?_
      refine (ih fun v hv => hvalues v (List.mem_cons_of_mem _ hv)).bind fun bound m' hbound => ?_
      have hone : BoundOver o.module n m shared [⟨target, value, typeHint, s⟩] := by
        refine ⟨each_singleton ▸ hs, ?_⟩
        rw [each_singleton]
        have hvalue := hvalues value List.mem_cons_self
        exact List.append_subset.2 ⟨List.append_subset.2 ⟨htypeHint, hvalue⟩, List.nil_subset _⟩
      exact counts_pure (hone.append hbound)

/-- **The bindings of a statement have spans of their own** behind the type hint and the value
that they share. -/
theorem counts_bindGroups {value typeHint : Option Expression} {groups : List (List String)}
    (h : Numbered o.module lo n (optionSpans typeHint ++ optionSpans value)) :
    Counts o n (bindGroups value typeHint start stop groups) fun bound m =>
      Numbered o.module lo m (each Binding.spans bound) := by
  have hgroups : ∀ groups n, Counts o n (bindGroups value typeHint start stop groups)
      fun bound m => BoundOver o.module n m
        (optionSpans typeHint ++ optionSpans value).expressions bound := by
    intro groups
    induction groups with
    | nil => exact fun n => counts_pure (.nil o.module n _)
    | cons targets groups ih =>
      intro n
      have hvalues : ∀ v ∈ targetValues targets.length value, (optionSpans v).expressions ⊆
          (optionSpans typeHint ++ optionSpans value).expressions := fun v hv =>
        List.Subset.trans (expressions_subset_of_mem_targetValues hv)
          (List.subset_append_right _ _)
      exact (counts_bindEach (List.subset_append_left _ _) hvalues).bind fun bound m hbound =>
        (ih m).bind fun bound' m' hbound' => counts_pure (hbound.append hbound')
  refine (hgroups groups n).mono fun bound m _ hbound => hbound.spans (h.of_subset ?_ ?_)
  · rw [definitions_append, definitions_optionSpans, definitions_optionSpans]
    rfl
  · exact List.Subset.refl _

/-- The value of an assignment is numbered, if there is one. -/
theorem numbers_optionalValue : Numbers o optionalValue optionSpans :=
  numbers_ifNext numbers_expressionList

/-- The spans of the last value of a chain. -/
def chainSpans (found : List (List String) × Expression) : Spans := optionSpans (some found.2)

/-- The values of a chain but the last one are targets, and dropped. -/
theorem numbers_chainedValue (targets : Expression → List (List String))
    (groups : List (List String)) : Numbers o (chainedValue targets groups) chainSpans := by
  have hvalue : Numbers o expressionList fun e => optionSpans (some e) := by
    simpa only [optionSpans_some] using numbers_expressionList
  have hround : NumbersRound o (chainRound targets) chainSpans chainSpans := by
    intro found lo n hfound
    refine (silent_accept _).then fun equals => ?_
    split
    · exact (hvalue n).bind fun next m hnext => counts_pure (hnext.behind hfound.le)
    · exact counts_pure hfound
  intro n
  refine (hvalue n).bind fun value m hvalue => ?_
  exact hround.loop (s := (groups, value)) hvalue

/-- A binding with an annotation is numbered. -/
theorem numbers_hintedBinding (start : Nat) :
    Numbers o (hintedBinding start) (each Binding.spans) := by
  intro n
  refine silent_expectIdentifier.then fun target => (silent_expect _).then fun _ => ?_
  refine (numbers_expression n).bind fun hint m hhint =>
    (numbers_optionalValue m).bind fun value m' hvalue => silent_lastStop.then fun stop => ?_
  rw [← optionSpans_some] at hhint
  exact counts_bindGroups (hhint.append hvalue)

/-- A plain assignment is numbered. -/
theorem numbers_plainBinding (start : Nat) :
    Numbers o (plainBinding start) (each Binding.spans) := by
  intro n
  refine silent_targetNames.then fun targets => (silent_expect _).then fun _ => ?_
  refine (numbers_chainedValue _ _ n).bind fun found m hvalue => silent_lastStop.then fun stop => ?_
  exact counts_bindGroups hvalue

/-- A binding of a class body is numbered. -/
theorem numbers_classBinding : Numbers o classBinding (each Binding.spans) := by
  intro n
  refine silent_peekStart.then fun start => (silent_peekAt 1).then fun second => ?_
  split
  · exact (numbers_hintedBinding start n).bind fun bound m hbound =>
      silent_finishStatement.then fun _ => counts_pure hbound
  · exact (numbers_plainBinding start n).bind fun bound m hbound =>
      silent_finishStatement.then fun _ => counts_pure hbound

/-! ### Bodies of functions -/

/-- The spans of the bindings of a statement, if it binds anything. -/
def foundSpans (found : Option (List Binding)) : Spans := each Binding.spans (found.getD [])

/-- A binding of the receiver is numbered, if one is found. -/
theorem numbers_receiverBinding (receiver : String) :
    Numbers o (receiverBinding receiver) foundSpans := by
  intro n
  refine silent_peekStart.then fun start => (silent_receiverTargets receiver).then fun targets => ?_
  have hnone : Counts o n (pure none) fun found m => Numbered o.module n m (foundSpans found) :=
    counts_pure (.empty (Nat.le_refl n))
  split
  · exact hnone
  · rename_i targets
    unfold receiverValues
    refine (silent_check _).then fun colon => ?_
    split
    · refine (silent_pass 1).then fun _ => (numbers_expression n).bind fun hint m hhint =>
        (numbers_optionalValue m).bind fun value m' hvalue => silent_lastStop.then fun stop => ?_
      rw [← optionSpans_some] at hhint
      exact (counts_bindGroups (hhint.append hvalue)).bind fun bound m hbound => counts_pure hbound
    · refine (silent_accept _).then fun equals => ?_
      split
      · refine (numbers_chainedValue _ _ n).bind fun found m hvalue =>
          silent_lastStop.then fun stop => ?_
        exact (counts_bindGroups hvalue).bind fun bound m hbound => counts_pure hbound
      · exact hnone

/-- A binding that is given up leaves nothing but a gap in the numbers. -/
theorem numbers_lineBinding (receiver : Option String) (s : LineState) :
    Numbers o (lineBinding receiver s) foundSpans := by
  intro n
  have hnone : ∀ m, n ≤ m → Numbered o.module n m (foundSpans none) := fun m hm => .empty hm
  unfold lineBinding
  split
  · split
    · exact (numbers_receiverBinding _ n).tentative hnone
    · exact counts_pure (hnone n (Nat.le_refl n))
  · exact counts_pure (hnone n (Nat.le_refl n))

/-- The spans of what has been found in a line. -/
def LineState.spans (s : LineState) : Spans := each Binding.spans s.found

/-- The rounds over a line number the bindings that they add. -/
theorem numbersRound_lineRound (receiver : Option String) :
    NumbersRound o (lineRound receiver) LineState.spans (each Binding.spans) := by
  intro s lo n hs
  refine silent_peek.then fun next => ?_
  split
  · exact counts_pure hs
  · split
    · exact (silent_pass 1).then fun _ => counts_pure hs
    · split
      · exact counts_pure hs
      · refine (numbers_lineBinding receiver s n).bind fun found m hfound => ?_
        split
        · exact counts_pure (hs.appendEach hfound)
        · exact (silent_pass 1).then fun _ => counts_pure (hs.mono (Nat.le_refl lo) hfound.le)

/-- The bindings of a line are numbered. -/
theorem numbers_lineBindings (receiver : Option String) :
    Numbers o (lineBindings receiver) (each Binding.spans) :=
  fun n => (numbersRound_lineRound receiver).loop (.empty (Nat.le_refl n))

/-- The spans of what has been found in a function body. -/
def BodyState.spans (s : BodyState) : Spans := each Binding.spans s.found

/-- The rounds over a function body number the bindings of its lines. -/
theorem numbersRound_bodyRound (receiver : Option String) :
    NumbersRound o (bodyRound receiver) BodyState.spans (each Binding.spans) := by
  intro s lo n hs
  refine silent_peek.then fun next => ?_
  split
  · exact counts_pure hs
  · exact (silent_pass 1).then fun _ => counts_pure hs
  · refine (silent_pass 1).then fun _ => ?_
    split
    · exact counts_fault _
    · exact counts_pure hs
    · exact counts_pure hs
  · refine silent_atFunction.then fun isFunction => ?_
    split
    · exact silent_passStatement.then fun _ => counts_pure hs
    · exact (numbers_lineBindings receiver n).bind fun more m hmore =>
        counts_pure (hs.appendEach hmore)

/-- The spans of the bindings in a function body. -/
def bodySpans (body : Option String × List Binding) : Spans := each Binding.spans body.2

/-- The bindings of a function body are numbered. -/
theorem numbers_functionBody (receiver : Option String) :
    Numbers o (functionBody receiver) bodySpans := by
  intro n
  have hempty : Numbered o.module n n .empty := .empty (Nat.le_refl n)
  refine (silent_accept _).then fun newline => ?_
  split
  · refine (silent_expect _).then fun _ => silent_docstring.then fun doc => ?_
    have hbody := (numbersRound_bodyRound (o := o) receiver).loop (s := ⟨1, []⟩) hempty
    exact hbody.bind fun found m hfound => counts_pure hfound
  · refine silent_docstring.then fun doc => silent_afterNewline.then fun ended => ?_
    split
    · exact counts_pure hempty
    · exact (numbers_lineBindings receiver n).bind fun found m hfound => counts_pure hfound

/-! ### Functions -/

/-- Decorators are numbered. -/
theorem numbers_decorators : Numbers o decorators (each Decorator.spans) := by
  have hround : NumbersRound o decoratorRound (each Decorator.spans) (each Decorator.spans) := by
    intro found lo n hfound
    refine (silent_check _).then fun atSign => ?_
    split
    · refine silent_peekStart.then fun start => (silent_pass 1).then fun _ =>
        (numbers_expression n).bind fun e m he => silent_lastStop.then fun stop =>
        (silent_expect _).then fun _ => ?_
      exact (numbers_makeSpan all_ofDefinition start stop m).bind fun s m' hs =>
        counts_pure (hfound.concat (he.append hs))
    · exact counts_pure hfound
  intro n
  refine (hround.loop (.empty (Nat.le_refl n))).bind fun found m hfound =>
    (silent_check _).then fun isClass => ?_
  split
  · exact counts_pure hfound
  · refine silent_atFunction.then fun isFunction => ?_
    split
    · exact counts_pure hfound
    · exact counts_refuseNext _

/-- The spans of the parameters found so far. -/
def ParameterState.spans (s : ParameterState) : Spans := each Parameter.spans s.found

/-- A star or a slash among the parameters makes no span. -/
theorem numbersRound_parameterMark :
    NumbersRound o parameterMark ParameterState.spans (each Parameter.spans) := by
  intro s lo n hs
  refine (silent_accept _).then fun comma => ?_
  split <;> exact counts_pure hs

/-- A parameter with a name is numbered behind those before it. -/
theorem numbersRound_namedParameter (kind : ParameterKind) :
    NumbersRound o (namedParameter · kind) ParameterState.spans (each Parameter.spans) := by
  intro s lo n hs
  refine silent_expectIdentifier.then fun name => ?_
  refine (numbers_ifNext numbers_expression n).bind fun hint m hhint =>
    (numbers_ifNext numbers_expression m).bind fun default m' hdefault =>
    (silent_accept _).then fun comma => ?_
  have hmore := hs.concat (a := ⟨name, kind, hint, default⟩) (hhint.append hdefault)
  split <;> exact counts_pure hmore

/-- The rounds over the parameters number those that they add. -/
theorem numbersRound_parameterRound :
    NumbersRound o parameterRound ParameterState.spans (each Parameter.spans) := by
  intro s lo n hs
  refine (silent_check _).then fun closed => ?_
  split
  · exact counts_pure hs
  · refine silent_peek.then fun next => ?_
    split
    · exact (silent_pass 1).then fun _ => numbersRound_parameterMark s lo n hs
    · refine (silent_pass 1).then fun _ => silent_peek.then fun second => ?_
      split
      · exact numbersRound_namedParameter _ ⟨true, s.found⟩ lo n hs
      · exact numbersRound_parameterMark ⟨true, s.found⟩ lo n hs
    · exact (silent_pass 1).then fun _ => numbersRound_namedParameter _ s lo n hs
    · exact numbersRound_namedParameter _ s lo n hs
    · exact counts_refuseNext _

/-- Parameters are numbered. -/
theorem numbers_parameters : Numbers o parameters (each Parameter.spans) := by
  intro n
  have hempty : Numbered o.module n n .empty := .empty (Nat.le_refl n)
  exact (numbersRound_parameterRound.loop (s := ⟨false, []⟩) hempty).bind fun found m hfound =>
    (silent_expect _).then fun _ => counts_pure hfound

/-- **A function is numbered**, behind its decorators. -/
theorem counts_functionDefinition {ds : List Decorator}
    (hds : Numbered o.module lo n (each Decorator.spans ds)) :
    Counts o n (functionDefinition ds) fun f m => Numbered o.module lo m f.spans := by
  refine silent_peekStart.then fun start => (silent_accept _).then fun isAsync =>
    (silent_expect _).then fun _ => silent_expectIdentifier.then fun name =>
    (silent_expect _).then fun _ => ?_
  refine (numbers_parameters n).bind fun parameters n₁ hparameters => ?_
  refine (numbers_ifNext numbers_expression n₁).bind fun returns n₂ hreturns =>
    (silent_expect _).then fun _ => ?_
  refine (numbers_functionBody _ n₂).bind fun body n₃ hbody => ?_
  refine (numbers_spanFrom all_ofDefinition start n₃).bind fun span n₄ hspan => counts_pure ?_
  exact (((hds.append hparameters).append hreturns).append hbody).append hspan

/-! ### Classes -/

/-- Classes, with those in them, are numbered behind their decorators. -/
def NumbersClass (o : Origin) (inner : List Decorator → Reading ClassOutline) : Prop :=
  ∀ ds lo n, Numbered o.module lo n (each Decorator.spans ds) →
    Counts o n (inner ds) fun k m => Numbered o.module lo m (each ClassOutline.spans k.preorder)

/-- The spans of what has been found in a class body. -/
def ClassBody.spans (b : ClassBody) : Spans :=
  each FunctionOutline.spans b.methods ++ each Binding.spans b.bindings
    ++ each ClassOutline.spans (preorderAll b.classes)

/-- The spans of a class behind others stand behind theirs. -/
theorem each_preorderAll_concat (ks : List ClassOutline) (k : ClassOutline) :
    each ClassOutline.spans (preorderAll (ks ++ [k])) =
      each ClassOutline.spans (preorderAll ks) ++ each ClassOutline.spans k.preorder := by
  rw [preorderAll_append, preorderAll_singleton, each_append]

section Scope

variable {σ : Type} {inner : List Decorator → Reading ClassOutline} {addClass : ClassOutline → σ}
  {addFunction : FunctionOutline → σ} {spansOf : σ → Spans} {found : σ}

/-- A definition is numbered behind what has been found, if classes and functions are put where
their spans stand last. -/
theorem counts_definitionOf (hinner : NumbersClass o inner) {ds : List Decorator}
    (hclass : ∀ {k m}, Numbered o.module lo m
      (spansOf found ++ each ClassOutline.spans k.preorder) →
        Numbered o.module lo m (spansOf (addClass k)))
    (hfunction : ∀ {f m}, Numbered o.module lo m (spansOf found ++ f.spans) →
      Numbered o.module lo m (spansOf (addFunction f)))
    (hfound : Numbered o.module lo mid (spansOf found))
    (hds : Numbered o.module mid n (each Decorator.spans ds)) :
    Counts o n (definitionOf inner addClass addFunction ds) fun found' m =>
      Numbered o.module lo m (spansOf found') := by
  refine (silent_check _).then fun isClass => ?_
  split
  · exact (hinner ds mid n hds).bind fun k m hk => counts_pure (hclass (hfound.append hk))
  · exact (counts_functionDefinition hds).bind fun f m hf =>
      counts_pure (hfunction (hfound.append hf))

/-- A statement of a scope is numbered behind what has been found, if the definitions and the simple
ones are. -/
theorem counts_statementOf {definition : List Decorator → Reading σ} {simple : Reading σ}
    (hdefinition : ∀ ds m, Numbered o.module n m (each Decorator.spans ds) →
      Counts o m (definition ds) fun found' m => Numbered o.module lo m (spansOf found'))
    (hfound : Numbered o.module lo n (spansOf found))
    (hsimple : Counts o n simple fun found' m => Numbered o.module lo m (spansOf found')) :
    Counts o n (statementOf definition simple found) fun found' m =>
      Numbered o.module lo m (spansOf found') := by
  have hnone := hdefinition [] n (.empty (Nat.le_refl n))
  refine silent_peek.then fun next => ?_
  split
  · exact (silent_pass 1).then fun _ => counts_pure hfound
  · exact silent_peekPlace.then fun _ => counts_refuse _
  · exact (numbers_decorators n).bind hdefinition
  · exact hnone
  · refine silent_atFunction.then fun isFunction => ?_
    split
    · exact hnone
    · exact hsimple

end Scope

section Nested

variable {inner : List Decorator → Reading ClassOutline} (hinner : NumbersClass o inner)

include hinner

/-- A member of a class body is numbered behind the members before it. -/
theorem counts_memberDefinition {found : ClassBody} {ds : List Decorator}
    (hfound : Numbered o.module lo mid found.spans)
    (hds : Numbered o.module mid n (each Decorator.spans ds)) :
    Counts o n (memberDefinition inner found ds) fun found' m =>
      Numbered o.module lo m found'.spans := by
  refine counts_definitionOf hinner (fun hmore => ?_) (fun hmore => ?_) hfound hds
  · rw [ClassBody.spans, append_assoc, ← each_preorderAll_concat] at hmore
    exact hmore
  · rw [ClassBody.spans, append_assoc (each FunctionOutline.spans _)] at hmore
    have hswapped := hmore.swap
    rw [← each_singleton (f := FunctionOutline.spans), ← each_append, ← append_assoc] at hswapped
    exact hswapped

/-- A statement of a class body is numbered behind those before it. -/
theorem counts_classStatement {found : ClassBody} (hfound : Numbered o.module lo n found.spans) :
    Counts o n (classStatement inner found) fun found' m =>
      Numbered o.module lo m found'.spans := by
  refine counts_statementOf (fun ds m hds => counts_memberDefinition hinner hfound hds) hfound ?_
  refine silent_ahead.then fun tokens => ?_
  split
  · refine (numbers_classBinding n).bind fun bound m hbound => counts_pure ?_
    have hswapped := (hfound.append hbound).swap
    rw [append_assoc (each FunctionOutline.spans _), ← each_append] at hswapped
    exact hswapped
  · exact silent_passStatement.then fun _ => counts_pure hfound

/-- The rounds over an indented class body number what they add. -/
theorem numbersRound_indentedRound :
    NumbersRound o (indentedRound inner) ClassBody.spans ClassBody.spans := by
  intro found lo n hfound
  refine silent_atEnd.then fun ended => ?_
  split
  · exact counts_pure hfound
  · refine (silent_accept _).then fun dedent => ?_
    split
    · exact counts_pure hfound
    · exact (counts_classStatement hinner hfound).bind fun found' m hfound' => counts_pure hfound'

/-- The rounds over a class body on its header's line number what they add. -/
theorem numbersRound_inlineRound :
    NumbersRound o (inlineRound inner) ClassBody.spans ClassBody.spans := by
  intro found lo n hfound
  refine silent_afterNewline.then fun newline => ?_
  split
  · exact counts_pure hfound
  · refine (silent_check _).then fun dedent => ?_
    split
    · exact counts_pure hfound
    · refine silent_atEnd.then fun ended => ?_
      split
      · exact counts_pure hfound
      · exact (counts_classStatement hinner hfound).bind fun found' m hfound' =>
          counts_pure hfound'

/-- A class body is numbered. -/
theorem counts_classBody :
    Counts o n (classBody inner) fun r m => Numbered o.module n m r.2.spans := by
  have hempty : Numbered o.module n n (ClassBody.spans ⟨[], [], []⟩) := .empty (Nat.le_refl n)
  refine (silent_accept _).then fun newline => ?_
  split
  · refine (silent_expect _).then fun _ => silent_docstring.then fun doc => ?_
    exact ((numbersRound_indentedRound hinner).loop hempty).bind fun found m hfound =>
      counts_pure hfound
  · refine silent_docstring.then fun doc => ?_
    exact ((numbersRound_inlineRound hinner).loop hempty).bind fun found m hfound =>
      counts_pure hfound

omit hinner in
/-- The arguments of a class header are numbered. -/
theorem numbers_classArguments : Numbers o classArguments (each Argument.spans) := by
  intro n
  refine (numbers_ifNext (numbers_arguments numbers_expression) n).bind fun found m hfound =>
    counts_pure ?_
  cases found with
  | none => exact hfound
  | some found =>
    rw [← each_singleton (f := each Argument.spans)]
    exact hfound

omit hinner in
/-- The parts of a class header have the spans of its arguments. -/
theorem Numbered.headerParts {header : List (Argument Expression)}
    (h : Numbered module lo hi (each Argument.spans header)) :
    Numbered module lo hi (headerSpans (headerParts header).1 (headerParts header).2) := by
  refine h.of_subset ?_ ?_
  · rw [headerSpans, definitions_append, each_expression_spans, each_argument_spans,
      each_argument_spans]
    rfl
  · clear h
    induction header with
    | nil => exact List.nil_subset _
    | cons a header ih =>
      have hself : a.spans.expressions ⊆ (each Argument.spans (a :: header)).expressions :=
        List.subset_append_left _ _
      have hrest := List.Subset.trans ih (List.subset_append_right a.spans.expressions _)
      obtain ⟨hbases, hkeywords⟩ := List.append_subset.1 hrest
      unfold Outline.headerParts
      dsimp only
      split
      · exact List.append_subset.2 ⟨List.append_subset.2 ⟨hself, hbases⟩, hkeywords⟩
      · have hstarred : (Expression.other ("*" ++ a.value.text) a.value.span).spans.expressions ⊆
            a.spans.expressions := by
          refine List.cons_subset.2 ⟨?_, List.nil_subset _⟩
          exact List.mem_map.2 ⟨a.value, Expression.mem_nodes_self a.value, rfl⟩
        exact List.append_subset.2
          ⟨List.append_subset.2 ⟨List.Subset.trans hstarred hself, hbases⟩, hkeywords⟩
      · exact List.append_subset.2 ⟨hbases, List.append_subset.2 ⟨hself, hkeywords⟩⟩

/-- **A class is numbered, with the classes in it**, if those are. -/
theorem numbersClass_classOver : NumbersClass o (classOver inner) := by
  intro ds lo n hds
  refine silent_peekStart.then fun start => (silent_expect _).then fun _ =>
    silent_expectIdentifier.then fun name => ?_
  refine (numbers_classArguments n).bind fun header n₁ hheader => (silent_expect _).then fun _ => ?_
  refine (counts_classBody hinner).bind fun body n₂ hbody => ?_
  refine (numbers_spanFrom all_ofDefinition start n₂).bind fun span n₃ hspan => counts_pure ?_
  have hparts := (hds.append hheader.headerParts).append hbody
  rw [ClassBody.spans, ← append_assoc, ← append_assoc] at hparts
  rw [preorder_eq, each_cons]
  exact (hparts.append hspan).swap

end Nested

/-- Classes nested up to any depth are numbered. -/
theorem numbersClass_classWithin (depth : Nat) : NumbersClass o (classWithin depth) := by
  induction depth with
  | zero => exact fun _ _ _ _ => counts_fault _
  | succ depth ih => exact numbersClass_classOver ih

/-- A class is numbered, with those in it. -/
theorem numbersClass_classDefinition : NumbersClass o classDefinition := fun ds lo n hds c hc =>
  numbersClass_classWithin (c.rest.length + 1) ds lo n hds c hc

/-! ### Modules -/

/-- The spans of what has been found at the top level. -/
def TopLevel.spans (found : TopLevel) : Spans :=
  each ClassOutline.spans (preorderAll found.classes)
    ++ each FunctionOutline.spans found.functions

/-- A definition at the top of a module is numbered behind what has been found. -/
theorem counts_topDefinition {found : TopLevel} {ds : List Decorator}
    (hfound : Numbered o.module lo mid found.spans)
    (hds : Numbered o.module mid n (each Decorator.spans ds)) :
    Counts o n (topDefinition found ds) fun found' m => Numbered o.module lo m found'.spans := by
  refine counts_definitionOf numbersClass_classDefinition (fun hmore => ?_) (fun hmore => ?_) hfound
    hds
  · have hswapped := hmore.swap
    rw [← each_preorderAll_concat] at hswapped
    exact hswapped
  · rw [TopLevel.spans, append_assoc, ← each_singleton (f := FunctionOutline.spans),
      ← each_append] at hmore
    exact hmore

/-- A statement of a module is numbered behind those before it. -/
theorem counts_topStatement {found : TopLevel} (hfound : Numbered o.module lo n found.spans) :
    Counts o n (topStatement found) fun found' m => Numbered o.module lo m found'.spans := by
  rw [topStatement_eq]
  refine counts_statementOf (fun ds m hds => counts_topDefinition hfound hds) hfound ?_
  refine (silent_check _).then fun isDedent => ?_
  split
  · exact (silent_pass 1).then fun _ => counts_pure hfound
  · exact silent_passStatement.then fun _ => counts_pure hfound

/-- The rounds over a module number what they add. -/
theorem numbersRound_topRound : NumbersRound o topRound TopLevel.spans TopLevel.spans := by
  intro found lo n hfound
  refine silent_atEnd.then fun ended => ?_
  split
  · exact counts_pure hfound
  · exact (counts_topStatement hfound).bind fun found' m hfound' => counts_pure hfound'

/-- A module is numbered: every definition and every expression of it has a span of its own. -/
theorem numbers_moduleOutline : Numbers o moduleOutline ModuleOutline.spans := by
  intro n
  refine silent_sourceSize.then fun size =>
    (numbers_makeSpan all_ofDefinition 0 size n).bind fun span m hspan =>
    silent_docstring.then fun doc => ?_
  have hempty : Numbered o.module m m (TopLevel.spans ⟨[], []⟩) := .empty (Nat.le_refl m)
  refine (numbersRound_topRound.loop hempty).bind fun found m' hfound => counts_pure ?_
  have hall := hspan.append hfound
  rw [TopLevel.spans, ← append_assoc] at hall
  exact hall

/-- **The spans of a parsed outline are numbered**, those of its definitions apart from each
other. -/
theorem numbered_of_parse {source path : String} {m : ModuleOutline}
    (h : parse source path = .outline m) : ∃ n, Numbered (moduleId path) 0 n m.spans := by
  refine of_parse (P := fun m => ∃ n, Numbered (moduleId path) 0 n m.spans) h fun tokens _ => ?_
  have hmodule := numbers_moduleOutline (o := ⟨source.toList, moduleId path⟩) 0
  exact (hmodule.ends (c := .first tokens)).mono fun m c hm => ⟨c.made, hm⟩

end Outline
end Lineage
