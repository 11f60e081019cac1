/-
# Attributes that are read alike

An attribute is what a binding is without its place: its target, and the texts of its type hint
and of its value (`Binding.attribute`).  On a stretch that two sources share the bindings of a
statement are read with the same attributes (`sim_boundNames`), and the headers of definitions and
their decorators are read to twin places (`sim_classHeader`, `sim_functionHeader`,
`sim_decorators`).
-/

import Lineage.Proofs.Outline.Alike

namespace Lineage
namespace Outline

open Source Reading Text Parallel

variable {o o' : Origin} {W : Parallel o o'} {i i' j j' : Nat}

-- a reading of many steps goes on because each of its steps does
set_option synthInstance.maxSize 400

/-! ### Attributes -/

/-- What a binding is without its place. -/
def Binding.attribute (b : Binding) : String × Option String × Option String :=
  (b.target, b.typeHint.map Expression.text, b.value.map Expression.text)

/-- Both are expressions that are alike, or neither is there. -/
def AlikeOption (e e' : Option Expression) : Prop :=
  e.map Expression.bare = e'.map Expression.bare

/-- The bindings have the same attributes, in order. -/
def SameAttributes (bs bs' : List Binding) : Prop :=
  bs.map Binding.attribute = bs'.map Binding.attribute

/-- Bindings behind each other bind the same attributes if both parts do. -/
theorem SameAttributes.append {bs bs' cs cs' : List Binding} (h : SameAttributes bs bs')
    (h' : SameAttributes cs cs') : SameAttributes (bs ++ cs) (bs' ++ cs') := by
  unfold SameAttributes at h h' ⊢
  rw [List.map_append, List.map_append, h, h']

/-- Bindings bind the same attributes if the first ones do and the others do. -/
theorem SameAttributes.cons {b b' : Binding} {bs bs' : List Binding}
    (h : SameAttributes [b] [b']) (h' : SameAttributes bs bs') :
    SameAttributes (b :: bs) (b' :: bs') := h.append h'

/-- Optional expressions are alike if they are there together, and alike then. -/
theorem alikeOption_of_rel {e e' : Option Expression} (h : Option.Rel Expression.Alike e e') :
    AlikeOption e e' := by
  cases h with
  | none => rfl
  | some h => exact congrArg some h

/-- Expressions that are there are alike as optional ones. -/
theorem alikeOption_some {e e' : Expression} (h : e.Alike e') :
    AlikeOption (some e) (some e') := congrArg some h

/-- Alike optional expressions have the same text. -/
theorem AlikeOption.text {e e' : Option Expression} (h : AlikeOption e e') :
    e.map Expression.text = e'.map Expression.text := by
  have htext : ∀ e : Option Expression, e.map Expression.text =
      (e.map Expression.bare).map Expression.text := by
    intro e
    cases e with
    | none => rfl
    | some e => exact congrArg some e.text_bare.symm
  rw [htext e, h, ← htext]

/-- The values of the targets of an expression without places are those values without theirs. -/
theorem targetValues_bare (count : Nat) (value : Option Expression) :
    targetValues count (value.map Expression.bare) =
      (targetValues count value).map (·.map Expression.bare) := by
  have helements : (value.map Expression.bare).bind (·.elements?) =
      (value.bind (·.elements?)).map (·.map Expression.bare) := by
    cases value with
    | none => rfl
    | some e => exact e.elements?_bare
  unfold targetValues
  rw [helements]
  split_ifs with hone hle
  · rfl
  · omega
  · simp
  · cases value.bind (·.elements?) with
    | none => simp
    | some elements =>
      simp only [Option.map_some, List.length_map]
      split <;> simp

/-! ### Bindings -/

/-- Targets are bound going onward, whatever their values. -/
instance (typeHint : Option Expression) (start stop : Nat) (targets : List String)
    (values : List (Option Expression)) :
    Onward (bindEach typeHint start stop targets values) := by
  induction targets generalizing values with
  | nil => exact inferInstanceAs (Onward (pure _))
  | cons target targets ih =>
    cases values with
    | nil => exact inferInstanceAs (Onward (fault _))
    | cons value values => exact .seq inferInstance fun _ => .seq (ih values) fun _ => inferInstance

/-- Groups of targets are bound going onward. -/
instance (value typeHint : Option Expression) (start stop : Nat) (groups : List (List String)) :
    Onward (bindGroups value typeHint start stop groups) := by
  induction groups with
  | nil => exact inferInstanceAs (Onward (pure _))
  | cons targets groups ih => exact .seq inferInstance fun _ => .seq ih fun _ => inferInstance

/-- An optional value is read going onward. -/
instance : Onward optionalValue := inferInstanceAs (Onward (ifNext _ _))

/-- One more link of an assignment is read going onward. -/
instance (targets : Expression → List (List String)) (found : List (List String) × Expression) :
    Onward (chainRound targets found) := by
  unfold chainRound
  infer_instance

/-- The value behind all targets of an assignment is read going onward. -/
instance (targets : Expression → List (List String)) (groups : List (List String)) :
    Onward (chainedValue targets groups) := by
  unfold chainedValue
  infer_instance

/-- One more name of a target list is read going onward. -/
instance (names : List String) : Onward (targetRound names) := by
  unfold targetRound
  infer_instance

/-- The names of a target list are read going onward. -/
instance : Onward targetNames := by
  unfold targetNames
  infer_instance

/-- A binding with a type hint is read going onward. -/
instance (start : Nat) : Onward (hintedBinding start) := by
  unfold hintedBinding
  infer_instance

/-- A binding without an annotation is read going onward. -/
instance (start : Nat) : Onward (plainBinding start) := by
  unfold plainBinding
  infer_instance

/-- Alike values bind targets to the same attributes. -/
theorem sim_bindEach {hint hint' : Option Expression} (hhint : AlikeOption hint hint')
    (targets : List String) {values values' : List (Option Expression)}
    (h : values.map (·.map Expression.bare) = values'.map (·.map Expression.bare)) :
    W.Sim (bindEach hint i j targets values) (bindEach hint' i' j' targets values')
      SameAttributes := by
  induction targets generalizing values values' with
  | nil => exact sim_pure rfl
  | cons target targets ih =>
    cases values with
    | nil => exact sim_fault
    | cons value values =>
      cases values' with
      | nil => cases h
      | cons value' values' =>
        obtain ⟨hvalue, hvalues⟩ := List.cons.inj h
        refine (sim_makeSpan i j i' j').bind fun s s' _ => (ih hvalues).bind fun bs bs' hbs => ?_
        refine sim_pure (SameAttributes.cons ?_ hbs)
        exact congrArg ([·]) (congrArg₂ (fun hint value => (target, hint, value)) hhint.text
          (AlikeOption.text hvalue))

/-- Groups of targets bind the same attributes where values and annotations are alike. -/
theorem sim_bindGroups {value value' hint hint' : Option Expression}
    (hvalue : AlikeOption value value') (hhint : AlikeOption hint hint')
    (groups : List (List String)) :
    W.Sim (bindGroups value hint i j groups) (bindGroups value' hint' i' j' groups)
      SameAttributes := by
  induction groups with
  | nil => exact sim_pure rfl
  | cons targets groups ih =>
    have hvalues : (targetValues targets.length value).map (·.map Expression.bare) =
        (targetValues targets.length value').map (·.map Expression.bare) := by
      rw [← targetValues_bare, hvalue, targetValues_bare]
    exact (sim_bindEach hhint targets hvalues).bind fun _ _ h => ih.bind fun _ _ h' =>
      sim_pure (h.append h')

/-- An optional value is read alike in both sources. -/
theorem sim_optionalValue : W.Sim optionalValue optionalValue AlikeOption :=
  (sim_ifNext (by decide) sim_expressionList).mono fun _ _ => alikeOption_of_rel

/-- The same targets, and values that are alike. -/
def AlikeChain (f f' : List (List String) × Expression) : Prop := f.1 = f'.1 ∧ f.2.Alike f'.2

/-- One more link of an assignment is read alike. -/
theorem sim_chainRound {f f' : List (List String) × Expression} (h : AlikeChain f f') :
    W.Sim (chainRound classTargets f) (chainRound classTargets f')
      (Rounds AlikeChain AlikeChain) := by
  refine (sim_accept (by decide)).bind fun b _ hb => ?_
  subst hb
  refine Sim.ite (fun _ => ?_) fun _ => sim_pure (.stop h)
  exact sim_expressionList.bind fun e e' he =>
    sim_pure (.again ⟨congrArg₂ (· ++ ·) h.1 h.2.classTargets, he⟩)

/-- The value behind all targets of an assignment is read alike. -/
theorem sim_chainedValue (groups : List (List String)) :
    W.Sim (chainedValue classTargets groups) (chainedValue classTargets groups) AlikeChain :=
  sim_expressionList.bind fun _ _ he =>
    Sim.repeatRounds (fun _ _ => sim_chainRound) ⟨rfl, he⟩

/-- The same names are read in a target list. -/
theorem sim_targetNames : W.Sim targetNames targetNames Eq := by
  have hround : ∀ names names', names = names' →
      W.Sim (targetRound names) (targetRound names') (Rounds Eq Eq) := by
    rintro names _ rfl
    refine sim_expectIdentifier.bind fun name _ hname => ?_
    subst hname
    refine (sim_accept (by decide)).bind fun b _ hb => ?_
    subst hb
    refine Sim.ite (fun _ => ?_) fun _ => sim_pure (.stop rfl)
    refine (sim_check (by decide)).bind fun b _ hb => ?_
    subst hb
    exact Sim.ite (fun _ => sim_pure (.stop rfl)) fun _ => sim_pure (.again rfl)
  exact Sim.repeatRounds hround rfl

/-- A binding with a type hint binds the same attributes. -/
theorem sim_hintedBinding (i i' : Nat) :
    W.Sim (hintedBinding i) (hintedBinding i') SameAttributes := by
  refine sim_expectIdentifier.bind fun target _ htarget => ?_
  subst htarget
  refine (sim_expect (by decide)).bind fun _ _ _ => sim_expression.bind fun hint hint' hhint => ?_
  refine sim_optionalValue.bind fun value value' hvalue => sim_lastStop.bind fun _ _ _ => ?_
  exact sim_bindGroups hvalue (alikeOption_some hhint) _

/-- A binding without an annotation binds the same attributes in both sources. -/
theorem sim_plainBinding (i i' : Nat) :
    W.Sim (plainBinding i) (plainBinding i') SameAttributes := by
  refine sim_targetNames.bind fun targets _ htargets => ?_
  subst htargets
  refine (sim_expect (by decide)).bind fun _ _ _ => (sim_chainedValue _).bind fun f f' hf => ?_
  obtain ⟨groups, value⟩ := f
  obtain ⟨_, value'⟩ := f'
  obtain ⟨rfl, hvalue⟩ := hf
  exact sim_lastStop.bind fun _ _ _ => sim_bindGroups (alikeOption_some hvalue) rfl groups

/-- The bindings of a statement of a class body, up to its end. -/
def boundNames : Reading (List Binding) := do
  let start ← peekStart
  if (← peekAt 1) == some .colon then hintedBinding start else plainBinding start

/-- A binding of a class body is read up to its last value, and then to the end of its statement. -/
theorem classBinding_eq : classBinding = do
    let bound ← boundNames
    finishStatement
    return bound := by
  simp only [classBinding, boundNames, bind_assoc]
  refine bind_congr fun start => bind_congr fun t => ?_
  split <;> rfl

/-- The names of a binding are read going onward. -/
instance : Onward boundNames := by
  unfold boundNames
  infer_instance

/-- **The names that a statement binds are read with the same attributes.** -/
theorem sim_boundNames : W.Sim boundNames boundNames SameAttributes := by
  refine sim_peekStart.bind fun i i' _ => (sim_peekAt 1).bind fun t t' ht => ?_
  rw [ht.beq_eq (by decide)]
  exact Sim.ite (fun _ => sim_hintedBinding i i') fun _ => sim_plainBinding i i'

/-! ### Headers -/

/-- To look for a function passes nothing. -/
instance : Onward atFunction := ⟨fun _ c => ends_atFunction.2 (Reaches.refl c)⟩

/-- A mark in a parameter list is passed going onward. -/
instance (s : ParameterState) : Onward (parameterMark s) := by
  unfold parameterMark
  infer_instance

/-- A parameter is read going onward from its name on. -/
instance (s : ParameterState) (kind : ParameterKind) : Onward (namedParameter s kind) := by
  unfold namedParameter
  infer_instance

/-- One item of a parameter list is read going onward. -/
instance (s : ParameterState) : Onward (parameterRound s) := by
  refine .seq inferInstance fun b => ?_
  cases b with
  | true => exact inferInstanceAs (Onward (pure _))
  | false =>
    refine .seq (x := peek) inferInstance fun t => ?_
    split
    · infer_instance
    · exact .seq inferInstance fun _ => .seq inferInstance fun _ => by split <;> infer_instance
    · infer_instance
    · infer_instance
    · infer_instance

/-- A parameter list is read going onward. -/
instance : Onward parameters := by
  unfold parameters
  infer_instance

/-- The header of a function is read going onward. -/
instance : Onward functionHeader := by
  unfold functionHeader
  infer_instance

/-- The arguments in the header of a class are read going onward. -/
instance : Onward classArguments := by
  unfold classArguments
  infer_instance

/-- The header of a class is read going onward. -/
instance : Onward classHeader := by
  unfold classHeader
  infer_instance

/-- A decorator line is read going onward. -/
instance (found : List Decorator) : Onward (decoratorRound found) := by
  unfold decoratorRound
  infer_instance

/-- The decorators of a definition are read going onward. -/
instance : Onward decorators := by
  unfold decorators
  infer_instance

/-- A mark in a parameter list is passed in both sources. -/
theorem sim_parameterMark (s s' : ParameterState) :
    W.Sim (parameterMark s) (parameterMark s') (Rounds Anything Anything) := by
  refine (sim_accept (by decide)).bind fun b _ hb => ?_
  subst hb
  exact Sim.ite (fun _ => sim_pure (.again trivial)) fun _ => sim_pure (.stop trivial)

/-- A parameter is read in both sources. -/
theorem sim_namedParameter (s s' : ParameterState) (kind kind' : ParameterKind) :
    W.Sim (namedParameter s kind) (namedParameter s' kind') (Rounds Anything Anything) := by
  have hafter : ∀ t : Token, t ≠ .semicolon ∧ t ≠ .newline →
      W.Sim (ifNext t expression) (ifNext t expression) Anything := fun t ht =>
    (sim_ifNext ht sim_expression).mono fun _ _ _ => trivial
  refine sim_expectIdentifier.bind fun name _ _ => ?_
  refine (hafter .colon (by decide)).bind fun _ _ _ =>
    (hafter .equals (by decide)).bind fun _ _ _ => ?_
  refine (sim_accept (by decide)).bind fun b _ hb => ?_
  subst hb
  exact Sim.ite (fun _ => sim_pure (.again trivial)) fun _ => sim_pure (.stop trivial)

/-- One item of a parameter list is read in both sources. -/
theorem sim_parameterRound (s s' : ParameterState) :
    W.Sim (parameterRound s) (parameterRound s') (Rounds Anything Anything) := by
  refine (sim_check (by decide)).bind_of (fun b => ?_) fun b _ hb => ?_
  · cases b with
    | true => exact inferInstanceAs (Onward (pure _))
    | false =>
      refine .seq (x := peek) inferInstance fun _ => ?_
      split <;> try infer_instance
      exact .seq inferInstance fun _ => .seq inferInstance fun _ => by split <;> infer_instance
  subst hb
  refine Sim.ite (fun _ => sim_pure (.stop trivial)) fun _ => ?_
  refine sim_peek.bind_of (fun _ => ?_) fun t t' ht => ?_
  · split <;> try infer_instance
    exact .seq inferInstance fun _ => .seq inferInstance fun _ => by split <;> infer_instance
  rcases ht with rfl | ⟨rfl, rfl⟩
  · split
    · exact (sim_pass 1).bind fun _ _ _ => sim_parameterMark s s'
    · refine (sim_pass 1).bind_of (fun _ => .seq inferInstance fun _ => by split <;> infer_instance)
        fun _ _ _ => sim_peek.bind_of (fun _ => by split <;> infer_instance) fun t t' ht => ?_
      rcases ht with rfl | ⟨rfl, rfl⟩
      · split
        · exact sim_namedParameter _ _ _ _
        · exact sim_parameterMark _ _
      · exact sim_parameterMark _ _
    · exact (sim_pass 1).bind fun _ _ _ => sim_namedParameter _ _ _ _
    · exact sim_namedParameter _ _ _ _
    · exact sim_refuseNext
  · exact sim_refuseNext

/-- A parameter list that is read in the one source is read in the other. -/
theorem sim_parameters : W.Sim parameters parameters Anything := by
  have hrounds : W.Sim (repeatRounds parameterRound ⟨false, []⟩)
      (repeatRounds parameterRound ⟨false, []⟩) Anything :=
    Sim.repeatRounds (S := Anything) (fun s s' _ => sim_parameterRound s s') trivial
  exact hrounds.bind fun _ _ _ => (sim_expect (by decide)).bind fun _ _ _ => sim_pure trivial

/-- The header of a function is read in both sources. -/
theorem sim_functionHeader : W.Sim functionHeader functionHeader Anything := by
  refine (sim_accept (by decide)).bind fun _ _ _ => (sim_expect (by decide)).bind fun _ _ _ => ?_
  refine sim_expectIdentifier.bind fun _ _ _ => (sim_expect (by decide)).bind fun _ _ _ => ?_
  refine sim_parameters.bind fun _ _ _ => ?_
  refine (sim_ifNext (by decide) sim_expression).bind fun _ _ _ => ?_
  exact (sim_expect (by decide)).bind fun _ _ _ => sim_pure trivial

/-- The header of a class is read to a twin place, and with it its name. -/
theorem sim_classHeader : W.Sim classHeader classHeader fun header header' =>
    header.1 = header'.1 := by
  have harguments : W.Sim classArguments classArguments Anything :=
    (sim_ifNext (by decide) (sim_arguments sim_expression)).bind fun _ _ _ => sim_pure trivial
  refine (sim_expect (by decide)).bind fun _ _ _ =>
    sim_expectIdentifier.bind fun name name' hname => ?_
  refine harguments.bind fun _ _ _ => (sim_expect (by decide)).bind fun _ _ _ => ?_
  exact sim_pure hname

/-- Both sources have a function at the same places. -/
theorem sim_atFunction : W.Sim atFunction atFunction Eq := fun c c' hc => by
  simp only [SimAt, ends_atFunction]
  refine fun _ => ⟨?_, hc⟩
  have hsecond := (hc.getElem? 1).beq_eq (u := .defKeyword) (by decide)
  rw [← Cursor.next?_advanceBy, ← Cursor.next?_advanceBy] at hsecond
  rw [Cursor.startsFunction, Cursor.startsFunction, hc.next.beq_eq (by decide),
    hc.next.beq_eq (by decide)]
  exact congrArg (fun b => _ || (_ && b)) hsecond.symm

/-- The decorators of a definition are read in both sources. -/
theorem sim_decorators : W.Sim decorators decorators Anything := by
  have hround : ∀ found found', W.Sim (decoratorRound found) (decoratorRound found')
      (Rounds Anything Anything) := by
    intro found found'
    refine (sim_check (by decide)).bind fun b _ hb => ?_
    subst hb
    refine Sim.ite (fun _ => ?_) fun _ => sim_pure (.stop trivial)
    refine sim_peekStart.bind fun i i' _ => (sim_pass 1).bind fun _ _ _ => ?_
    refine sim_expression.bind fun _ _ _ => sim_lastStop.bind fun stop stop' _ => ?_
    refine (sim_expect (by decide)).bind fun _ _ _ => ?_
    exact (sim_makeSpan i stop i' stop').bind fun _ _ _ => sim_pure (.again trivial)
  have hrounds : W.Sim (repeatRounds decoratorRound []) (repeatRounds decoratorRound []) Anything :=
    Sim.repeatRounds (S := Anything) (fun s s' _ => hround s s') trivial
  refine hrounds.bind fun _ _ _ => (sim_check (by decide)).bind fun b _ hb => ?_
  subst hb
  refine Sim.ite (fun _ => sim_pure trivial) fun _ => sim_atFunction.bind fun b _ hb => ?_
  subst hb
  exact Sim.ite (fun _ => sim_pure trivial) fun _ => sim_refuseNext

end Outline
end Lineage
