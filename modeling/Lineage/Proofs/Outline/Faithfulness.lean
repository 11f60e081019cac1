/-
# The outline of a source is faithful

The readings of statements and definitions render what they find, from expressions on:
bindings lie in the stretch of their statement (`renders_bindGroups`), the parts of a
function or a class in that of the definition (`renders_functionDefinition`,
`rendersClass_classOver`), and what a class body finds next lies behind what it has found.
So every span of a parsed outline is a stretch of its source (`faithful_moduleOutline`).
-/

import Lineage.Proofs.Outline.Rendering
import Lineage.Proofs.Outline.Tree

namespace Lineage
namespace Outline

open Source Reading Text Cursor

variable {o : Origin} {c c' : Cursor} {t : Token} {lo n start stop : Nat} {text : List Char}

/-- A faithful binding stays so when more is passed. -/
theorem widens_binding (text : List Char) : Widens (Binding.Faithful text) :=
  fun h hle => h.mono (Nat.le_refl _) hle

/-- A faithful decorator stays so when more is passed. -/
theorem widens_decorator (text : List Char) : Widens (Decorator.Faithful text) :=
  fun h hle => h.mono (Nat.le_refl _) hle

/-- A faithful parameter stays so when more is passed. -/
theorem widens_parameter (text : List Char) : Widens (Parameter.Faithful text) :=
  fun h hle => h.mono (Nat.le_refl _) hle

/-- Bindings of one statement: faithful, and all with the same start. -/
def FaithfulBindings (text : List Char) (lo hi : Nat) (bound : List Binding) : Prop :=
  Each (Binding.Faithful text) lo hi bound ∧ ∃ start, ∀ b ∈ bound, b.span.start = start

/-- Faithful bindings start in the order of the list. -/
theorem FaithfulBindings.sorted {hi : Nat} {bound : List Binding}
    (h : FaithfulBindings text lo hi bound) : bound.Pairwise (·.span.start ≤ ·.span.start) := by
  obtain ⟨_, start, hstart⟩ := h
  refine List.pairwise_of_forall_mem_list fun b hb b' hb' => ?_
  exact Nat.le_of_eq ((hstart b hb).trans (hstart b' hb').symm)

/-- Behind what has been read, a docstring is passed. -/
theorem follows_docstring {c₁ : Cursor} (h : Follows o c c₁) :
    Ends .any docstring o c₁ fun _ c' => Follows o c c' :=
  ((settles_docstring _ h.stands (Nat.lt_succ_self _)).of_safe trivial).mono
    fun _ _ h' => h.trans h'

/-- A token that is an identifier has a stretch of the source. -/
theorem Cursor.At.start_lt (hc : c.At o lo) {id : String}
    (hnext : c.next? = some (.identifier id)) :
    (c.place o).start < c.advance.lastStop := by
  obtain ⟨cs, hcs, _, first, rest, rfl, _⟩ := hc.exists_slice hnext rfl
  exact lt_of_slice?_eq_some hcs (List.cons_ne_nil first rest)

/-! ### Bindings -/

/-- The bindings of a statement lie in its stretch of the source. -/
def BoundIn (text : List Char) (start stop : Nat) (bound : List Binding) : Prop :=
  ∀ b ∈ bound, b.span.start = start ∧ b.span.stop = stop ∧
    FaithfulOption text start stop b.value ∧ FaithfulOption text start stop b.typeHint

/-- Targets that are paired with values are bound between the start of the statement and its end. -/
theorem renders_bindEach {typeHint : Option Expression} {targets : List String}
    {values : List (Option Expression)}
    (hvalues : ∀ v ∈ values, FaithfulOption text start stop v)
    (htypeHint : FaithfulOption text start stop typeHint) :
    Ends .any (bindEach typeHint start stop targets values) o c fun bound c' =>
      (∃ made, c' = { c with made }) ∧ BoundIn text start stop bound := by
  induction targets generalizing values c with
  | nil => exact ⟨⟨c.made, rfl⟩, List.forall_mem_nil _⟩
  | cons target targets ih =>
    cases values with
    | nil => trivial
    | cons value values =>
      simp only [bindEach, ends_bind, ends_makeSpan, ends_pure]
      refine (ih fun v hv => hvalues v (List.mem_cons_of_mem _ hv)).mono ?_
      rintro bound c' ⟨⟨made, hc'⟩, hbound⟩
      refine ⟨⟨made, hc'⟩, fun b hb => ?_⟩
      rcases List.mem_cons.1 hb with rfl | hb
      · exact ⟨rfl, rfl, hvalues value List.mem_cons_self, htypeHint⟩
      · exact hbound b hb

/-- The targets of an assignment are bound, group by group, between the start of the statement and
its end. -/
theorem renders_bindGroups {value typeHint : Option Expression} {groups : List (List String)}
    (hvalue : FaithfulOption text start stop value)
    (htypeHint : FaithfulOption text start stop typeHint) :
    Ends .any (bindGroups value typeHint start stop groups) o c fun bound c' =>
      (∃ made, c' = { c with made }) ∧ BoundIn text start stop bound := by
  induction groups generalizing c with
  | nil => exact ⟨⟨c.made, rfl⟩, List.forall_mem_nil _⟩
  | cons targets groups ih =>
    simp only [bindGroups, ends_bind, ends_pure]
    refine (renders_bindEach (fun v hv => faithfulOption_of_mem_targetValues hvalue hv)
      htypeHint).mono ?_
    rintro bound c₁ ⟨⟨made, hc₁⟩, hbound⟩
    refine ih.mono ?_
    rintro bound' c₂ ⟨⟨made', hc₂⟩, hbound'⟩
    refine ⟨⟨made', ?_⟩, fun b hb => ?_⟩
    · rw [hc₂, hc₁]
    · exact (List.mem_append.1 hb).elim (hbound b) (hbound' b)

/-- A statement from the next token to the last one passed, with its bindings. -/
theorem BoundIn.faithful {bound : List Binding} (hc : c.At o lo) (h : Follows o c c')
    (hle : (c.place o).start ≤ c'.lastStop)
    (hbound : BoundIn o.text (c.place o).start c'.lastStop bound) :
    FaithfulBindings o.text lo c'.lastStop bound := by
  refine ⟨fun b hb => ?_, (c.place o).start, fun b hb => (hbound b hb).1⟩
  obtain ⟨hstart, hstop, hvalue, htypeHint⟩ := hbound b hb
  have hwithin := hc.within h hle b.span.id
  rw [← hstart, ← hstop] at hvalue htypeHint hwithin
  exact ⟨hstop ▸ hwithin, hvalue, htypeHint⟩

/-- The value of an assignment, if there is one, is rendered. -/
theorem renders_optionalValue : Renders o optionalValue (FaithfulOption o.text) := by
  intro lo c hc
  rw [optionalValue, ends_ifNext]
  have hpass := hc.stands.advance
  refine ⟨fun _ => ?_, fun _ => ⟨Follows.refl hc.stands, faithfulOption_none⟩⟩
  refine (renders_expressionList lo _ (hc.follows hpass)).mono ?_
  rintro e c' ⟨h, he⟩
  exact ⟨hpass.trans h, faithfulOption_some he⟩

/-- The last value of a chain of assignments is rendered, and so is what stands in it. -/
theorem renders_chainedValue {targets : Expression → List (List String)}
    {groups : List (List String)} :
    Renders o (chainedValue targets groups) fun lo hi found => found.2.Faithful o.text lo hi := by
  have hround : RendersRound o (chainRound targets)
      (fun lo hi found => found.2.Faithful o.text lo hi)
      fun lo hi found => found.2.Faithful o.text lo hi := by
    intro found lo c hc hfound
    simp only [chainRound, ends_bind, ends_accept, ends_ite, ends_pure, afterRound_stop,
      afterRound_again, ↓reduceIte, Bool.false_eq_true]
    have hpass := hc.stands.advance
    refine ⟨fun _ => ?_, fun _ => ⟨Follows.refl hc.stands, hfound⟩⟩
    refine (renders_expressionList lo _ (hc.follows hpass)).mono ?_
    rintro e c' ⟨h, he⟩
    exact ⟨hpass.trans h, he⟩
  intro lo c hc
  simp only [chainedValue, ends_bind]
  refine (renders_expressionList lo c hc).mono ?_
  rintro value c₁ ⟨h₁, hvalue⟩
  refine (ends_rendersLoop (s := (groups, value)) hround (hc.follows h₁) hvalue).mono ?_
  rintro found c₂ ⟨h₂, hfound⟩
  exact ⟨h₁.trans h₂, hfound⟩

/-- Behind the targets of a statement with a type hint. -/
theorem ends_hintedGroups {c₁ : Cursor} {groups : List (List String)}
    {Q : List Binding → Cursor → Prop} (hc : c.At o lo) (h₁ : Follows o c c₁)
    (hQ : ∀ bound c', Follows o c₁ c' → (c.place o).start ≤ c'.lastStop →
      BoundIn o.text (c.place o).start c'.lastStop bound → Q bound c') :
    Ends .any expression o c₁ fun hint c₂ => Ends .any optionalValue o c₂ fun value c₃ =>
      Ends .any (bindGroups value (some hint) (c.place o).start c₃.lastStop groups) o c₃ Q := by
  refine (renders_expression _ _ (hc.self.follows h₁)).mono fun hint c₂ ⟨h₂, hhint⟩ => ?_
  have h₁₂ := h₁.trans h₂
  refine (renders_optionalValue _ _ (hc.self.follows h₁₂)).mono fun value c₃ ⟨h₃, hvalue⟩ => ?_
  have hwider := hhint.mono (Nat.le_refl _) h₃.lastStop_le
  refine (renders_bindGroups hvalue (faithfulOption_some hwider)).mono
    fun bound c₄ ⟨⟨made, hc₄⟩, hbound⟩ => ?_
  exact hc₄ ▸ hQ bound _ (follows_made.2 (h₂.trans h₃)) hwider.within.le hbound

/-- Behind the targets of a statement without a type hint. -/
theorem ends_chainedGroups {c₁ : Cursor} {targets : Expression → List (List String)}
    {groups : List (List String)} {Q : List Binding → Cursor → Prop} (hc : c.At o lo)
    (h₁ : Follows o c c₁)
    (hQ : ∀ bound c', Follows o c₁ c' → (c.place o).start ≤ c'.lastStop →
      BoundIn o.text (c.place o).start c'.lastStop bound → Q bound c') :
    Ends .any (chainedValue targets groups) o c₁ fun found c₂ =>
      Ends .any (bindGroups (some found.2) none (c.place o).start c₂.lastStop found.1) o c₂ Q := by
  refine (renders_chainedValue _ _ (hc.self.follows h₁)).mono fun found c₂ ⟨h₂, hvalue⟩ => ?_
  refine (renders_bindGroups (faithfulOption_some hvalue) faithfulOption_none).mono
    fun bound c₃ ⟨⟨made, hc₃⟩, hbound⟩ => ?_
  exact hc₃ ▸ hQ bound _ (follows_made.2 h₂) hvalue.within.le hbound

/-- A statement that binds names has a stretch of the source, and its bindings lie in it. -/
theorem renders_hintedBinding (hc : c.At o lo) :
    Ends .any (hintedBinding (c.place o).start) o c fun bound c' =>
      Follows o c c' ∧ (c.place o).start < c'.lastStop ∧
        BoundIn o.text (c.place o).start c'.lastStop bound := by
  simp only [hintedBinding, ends_bind, ends_expect, Endings.refused_any, implies_true, and_true,
    ends_lastStop]
  refine ((ends_expectIdentifier_reads hc.stands).of_safe trivial).mono ?_
  rintro target c₁ ⟨hnext, hc₁, h₁⟩ _
  have hstart : (c.place o).start < c₁.lastStop := hc₁ ▸ hc.start_lt hnext
  have hcolon := h₁.toFollows.trans h₁.stands.advance
  exact ends_hintedGroups hc hcolon fun _ _ h _ hbound => ⟨hcolon.trans h,
    Nat.lt_of_lt_of_le hstart (h₁.stands.advance.trans h).lastStop_le, hbound⟩

/-- The targets of a statement are a stretch of the source, since there is one. -/
theorem ends_targetNames (hc : c.At o lo) : Ends .any targetNames o c fun _ c₁ =>
    Follows o c c₁ ∧ (c.place o).start < c₁.lastStop := by
  refine ends_repeatRounds_any (I := fun _ c' => Follows o c c') (fun names c' h => ?_)
    (Follows.refl hc.stands)
  simp only [targetRound, ends_bind, ends_accept, ends_check, ends_ite, ends_pure,
    afterRound_again, afterRound_stop, ↓reduceIte, Bool.false_eq_true]
  refine ((ends_expectIdentifier_reads h.stands).of_safe trivial).mono ?_
  rintro name c₁ ⟨hnext, hc₁, h₁⟩
  have hstart : (c.place o).start < c₁.lastStop :=
    hc₁ ▸ Nat.lt_of_le_of_lt (h.place_le hc.stands) ((hc.follows h).start_lt hnext)
  have hname := h.trans h₁.toFollows
  have hcomma := h₁.stands.advance
  refine ⟨fun _ => ?_, fun _ => ⟨hname, hstart⟩⟩
  split
  · exact ⟨hname.trans hcomma, Nat.lt_of_lt_of_le hstart hcomma.lastStop_le⟩
  · exact hname.trans hcomma

/-- A plain assignment passes a token, and binds between its start and its end. -/
theorem renders_plainBinding (hc : c.At o lo) :
    Ends .any (plainBinding (c.place o).start) o c fun bound c' =>
      Follows o c c' ∧ (c.place o).start < c'.lastStop ∧
        BoundIn o.text (c.place o).start c'.lastStop bound := by
  simp only [plainBinding, ends_bind, ends_expect, Endings.refused_any, implies_true, and_true,
    ends_lastStop]
  refine (ends_targetNames hc).mono ?_
  rintro targets c₁ ⟨h₁, hstart⟩ _
  have hequals := h₁.trans h₁.stands.advance
  exact ends_chainedGroups hc hequals fun _ _ h _ hbound => ⟨hequals.trans h,
    Nat.lt_of_lt_of_le hstart (h₁.stands.advance.trans h).lastStop_le, hbound⟩

/-- **The bindings of a class body are faithful.** -/
theorem renders_classBinding : Renders o classBinding (FaithfulBindings o.text) := by
  intro lo c hc
  have hfinish : ∀ {bound : List Binding} {c₁ : Cursor},
      Follows o c c₁ ∧ (c.place o).start < c₁.lastStop ∧
        BoundIn o.text (c.place o).start c₁.lastStop bound →
      Ends .any finishStatement o c₁ fun _ c' =>
        Follows o c c' ∧ FaithfulBindings o.text lo c'.lastStop bound := by
    intro bound c₁ ⟨h₁, hstart, hbound⟩
    have hfaithful := hbound.faithful hc h₁ (Nat.le_of_lt hstart)
    refine ((settles_finishStatement c₁ h₁.stands (Nat.lt_succ_self _)).of_safe trivial).mono
      fun _ c₂ h₂ => ⟨h₁.trans h₂, ?_, hfaithful.2⟩
    exact hfaithful.1.widen (widens_binding _) h₂.lastStop_le
  simp only [classBinding, ends_bind, ends_peekStart, ends_peekAt, ends_ite, ends_pure]
  split
  · exact (renders_hintedBinding hc).mono fun _ _ h => hfinish h
  · exact (renders_plainBinding hc).mono fun _ _ h => hfinish h

/-- Bindings that are found are faithful. -/
def FaithfulFound (text : List Char) (lo hi : Nat) (found : Option (List Binding)) : Prop :=
  ∀ bound, found = some bound → Each (Binding.Faithful text) lo hi bound

/-- An assignment to the receiver is rendered, if one is found. -/
theorem renders_receiverBinding {receiver : String} :
    Renders o (receiverBinding receiver) (FaithfulFound o.text) := by
  intro lo c hc
  simp only [receiverBinding, ends_bind, ends_peekStart]
  refine ((ends_receiverTargets hc.stands).of_safe trivial).mono fun targets c₁ h₁ => ?_
  have hnone : ∀ {c' : Cursor}, Follows o c c' →
      Follows o c c' ∧ FaithfulFound o.text lo c'.lastStop none :=
    fun h => ⟨h, fun _ heq => by cases heq⟩
  split
  · exact hnone h₁.toFollows
  · simp only [receiverValues, ends_bind, ends_check, ends_ite, ends_pass, advanceBy_one,
      ends_accept, ends_lastStop, ends_pure, ↓reduceIte, Bool.false_eq_true]
    have h₂ := h₁.toFollows.trans h₁.stands.advance
    have hfound : ∀ bound c', Follows o c₁.advance c' → (c.place o).start ≤ c'.lastStop →
        BoundIn o.text (c.place o).start c'.lastStop bound →
        Follows o c c' ∧ FaithfulFound o.text lo c'.lastStop (some bound) :=
      fun _ _ h hle hbound => ⟨h₂.trans h, fun _ heq =>
        Option.some.inj heq ▸ (hbound.faithful hc (h₂.trans h) hle).1⟩
    split
    · exact ends_hintedGroups hc h₂ hfound
    · exact ⟨fun _ => ends_chainedGroups hc h₂ hfound, fun _ => hnone h₁.toFollows⟩

/-! ### Function bodies -/

/-- A line of a function body is rendered: it may bind nothing and keep its place. -/
theorem renders_lineBinding {receiver : Option String} {s : LineState} (hc : c.At o lo) :
    Ends .any (lineBinding receiver s) o c fun found c' =>
      (found = none ∧ ∃ made, c' = { c with made }) ∨
        Follows o c c' ∧ FaithfulFound o.text lo c'.lastStop found := by
  unfold lineBinding
  split
  · rw [ends_ite]
    split
    · refine ends_tentative (fun made => .inl ⟨rfl, made, rfl⟩) ?_
      exact (renders_receiverBinding lo c hc).mono fun found c' h b hb => .inr (hb ▸ h)
    · exact .inl ⟨rfl, c.made, rfl⟩
  · exact .inl ⟨rfl, c.made, rfl⟩

/-- The rounds over a line render the bindings that they add. -/
theorem rendersRound_lineRound {receiver : Option String} : RendersRound o (lineRound receiver)
    (fun lo hi s => Each (Binding.Faithful o.text) lo hi s.found)
    (Each (Binding.Faithful o.text)) := by
  intro s lo c hc hs
  have hpass : ∀ {c₁ : Cursor}, Follows o c c₁ →
      Follows o c c₁ ∧ Each (Binding.Faithful o.text) lo c₁.lastStop s.found :=
    fun h => ⟨h, hs.widen (widens_binding _) h.lastStop_le⟩
  refine ends_lineRound.2 ⟨fun _ => hpass hc.stands.advance,
    fun _ => hpass (Follows.refl hc.stands),
    fun _ _ _ => (renders_lineBinding hc).mono fun found c' h => ⟨fun bound hfound => ?_,
      fun _ => ?_⟩⟩
  · rcases h with ⟨hnone, _⟩ | ⟨h, hbound⟩
    · rw [hfound] at hnone
      cases hnone
    · exact ⟨h, hs.append (widens_binding _) h.lastStop_le (hbound bound hfound)⟩
  · have hkept : Follows o c c' := by
      rcases h with ⟨_, made, rfl⟩ | ⟨h, _⟩
      · exact follows_made.2 (Follows.refl hc.stands)
      · exact h
    exact hpass (hkept.trans hkept.stands.advance)

/-- The bindings of a line are rendered. -/
theorem renders_lineBindings {receiver : Option String} :
    Renders o (lineBindings receiver) (Each (Binding.Faithful o.text)) := fun _ _ hc =>
  ends_rendersLoop rendersRound_lineRound hc each_nil

/-- The rounds over a function body render the bindings of its lines. -/
theorem rendersRound_bodyRound {receiver : Option String} : RendersRound o (bodyRound receiver)
    (fun lo hi s => Each (Binding.Faithful o.text) lo hi s.found)
    (Each (Binding.Faithful o.text)) := by
  intro s lo c hc hs
  have hpass : ∀ {c₁ : Cursor}, Follows o c c₁ →
      Follows o c c₁ ∧ Each (Binding.Faithful o.text) lo c₁.lastStop s.found :=
    fun h => ⟨h, hs.widen (widens_binding _) h.lastStop_le⟩
  refine ends_bodyRound.2 ⟨fun _ => ⟨Follows.refl hc.stands, hs⟩, fun _ => hpass hc.stands.advance,
    fun _ => ⟨fun _ => trivial, fun _ => hpass hc.stands.advance,
      fun _ _ => hpass hc.stands.advance⟩, fun _ _ _ => ⟨fun _ => ?_, fun _ => ?_⟩⟩
  · refine ((ends_passStatement hc.stands).of_safe trivial).mono ?_
    rintro _ c' ⟨_, hpast, h⟩
    exact hpass (hpast.toFollows.trans h)
  · refine (renders_lineBindings lo c hc).mono ?_
    rintro more c' ⟨h, hmore⟩
    exact ⟨h, hs.append (widens_binding _) h.lastStop_le hmore⟩

/-- The bindings of a function body are rendered. -/
theorem renders_functionBody {receiver : Option String} : Renders o (functionBody receiver)
    fun lo hi r => Each (Binding.Faithful o.text) lo hi r.2 := by
  intro lo c hc
  by_cases hnewline : c.next? = some .newline
  · refine (ends_functionBody_block hnewline).2 ⟨fun _ => ?_, fun _ => trivial⟩
    refine (follows_docstring (hc.stands.advance.trans hc.stands.advance.stands.advance)).mono
      fun doc c₁ h₁ => ?_
    refine (ends_rendersLoop (s := (⟨1, []⟩ : BodyState)) rendersRound_bodyRound (hc.follows h₁)
      each_nil).mono ?_
    rintro found c₂ ⟨h₂, hfound⟩
    exact ⟨h₁.trans h₂, hfound⟩
  · refine (ends_functionBody_line hnewline).2 ?_
    refine (follows_docstring (Follows.refl hc.stands)).mono fun doc c₁ h₁ => ?_
    split
    · exact ⟨h₁, each_nil⟩
    · refine (renders_lineBindings lo c₁ (hc.follows h₁)).mono ?_
      rintro found c₂ ⟨h₂, hfound⟩
      exact ⟨h₁.trans h₂, hfound⟩

/-! ### Headers of functions -/

/-- Decorators are rendered. -/
theorem renders_decorators : Renders o decorators (Each (Decorator.Faithful o.text)) := by
  have hround : RendersRound o decoratorRound (Each (Decorator.Faithful o.text))
      (Each (Decorator.Faithful o.text)) := by
    intro found lo c hc hfound
    simp only [decoratorRound, ends_bind, ends_check, ends_ite, ends_peekStart, ends_pass,
      advanceBy_one, ends_lastStop, ends_expect, Endings.refused_any, implies_true, and_true,
      ends_makeSpan, ends_pure, afterRound_again, afterRound_stop, follows_made]
    split
    · have hpass := hc.stands.advance
      refine (renders_expression _ _ (hc.self.follows hpass)).mono ?_
      rintro e c₁ ⟨h₁, he⟩ _
      have hall := hpass.trans h₁
      have hend := h₁.stands.advance
      refine ⟨hall.trans hend, hfound.concat (widens_decorator _) (hall.trans hend).lastStop_le ?_⟩
      exact ⟨(hc.within hall he.within.le _).mono (Nat.le_refl _) hend.lastStop_le, he⟩
    · exact ⟨Follows.refl hc.stands, hfound⟩
  intro lo c hc
  simp only [decorators, ends_bind, ends_check, ends_ite, ends_pure, ends_atFunction,
    ends_refuseNext, Endings.refused_any]
  refine (ends_rendersLoop hround hc each_nil).mono fun found c' h => ?_
  split
  · exact h
  · split
    · exact h
    · trivial

/-- An expression behind a token that may be missing is rendered. -/
theorem renders_ifNext_expression : Renders o (ifNext t expression) (FaithfulOption o.text) := by
  intro lo c hc
  rw [ends_ifNext]
  have hpass := hc.stands.advance
  refine ⟨fun _ => ?_, fun _ => ⟨Follows.refl hc.stands, faithfulOption_none⟩⟩
  exact (renders_expression lo _ (hc.follows hpass)).mono fun e c' ⟨h, he⟩ =>
    ⟨hpass.trans h, faithfulOption_some he⟩

/-- A parameter list so far. -/
abbrev FaithfulParameters (text : List Char) (lo hi : Nat) (s : ParameterState) : Prop :=
  Each (Parameter.Faithful text) lo hi s.found

/-- A star or a slash adds no parameter. -/
theorem renders_parameterMark : RendersRound o parameterMark (FaithfulParameters o.text)
    (Each (Parameter.Faithful o.text)) := by
  intro s lo c hc hs
  simp only [parameterMark, ends_bind, ends_accept, ends_ite, ends_pure, afterRound_again,
    afterRound_stop, ↓reduceIte, Bool.false_eq_true]
  have hpass := hc.stands.advance
  exact ⟨fun _ => ⟨hpass, hs.widen (widens_parameter _) hpass.lastStop_le⟩,
    fun _ => ⟨Follows.refl hc.stands, hs⟩⟩

/-- A parameter with a name is rendered among those before it. -/
theorem renders_namedParameter {kind : ParameterKind} :
    RendersRound o (namedParameter · kind) (FaithfulParameters o.text)
      (Each (Parameter.Faithful o.text)) := by
  intro s lo c hc hs
  simp only [namedParameter, ends_bind, ends_accept, ends_ite, ends_pure, afterRound_again,
    afterRound_stop, ↓reduceIte, Bool.false_eq_true]
  refine ((ends_expectIdentifier_reads hc.stands).of_safe trivial).mono ?_
  rintro name c₁ ⟨_, _, h₁⟩
  refine (renders_ifNext_expression lo c₁ (hc.follows h₁.toFollows)).mono ?_
  rintro hint c₂ ⟨h₂, hhint⟩
  have h₁₂ := h₁.toFollows.trans h₂
  refine (renders_ifNext_expression lo c₂ (hc.follows h₁₂)).mono ?_
  rintro default c₃ ⟨h₃, hdefault⟩
  have hall := h₁₂.trans h₃
  have hmore := hs.concat (a := ⟨name, kind, hint, default⟩) (widens_parameter _) hall.lastStop_le
    ⟨hhint.mono (Nat.le_refl _) h₃.lastStop_le, hdefault⟩
  have hpass := h₃.stands.advance
  exact ⟨fun _ => ⟨hall.trans hpass, hmore.widen (widens_parameter _) hpass.lastStop_le⟩,
    fun _ => ⟨hall, hmore⟩⟩

/-- The rounds over the parameters render those that they add. -/
theorem rendersRound_parameterRound : RendersRound o parameterRound
    (FaithfulParameters o.text) (Each (Parameter.Faithful o.text)) := by
  intro s lo c hc hs
  have hpass := hc.stands.advance
  -- what is read behind a token that is passed
  have hbehind : ∀ {step : ParameterState → Reading (Round ParameterState (List Parameter))}
      (s' : ParameterState), s'.found = s.found → RendersRound o step (FaithfulParameters o.text)
        (Each (Parameter.Faithful o.text)) → Ends .any (step s') o c.advance
          (AfterRound (fun s' c' => Follows o c c' ∧ FaithfulParameters o.text lo c'.lastStop s')
            fun found c' =>
              Follows o c c' ∧ Each (Parameter.Faithful o.text) lo c'.lastStop found) := by
    intro step s' hs' hstep
    have hfound : FaithfulParameters o.text lo c.advance.lastStop s' := by
      rw [FaithfulParameters, hs']
      exact hs.widen (widens_parameter _) hpass.lastStop_le
    refine (hstep s' lo _ (hc.follows hpass) hfound).mono fun r c' hr => ?_
    cases r with
    | again s'' => exact ⟨hpass.trans hr.1, hr.2⟩
    | stop found => exact ⟨hpass.trans hr.1, hr.2⟩
  simp only [parameterRound, ends_bind, ends_check, ends_ite, ends_pure, ends_peek, afterRound_stop]
  split
  · exact ⟨Follows.refl hc.stands, hs⟩
  · split
    · simp only [ends_bind, ends_pass, advanceBy_one]
      exact hbehind s rfl renders_parameterMark
    · simp only [ends_bind, ends_pass, advanceBy_one, ends_peek]
      split
      · exact hbehind ⟨true, s.found⟩ rfl renders_namedParameter
      · exact hbehind ⟨true, s.found⟩ rfl renders_parameterMark
    · simp only [ends_bind, ends_pass, advanceBy_one]
      exact hbehind s rfl renders_namedParameter
    · exact renders_namedParameter s lo c hc hs
    · rw [ends_refuseNext]
      trivial

/-- Parameters are rendered. -/
theorem renders_parameters : Renders o parameters (Each (Parameter.Faithful o.text)) := by
  intro lo c hc
  simp only [parameters, ends_bind, ends_expect, ends_pure, Endings.refused_any, implies_true,
    and_true]
  refine (ends_rendersLoop (s := (⟨false, []⟩ : ParameterState)) rendersRound_parameterRound hc
    each_nil).mono ?_
  rintro found c' ⟨h, hfound⟩ _
  have hclose := h.stands.advance
  exact ⟨h.trans hclose, hfound.widen (widens_parameter _) hclose.lastStop_le⟩

/-- The header of a function renders its parameters and what it returns. -/
theorem renders_functionHeader (hc : c.At o lo) :
    Ends .any functionHeader o c fun header c' => Follows o c c' ∧
      (c.place o).start < c'.lastStop ∧
      Each (Parameter.Faithful o.text) (c.place o).start c'.lastStop header.2.2.1 ∧
      FaithfulOption o.text (c.place o).start c'.lastStop header.2.2.2 := by
  -- from the name on
  have hname : ∀ (isAsync : Bool) {c₀ : Cursor}, Follows o c c₀ →
      Ends .any (do
        let name ← expectIdentifier
        expect .openParen
        let parameters ← parameters
        let returns ← ifNext .arrow expression
        expect .colon
        return (isAsync, name, parameters, returns)) o c₀ fun header c' => Follows o c c' ∧
          (c.place o).start < c'.lastStop ∧
          Each (Parameter.Faithful o.text) (c.place o).start c'.lastStop header.2.2.1 ∧
          FaithfulOption o.text (c.place o).start c'.lastStop header.2.2.2 := by
    intro isAsync c₀ h₀
    simp only [ends_bind, ends_expect, ends_pure, Endings.refused_any, implies_true, and_true]
    refine ((ends_expectIdentifier_reads h₀.stands).of_safe trivial).mono ?_
    rintro name c₁ ⟨hnext, hc₁, h₁⟩ _
    have hstart : (c.place o).start < c₁.lastStop := by
      rw [hc₁]
      exact Nat.lt_of_le_of_lt (h₀.place_le hc.stands) ((hc.follows h₀).start_lt hnext)
    have h₂ := (h₀.trans h₁.toFollows).trans h₁.stands.advance
    refine (renders_parameters _ _ (hc.self.follows h₂)).mono ?_
    rintro parameters c₃ ⟨h₃, hparameters⟩
    refine (renders_ifNext_expression _ _ (hc.self.follows (h₂.trans h₃))).mono ?_
    rintro returns c₄ ⟨h₄, hreturns⟩ _
    have h₅ := h₄.stands.advance
    refine ⟨(h₂.trans h₃).trans (h₄.trans h₅), ?_, ?_, ?_⟩
    · exact Nat.lt_of_lt_of_le hstart
        (h₁.stands.advance.trans (h₃.trans (h₄.trans h₅))).lastStop_le
    · exact hparameters.widen (widens_parameter _) (h₄.trans h₅).lastStop_le
    · exact hreturns.mono (Nat.le_refl _) h₅.lastStop_le
  simp only [functionHeader, ends_bind (x := accept _), ends_bind (x := expect _), ends_accept,
    ends_expect, Endings.refused_any, implies_true, and_true]
  refine ⟨fun _ _ => ?_, fun _ _ => ?_⟩
  · exact hname true (hc.stands.advance.trans hc.stands.advance.stands.advance)
  · exact hname false hc.stands.advance

/-- **A function is faithful**, behind decorators that are. -/
theorem renders_functionDefinition {ds : List Decorator} (hc : c.At o lo)
    (hds : Each (Decorator.Faithful o.text) 0 (c.place o).start ds) :
    Ends .any (functionDefinition ds) o c fun f c' =>
      Follows o c c' ∧ f.Faithful o.text lo c'.lastStop := by
  simp only [functionDefinition_eq, ends_bind, ends_peekStart, ends_spanFrom, ends_pure,
    follows_made]
  refine (renders_functionHeader hc).mono ?_
  rintro ⟨isAsync, name, parameters, returns⟩ c₁ ⟨h₁, hstart, hparameters, hreturns⟩
  refine (renders_functionBody _ _ (hc.self.follows h₁)).mono ?_
  rintro r c₂ ⟨h₂, hbindings⟩
  have hall := h₁.trans h₂
  have hlt : (c.place o).start < c₂.lastStop := Nat.lt_of_lt_of_le hstart h₂.lastStop_le
  refine ⟨hall, hc.within hall (Nat.le_of_lt hlt) _, hlt, hds, ?_, ?_, hbindings⟩
  · exact hparameters.widen (widens_parameter _) h₂.lastStop_le
  · exact hreturns.mono (Nat.le_refl _) h₂.lastStop_le

/-! ### Classes -/

/-- A class in its place, with the classes in it. -/
def FaithfulClass (text : List Char) (lo hi : Nat) (k : ClassOutline) : Prop :=
  k.span.Within text lo hi ∧ k.span.start < k.span.stop ∧ ∀ j ∈ k.preorder, j.Faithful text

/-- Classes, with those in them, behind decorators that are faithful. -/
def RendersClass (o : Origin) (inner : List Decorator → Reading ClassOutline) : Prop :=
  ∀ ds lo c, c.At o lo → Each (Decorator.Faithful o.text) 0 (c.place o).start ds →
    Ends .any (inner ds) o c fun k c' => Follows o c c' ∧ FaithfulClass o.text lo c'.lastStop k

/-- What has been found in a class body that starts at `lo`. -/
structure ClassBody.Faithful (text : List Char) (lo hi : Nat) (b : ClassBody) : Prop where
  le : lo ≤ hi
  body : FaithfulBody text lo hi b.methods b.bindings b.classes
  nested : ∀ k ∈ preorderAll b.classes, k.Faithful text

/-- A faithful class body stays so when more is passed. -/
theorem widens_classBody (text : List Char) : Widens (ClassBody.Faithful text) := fun h hle =>
  ⟨Nat.le_trans h.le hle, h.body.mono (Nat.le_refl _) hle, h.nested⟩

/-- What holds of every class of a list and of a class behind it holds of the longer list. -/
theorem forall_preorderAll_concat {P : ClassOutline → Prop} {classes : List ClassOutline}
    {k : ClassOutline} (h : ∀ j ∈ preorderAll classes, P j) (hk : ∀ j ∈ k.preorder, P j) :
    ∀ j ∈ preorderAll (classes ++ [k]), P j := by
  rw [preorderAll_append, preorderAll_singleton]
  exact List.forall_mem_append.2 ⟨h, hk⟩

/-- A definition behind decorators keeps what has been found. -/
def RendersDefinition (o : Origin) (G : Nat → Nat → α → Prop) (found : α)
    (definition : List Decorator → Reading α) : Prop :=
  ∀ ds lo c, c.At o lo → G lo c.lastStop found →
    Each (Decorator.Faithful o.text) 0 (c.place o).start ds →
      Ends .any (definition ds) o c fun found' c' => Follows o c c' ∧ G lo c'.lastStop found'

/-- A statement of a scope keeps what has been found, if the definitions and the simple ones do. -/
theorem renders_statementOf {G : Nat → Nat → α → Prop} {found : α}
    {definition : List Decorator → Reading α} {simple : Reading α} (hwidens : Widens G)
    (hdefinition : RendersDefinition o G found definition) (hc : c.At o lo)
    (hfound : G lo c.lastStop found)
    (hsimple : c.StartsSimple → Ends .any simple o c fun found' c' =>
      Follows o c c' ∧ G lo c'.lastStop found') :
    Ends .any (statementOf definition simple found) o c fun found' c' =>
      Follows o c c' ∧ G lo c'.lastStop found' := by
  have hpass := hc.stands.advance
  refine ends_statementOf.2 ⟨fun _ => ⟨hpass, hwidens hfound hpass.lastStop_le⟩, fun _ => trivial,
    fun _ => ?_, fun _ => hdefinition [] lo c hc hfound each_nil, hsimple⟩
  refine (renders_decorators 0 c (hc.of_le (Nat.zero_le _))).mono ?_
  rintro ds c₁ ⟨h₁, hds⟩
  refine (hdefinition ds lo c₁ (hc.follows h₁) (hwidens hfound h₁.lastStop_le)
    (hds.widen (widens_decorator _) h₁.stands.place.2.2.1)).mono ?_
  rintro found' c₂ ⟨h₂, hfound'⟩
  exact ⟨h₁.trans h₂, hfound'⟩

section Nested

variable {inner : List Decorator → Reading ClassOutline} (hinner : RendersClass o inner)

include hinner

/-- A member of a class body is rendered, be it a class or a method. -/
theorem renders_memberDefinition (found : ClassBody) :
    RendersDefinition o (ClassBody.Faithful o.text) found (memberDefinition inner found) := by
  intro ds lo c hc hfound hds
  have hbehind := hc.of_le (Nat.le_refl _)
  refine ends_definitionOf.2 ⟨fun _ => (hinner ds _ c hbehind hds).mono ?_,
    fun _ => (renders_functionDefinition hbehind hds).mono ?_⟩
  · rintro k c' ⟨h, hwithin, hlt, hclasses⟩
    refine ⟨h, ?_⟩
    exact ⟨Nat.le_trans hfound.le h.lastStop_le,
      hfound.body.addClass hfound.le h.lastStop_le ⟨hwithin, hlt⟩,
      forall_preorderAll_concat hfound.nested hclasses⟩
  · rintro f c' ⟨h, hf⟩
    refine ⟨h, ?_⟩
    exact ⟨Nat.le_trans hfound.le h.lastStop_le,
      hfound.body.addMethod hfound.le h.lastStop_le hf, hfound.nested⟩

/-- A statement of a class body keeps the body faithful. -/
theorem renders_classStatement {found : ClassBody} (hc : c.At o lo)
    (hfound : found.Faithful o.text lo c.lastStop) :
    Ends .any (classStatement inner found) o c fun found' c' =>
      Follows o c c' ∧ found'.Faithful o.text lo c'.lastStop := by
  rw [classStatement_eq]
  refine renders_statementOf (widens_classBody _) (renders_memberDefinition hinner found) hc hfound
    fun _ => ?_
  simp only [memberSimple, ends_bind, ends_ahead, ends_ite, ends_pure]
  split
  · refine (renders_classBinding _ c (hc.of_le (Nat.le_refl _))).mono ?_
    rintro bound c₁ ⟨h₁, hbound⟩
    exact ⟨h₁, Nat.le_trans hfound.le h₁.lastStop_le,
      hfound.body.addBindings hfound.le h₁.lastStop_le hbound.1 hbound.sorted, hfound.nested⟩
  · refine ((ends_passStatement hc.stands).of_safe trivial).mono ?_
    rintro _ c₁ ⟨_, hpast, h⟩
    have hall := hpast.toFollows.trans h
    exact ⟨hall, widens_classBody _ hfound hall.lastStop_le⟩

/-- The rounds over an indented class body keep it faithful. -/
theorem rendersRound_indentedRound : RendersRound o (indentedRound inner)
    (ClassBody.Faithful o.text) (ClassBody.Faithful o.text) := by
  intro found lo c hc hfound
  have hpass := hc.stands.advance
  exact ends_indentedRound.2 ⟨fun _ => ⟨Follows.refl hc.stands, hfound⟩,
    fun _ => ⟨hpass, widens_classBody _ hfound hpass.lastStop_le⟩,
    fun _ _ _ => renders_classStatement hinner hc hfound⟩

/-- The rounds over a class body on its header's line keep it faithful. -/
theorem rendersRound_inlineRound : RendersRound o (inlineRound inner)
    (ClassBody.Faithful o.text) (ClassBody.Faithful o.text) := fun _ _ _ hc hfound =>
  ends_inlineRound.2 ⟨fun _ => ⟨Follows.refl hc.stands, hfound⟩,
    fun _ _ _ _ => renders_classStatement hinner hc hfound⟩

/-- The body of a class, from any offset that has been passed. -/
theorem renders_classBody (hc : c.At o lo) (hlo : lo ≤ c.lastStop) :
    Ends .any (classBody inner) o c fun r c' =>
      Follows o c c' ∧ r.2.Faithful o.text lo c'.lastStop := by
  have hempty : ∀ {c₁ : Cursor}, Follows o c c₁ →
      (⟨[], [], []⟩ : ClassBody).Faithful o.text lo c₁.lastStop := fun h =>
    ⟨Nat.le_trans hlo h.lastStop_le, .nil, List.forall_mem_nil _⟩
  by_cases hnewline : c.next? = some .newline
  · refine (ends_classBody_block hnewline).2 ⟨fun _ => ?_, fun _ => trivial⟩
    refine (follows_docstring (hc.stands.advance.trans hc.stands.advance.stands.advance)).mono
      fun doc c₁ h₁ => ?_
    refine (ends_rendersLoop (rendersRound_indentedRound hinner) (hc.follows h₁)
      (hempty h₁)).mono ?_
    rintro found c₂ ⟨h₂, hfound⟩
    exact ⟨h₁.trans h₂, hfound⟩
  · refine (ends_classBody_line hnewline).2 ?_
    refine (follows_docstring (Follows.refl hc.stands)).mono fun doc c₁ h₁ => ?_
    refine (ends_rendersLoop (rendersRound_inlineRound hinner) (hc.follows h₁) (hempty h₁)).mono ?_
    rintro found c₂ ⟨h₂, hfound⟩
    exact ⟨h₁.trans h₂, hfound⟩

omit hinner in
/-- The parts of a class header are faithful if its arguments are. -/
theorem faithful_headerParts {hi : Nat} {header : List (Argument Expression)}
    (h : Each (Argument.Faithful text) lo hi header) :
    (∀ e ∈ (headerParts header).1, FaithfulBase text lo hi e) ∧
      ∀ a ∈ (headerParts header).2, a.value.Faithful text lo hi := by
  induction header with
  | nil => exact ⟨fun _ he => (nomatch he), fun _ ha => (nomatch ha)⟩
  | cons a header ih =>
    obtain ⟨hbases, hkeywords⟩ := ih fun b hb => h b (List.mem_cons_of_mem a hb)
    have ha : a.value.Faithful text lo hi := h a List.mem_cons_self
    unfold headerParts
    dsimp only
    split
    · exact ⟨List.forall_mem_cons.2 ⟨.inl ha, hbases⟩, hkeywords⟩
    · exact ⟨List.forall_mem_cons.2 ⟨.inr ⟨a.value, ha, rfl⟩, hbases⟩, hkeywords⟩
    · exact ⟨hbases, List.forall_mem_cons.2 ⟨ha, hkeywords⟩⟩

omit hinner in
/-- The arguments of a class header are rendered. -/
theorem renders_classArguments : Renders o classArguments (Each (Argument.Faithful o.text)) := by
  intro lo c hc
  simp only [classArguments, ends_bind, ends_ifNext, ends_pure]
  have hpass := hc.stands.advance
  refine ⟨fun _ => ?_, fun _ => ⟨Follows.refl hc.stands, each_nil⟩⟩
  refine (renders_arguments renders_expression lo _ (hc.follows hpass)).mono ?_
  rintro found c' ⟨h, hfound⟩
  exact ⟨hpass.trans h, hfound⟩

/-- **A class is faithful, with the classes in it**, if those are. -/
theorem rendersClass_classOver : RendersClass o (classOver inner) := by
  intro ds lo c hc hds
  simp only [classOver, ends_bind, ends_peekStart, ends_expect, ends_spanFrom, ends_pure,
    Endings.refused_any, implies_true, and_true, follows_made]
  intro _
  have h₁ := hc.stands.advance
  refine ((ends_expectIdentifier_reads h₁.stands).of_safe trivial).mono ?_
  rintro name c₂ ⟨hnext, hc₂, h₂⟩
  have hword : IsWord name.toList := by
    obtain ⟨cs, _, rfl, hcs⟩ := (hc.follows h₁).exists_slice hnext rfl
    rw [String.toList_ofList]
    exact hcs
  have hstart : (c.place o).start < c₂.lastStop := by
    rw [hc₂]
    exact Nat.lt_of_le_of_lt (h₁.place_le hc.stands) ((hc.follows h₁).start_lt hnext)
  have hname := h₁.trans h₂.toFollows
  refine (renders_classArguments _ _ (hc.self.follows hname)).mono ?_
  rintro header c₃ ⟨h₃, hheader⟩ _
  have h₄ := h₃.stands.advance
  have hcolon := hname.trans (h₃.trans h₄)
  refine (renders_classBody hinner (hc.self.follows hcolon)
    (Nat.le_trans (Nat.le_of_lt hstart) (h₃.trans h₄).lastStop_le)).mono ?_
  rintro r c₅ ⟨h₅, hbody⟩
  have hall := hcolon.trans h₅
  have hlt : (c.place o).start < c₅.lastStop :=
    Nat.lt_of_lt_of_le hstart (h₃.trans (h₄.trans h₅)).lastStop_le
  have hwithin := hc.within hall (Nat.le_of_lt hlt) (spanId o.module (c₅.made + 1))
  obtain ⟨hbases, hkeywords⟩ := faithful_headerParts
    (hheader.widen (widens_argument _) (h₄.trans h₅).lastStop_le)
  have hclass : (⟨name, (headerParts header).1, (headerParts header).2, ds, r.1, r.2.methods,
      r.2.bindings, r.2.classes, ⟨(c.place o).start, c₅.lastStop, spanId o.module (c₅.made + 1)⟩⟩ :
        ClassOutline).Faithful o.text :=
    ⟨hword, hwithin.mono (Nat.zero_le _) hall.stands.1.le_byteLength, hlt, hds, hbases, hkeywords,
      hbody.body⟩
  refine ⟨hall, hwithin, hlt, fun j hj => ?_⟩
  rcases mem_preorder.1 hj with rfl | hj
  · exact hclass
  · exact hbody.nested j hj

end Nested

/-- Classes nested up to any depth are rendered. -/
theorem rendersClass_classWithin (n : Nat) : RendersClass o (classWithin n) := by
  induction n with
  | zero => exact fun _ _ _ _ _ => trivial
  | succ n ih => exact rendersClass_classOver ih

/-- A class is rendered, with those in it. -/
theorem rendersClass_classDefinition : RendersClass o classDefinition := fun ds lo c hc hds =>
  rendersClass_classWithin (c.rest.length + 1) ds lo c hc hds

/-! ### Modules -/

/-- What has been found at the top level. -/
structure TopLevel.Faithful (text : List Char) (found : TopLevel) : Prop where
  functions : ∀ f ∈ found.functions, f.Faithful text 0 (byteLength text)
  classes : ∀ k ∈ preorderAll found.classes, k.Faithful text

/-- A definition at the top of a module is rendered. -/
theorem renders_topDefinition (found : TopLevel) :
    RendersDefinition o (fun _ _ found => found.Faithful o.text) found (topDefinition found) := by
  intro ds lo c hc hfound hds
  refine ends_definitionOf.2 ⟨fun _ => (rendersClass_classDefinition ds lo c hc hds).mono ?_,
    fun _ => (renders_functionDefinition hc hds).mono ?_⟩
  · rintro k c' ⟨h, _, _, hclasses⟩
    refine ⟨h, ?_⟩
    exact ⟨hfound.functions, forall_preorderAll_concat hfound.classes hclasses⟩
  · rintro f c' ⟨h, hf⟩
    refine ⟨h, ?_, hfound.classes⟩
    intro g hg
    rcases List.mem_append.1 hg with hg | hg
    · exact hfound.functions g hg
    · rw [List.mem_singleton.1 hg]
      exact hf.mono (Nat.zero_le _) h.stands.1.le_byteLength

/-- The rounds over a module keep what has been found faithful. -/
theorem rendersRound_topRound : RendersRound o topRound
    (fun _ _ found => found.Faithful o.text) fun _ _ found => found.Faithful o.text := by
  intro found lo c hc hfound
  refine ends_topRound.2 ⟨fun _ => ⟨Follows.refl hc.stands, hfound⟩, fun t _ => ?_⟩
  rw [topStatement_eq]
  refine renders_statementOf (fun h _ => h) (renders_topDefinition found) hc hfound fun _ => ?_
  simp only [topSimple, ends_bind, ends_check, ends_ite, ends_pass, ends_pure]
  split
  · exact ⟨hc.stands.advance, hfound⟩
  · refine ((ends_passStatement hc.stands).of_safe trivial).mono ?_
    rintro _ c₁ ⟨_, hpast, h⟩
    exact ⟨hpast.toFollows.trans h, hfound⟩

/-- A module that is read from the start of its source is faithful to it. -/
theorem faithful_moduleOutline (hc : c.At o 0) :
    Ends .any moduleOutline o c fun m _ => m.Faithful o.text := by
  simp only [moduleOutline, ends_bind, ends_sourceSize, ends_makeSpan, ends_pure]
  have hc' : ({ c with made := c.made + 1 } : Cursor).At o 0 := ⟨hc.stands, hc.spelled, hc.le_place⟩
  refine ((settles_docstring _ hc'.stands (Nat.lt_succ_self _)).of_safe trivial).mono
    fun doc c₁ h₁ => ?_
  refine (ends_rendersLoop (s := (⟨[], []⟩ : TopLevel)) rendersRound_topRound (hc'.follows h₁)
    ⟨List.forall_mem_nil _, List.forall_mem_nil _⟩).mono ?_
  rintro found c₂ ⟨_, hfound⟩
  exact ⟨⟨Nat.le_refl _, Nat.zero_le _, Nat.le_refl _, isCut_zero _, isCut_byteLength _⟩,
    hfound.functions, hfound.classes⟩

/-- What the reading of a source ensures, its outline has. -/
theorem of_parse {source path : String} {m : ModuleOutline} {P : ModuleOutline → Prop}
    (h : parse source path = .outline m)
    (hP : ∀ tokens, tokenizeChars source.toList = .ok tokens →
      Ends .any moduleOutline ⟨source.toList, moduleId path⟩ (.first tokens) fun m _ => P m) :
    P m := by
  unfold parse at h
  dsimp only at h
  split at h
  · cases h
  · rename_i tokens htokens
    have hmodule := hP tokens htokens
    unfold Ends at hmodule
    split at h
    · rename_i hdone
      rw [hdone] at hmodule
      cases h
      exact hmodule
    · cases h
    · cases h

/-- The first place of a source stands at its start. -/
theorem at_first {tokens : List Lexeme} (path : String) (h : tokenizeChars text = .ok tokens) :
    (Cursor.first tokens).At ⟨text, path⟩ 0 :=
  ⟨stands_first path h, fun _ hl => spelled_of_tokenizeChars h hl, Nat.zero_le _⟩

/-- The classes of a source are faithful, at any depth. -/
theorem faithful_class_of_parse {source path : String} {m : ModuleOutline} {k : ClassOutline}
    (h : parse source path = .outline m) (hk : k ∈ preorderAll m.classes) :
    k.Faithful source.toList :=
  have hm : m.Faithful source.toList :=
    of_parse h fun _ htokens => faithful_moduleOutline (at_first _ htokens)
  hm.classes k hk

/-- **The outline of every source is faithful to it.**  Every span is a stretch of the source
on borders of characters, names, numbers and texts read as the source does there, the parts
of a definition lie inside it, and in a class body the definitions lie apart from each other
and from the bindings, all in the order of the source. -/
theorem parse_faithful {source path : String} {m : ModuleOutline}
    (h : parse source path = .outline m) : m.Faithful source.toList :=
  of_parse h fun _ htokens => faithful_moduleOutline (at_first _ htokens)

/-- A class with every kind of part. -/
def classWithParts : String :=
  "class A(B, *C, k=D[0]):\n x = y = 1, f(2)\n @d\n def m(self, a: T = 0): self.z = a\n"
    ++ " class K: 0\n z: T\n"

/-- A class with a base, a starred base and a keyword, a chain of assignments, a decorated method
that binds its receiver, a class in it and an annotation. -/
theorem parse_classWithParts_faithful :
    ∃ m, parse classWithParts "" = .outline m ∧ m.Faithful classWithParts.toList ∧
      (preorderAll m.classes).map (·.name) = ["A", "K"] := by
  obtain ⟨m, hm, hnames⟩ := exists_outline classWithParts ""
    (fun m => (preorderAll m.classes).map (·.name) == ["A", "K"]) (by decide +kernel)
  exact ⟨m, hm, parse_faithful hm, by simpa using hnames⟩

end Outline
end Lineage
