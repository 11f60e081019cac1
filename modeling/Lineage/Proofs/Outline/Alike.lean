/-
# Expressions that are read alike

Two expressions are alike if they differ in their places only (`Expression.Alike`): then they have
the same text, bind the same targets and have alike elements.  On a stretch that two sources share,
the reading of an expression follows itself, and what is found is alike (`sim_expression`).  The
readings of bindings, of headers and of decorators follow themselves as well.
-/

import Lineage.Proofs.Outline.Lockstep
import Lineage.Proofs.Outline.Definitions

namespace Lineage
namespace Outline

open Source Reading Text Parallel

/-! ### Expressions without their places -/

mutual

/-- The expression without its places. -/
def Expression.bare : Expression → Expression
  | .name id _ => .name id default
  | .member value field _ => .member value.bare field default
  | .call function arguments _ => .call function.bare (bareArguments arguments) default
  | .subscript value slice _ => .subscript value.bare slice default
  | .string value _ => .string value default
  | .number value _ => .number value default
  | .tuple elements _ => .tuple (bareAll elements) default
  | .list elements _ => .list (bareAll elements) default
  | .other text _ => .other text default

/-- Expressions without their places. -/
def bareAll : List Expression → List Expression
  | [] => []
  | e :: es => e.bare :: bareAll es

/-- Arguments without their places. -/
def bareArguments : List (Argument Expression) → List (Argument Expression)
  | [] => []
  | ⟨keyword, value, unpacking⟩ :: rest => ⟨keyword, value.bare, unpacking⟩ :: bareArguments rest

end

/-- The argument without its places. -/
def Argument.bare (a : Argument Expression) : Argument Expression :=
  ⟨a.name, a.value.bare, a.unpacking⟩

/-- The places of a list of expressions are dropped one by one. -/
theorem bareAll_eq_map (es : List Expression) : bareAll es = es.map Expression.bare := by
  induction es with
  | nil => rfl
  | cons e es ih => rw [bareAll, ih, List.map_cons]

/-- The places of a list of arguments are dropped one by one. -/
theorem bareArguments_eq_map (as : List (Argument Expression)) :
    bareArguments as = as.map Argument.bare := by
  induction as with
  | nil => rfl
  | cons a as ih => rw [bareArguments, ih, List.map_cons, Argument.bare]

namespace Expression

mutual

/-- The text of an expression does not depend on its places. -/
theorem text_bare : ∀ e : Expression, e.bare.text = e.text
  | .name _ _ | .string _ _ | .number _ _ | .other _ _ => rfl
  | .member value _ _ => by rw [bare, text, text, text_bare value]
  | .call function arguments _ => by
    rw [bare, text, text, text_bare function, argumentTexts_bareArguments arguments]
  | .subscript value _ _ => by rw [bare, text, text, text_bare value]
  | .tuple elements _ => by
    rw [bare, text, text, texts_bareAll elements, bareAll_eq_map, List.length_map]
  | .list elements _ => by rw [bare, text, text, texts_bareAll elements]

/-- Nor do the texts of a list of expressions. -/
theorem texts_bareAll : ∀ es : List Expression, texts (bareAll es) = texts es
  | [] => rfl
  | e :: es => by rw [bareAll, texts, texts, text_bare e, texts_bareAll es]

/-- Nor do those of a list of arguments. -/
theorem argumentTexts_bareArguments :
    ∀ as : List (Argument Expression), argumentTexts (bareArguments as) = argumentTexts as
  | [] => rfl
  | ⟨_, value, _⟩ :: as => by
    simp only [bareArguments, argumentTexts, text_bare value, argumentTexts_bareArguments as]

end

/-- The dotted name of an expression does not depend on its places. -/
theorem dottedName?_bare : ∀ e : Expression, e.bare.dottedName? = e.dottedName?
  | .name _ _ | .string _ _ | .number _ _ | .other _ _ | .call _ _ _ | .subscript _ _ _
  | .tuple _ _ | .list _ _ => rfl
  | .member value _ _ => by rw [bare, dottedName?, dottedName?, dottedName?_bare value]

/-- The elements of an expression without places are its elements without theirs. -/
theorem elements?_bare (e : Expression) : e.bare.elements? = e.elements?.map (·.map bare) := by
  cases e with
  | tuple elements => rw [bare, elements?, elements?, bareAll_eq_map, Option.map_some]
  | list elements => rw [bare, elements?, elements?, bareAll_eq_map, Option.map_some]
  | _ => rfl

/-- What an expression binds in a class body does not depend on its places. -/
theorem classTargets_bare (e : Expression) : classTargets e.bare = classTargets e := by
  cases e with
  | tuple elements =>
    have hnames : (elements.map bare).filterMap dottedName? = elements.filterMap dottedName? := by
      rw [List.filterMap_map]
      exact List.filterMap_congr fun e _ => dottedName?_bare e
    rw [bare, classTargets, classTargets, bareAll_eq_map, hnames]
  | _ => rfl

/-- The expressions differ in their places only. -/
def Alike (e e' : Expression) : Prop := e.bare = e'.bare

/-- Alike expressions bind the same in a class body. -/
theorem Alike.classTargets {e e' : Expression} (h : e.Alike e') :
    classTargets e = classTargets e' := by
  rw [← classTargets_bare e, h, classTargets_bare]

end Expression

/-- The lists have alike expressions in them. -/
def AlikeAll (es es' : List Expression) : Prop := es.map Expression.bare = es'.map Expression.bare

/-- The lists have arguments in them that differ in their places only. -/
def AlikeArguments (as as' : List (Argument Expression)) : Prop :=
  as.map Argument.bare = as'.map Argument.bare

/-- Alike lists stay alike with one more alike expression. -/
theorem AlikeAll.concat {es es' : List Expression} {e e' : Expression} (h : AlikeAll es es')
    (he : e.Alike e') : AlikeAll (es ++ [e]) (es' ++ [e']) := by
  unfold AlikeAll at h ⊢
  rw [List.map_append, List.map_append, h, List.map_singleton, List.map_singleton, he]

/-- Alike expressions are alike lists of one. -/
theorem alikeAll_singleton {e e' : Expression} (h : e.Alike e') : AlikeAll [e] [e'] := by
  rw [AlikeAll, List.map_singleton, List.map_singleton, h]

/-- Tuples of alike expressions are alike. -/
theorem alike_tuple {es es' : List Expression} (h : AlikeAll es es') (s s' : Span) :
    (Expression.tuple es s).Alike (.tuple es' s') := by
  rw [Expression.Alike, Expression.bare, Expression.bare, bareAll_eq_map, bareAll_eq_map, h]

/-- Lists of alike expressions are alike. -/
theorem alike_list {es es' : List Expression} (h : AlikeAll es es') (s s' : Span) :
    (Expression.list es s).Alike (.list es' s') := by
  rw [Expression.Alike, Expression.bare, Expression.bare, bareAll_eq_map, bareAll_eq_map, h]

/-- Calls of alike expressions with alike arguments are alike. -/
theorem alike_call {e e' : Expression} {as as' : List (Argument Expression)} (he : e.Alike e')
    (h : AlikeArguments as as') (s s' : Span) :
      (Expression.call e as s).Alike (.call e' as' s') := by
  rw [Expression.Alike, Expression.bare, Expression.bare, bareArguments_eq_map,
    bareArguments_eq_map, h, he]

/-- Alike expressions have alike members. -/
theorem alike_member {e e' : Expression} (he : e.Alike e') (field : String) (s s' : Span) :
    (Expression.member e field s).Alike (.member e' field s') := by
  rw [Expression.Alike, Expression.bare, Expression.bare, he]

/-- Alike expressions have alike subscripts. -/
theorem alike_subscript {e e' : Expression} (he : e.Alike e') (slice : String) (s s' : Span) :
    (Expression.subscript e slice s).Alike (.subscript e' slice s') := by
  rw [Expression.Alike, Expression.bare, Expression.bare, he]

/-! ### Readings go on -/

-- a reading of many steps goes on because each of its steps does
set_option synthInstance.maxSize 400

section Onward

variable {inner : Reading Expression} {start : Nat} {e : Expression} {elements : List Expression}

/-- To look whether an expression has ended passes nothing. -/
instance : Onward atExpressionEnd := ⟨fun _ c => ends_atExpressionEnd.2 (Reaches.refl c)⟩

/-- A loose expression is passed going onward. -/
instance : Onward (looseExpression start) := by
  unfold looseExpression
  infer_instance

/-- A group in brackets is passed going onward. -/
instance : Onward passGroup := by
  refine .seq inferInstance fun tokens => .seq inferInstance fun opened => .seq inferInstance
    fun g => .seq inferInstance fun _ => ?_
  split
  · split <;> infer_instance
  · infer_instance

/-- String literals are passed going onward. -/
instance (n : Nat) : Onward (passStrings n) := by
  unfold passStrings
  infer_instance

/-- A display in braces is read going onward. -/
instance : Onward (braced start) := by
  unfold braced
  infer_instance

/-- The stars of an argument are read going onward. -/
instance : Onward argumentStars := .seq inferInstance fun _ => by split <;> infer_instance

/-- The keyword of an argument is read going onward. -/
instance (unpacking : Unpacking) : Onward (argumentKeyword unpacking) :=
  .seq inferInstance fun _ => .seq inferInstance fun _ => by split <;> infer_instance

variable [Onward inner]

/-- One more element of a tuple is read going onward. -/
instance : Onward (tupleRound inner elements) := by
  unfold tupleRound
  infer_instance

/-- The elements of a tuple behind the first one are read going onward. -/
instance : Onward (tupleRest inner e) := by
  unfold tupleRest
  infer_instance

/-- What stands in parentheses is read going onward. -/
instance : Onward (parenthesized inner start) := by
  unfold parenthesized
  infer_instance

/-- One more element of a list is read going onward. -/
instance : Onward (listRound inner elements) := by
  unfold listRound
  infer_instance

/-- The elements of a list are read going onward. -/
instance : Onward (listElements inner) := by
  unfold listElements
  infer_instance

/-- A list display is read going onward. -/
instance : Onward (bracketed inner start) := by
  unfold bracketed
  infer_instance

/-- A primary expression is read going onward. -/
instance : Onward (primary inner) :=
  .seq inferInstance fun _ => .seq inferInstance fun _ => by split <;> infer_instance

/-- An argument is read going onward. -/
instance : Onward (argument inner) := by
  unfold argument
  infer_instance

/-- One more argument is read going onward. -/
instance (found : List (Argument Expression)) : Onward (argumentRound inner found) := by
  unfold argumentRound
  infer_instance

/-- The arguments of a call are read going onward. -/
instance : Onward (arguments inner) := by
  unfold arguments
  infer_instance

/-- One more member, call or subscript is read going onward. -/
instance : Onward (postfixRound inner start e) := by
  refine .seq inferInstance fun _ => ?_
  split
  · exact .seq inferInstance fun _ => by split <;> infer_instance
  · infer_instance
  · infer_instance
  · infer_instance

/-- A chain of members, calls and subscripts is read going onward. -/
instance : Onward (chain inner) := by
  unfold chain
  infer_instance

/-- An expression is read going onward if those in it are. -/
instance : Onward (expressionOver inner) := by
  unfold expressionOver
  infer_instance

omit [Onward inner]

/-- Expressions nested up to any depth are read going onward. -/
instance (n : Nat) : Onward (expressionWithin n) := by
  induction n with
  | zero => exact inferInstanceAs (Onward (fault _))
  | succ n ih => exact inferInstanceAs (Onward (expressionOver _))

/-- An expression is read going onward. -/
instance : Onward expression :=
  ⟨fun o c => Onward.reaches (x := expressionWithin (c.rest.length + 1)) o c⟩

/-- One more expression of a list is read going onward. -/
instance : Onward (expressionRound elements) := by
  unfold expressionRound
  infer_instance

/-- A list of expressions is read going onward. -/
instance : Onward expressionList := by
  unfold expressionList
  infer_instance

end Onward

/-! ### Expressions -/

section Sim

variable {o o' : Origin} {W : Parallel o o'} {c c' : Cursor} {inner : Reading Expression}
  {i i' : Nat} {e e' : Expression} {es es' : List Expression}

/-- An expression of no modelled shape, from an offset on the stretch. -/
theorem sim_looseExpression (h : W.Offsets i i') :
    W.Sim (looseExpression i) (looseExpression i') Expression.Alike := fun c c' hc => by
  obtain ⟨a, a', hrest, hrest', hmatched⟩ := hc.ahead
  simp only [SimAt, looseExpression, ends_bind, ends_ahead, ends_orFault_any, ends_pass,
    ends_lastStop,
    ends_sourceText_any, ends_makeSpan, ends_pure]
  intro n hn cs hcs hon
  have hpass := hc.advanceBy hon
  have hlocated : W.Located ⟨i, _⟩ ⟨i', _⟩ := ⟨h, h.max hpass.lastStop⟩
  rw [Cursor.rest_advanceBy, hrest] at hon
  rw [hrest] at hn
  rw [hrest', looseLength?_matched hmatched hn hon, ends_orFault_some]
  exact (ends_sourceText_of_slice (hlocated.slice_eq hcs)).2 ⟨rfl, hpass.made _ _⟩

/-- A display in braces, from an offset on the stretch. -/
theorem simAt_braced (hc : W.Twins c c') (h : W.Offsets i i')
    (hnext : c.next? = some .openBrace) :
    W.SimAt c c' (braced i) (braced i') Expression.Alike := by
  simp only [SimAt, braced, ends_bind, ends_lastStop, ends_sourceText_any, ends_makeSpan, ends_pure]
  refine (ends_passGroup_twins hc).mono fun _ d hd cs hcs hon => (hd hon).mono ?_
  rintro _ d' ⟨_, g, hg, hat, hat'⟩
  -- behind the first brace, what has been passed is on the stretch
  obtain ⟨l, l', hl, hl', hmatched, hadvance⟩ := hc.matched_of_next hnext (by decide)
  obtain ⟨ls, hls⟩ := List.head?_eq_some_iff.1 hl
  obtain ⟨ls', hls'⟩ := List.head?_eq_some_iff.1 hl'
  have hbrace : l.token = .openBrace := by simpa [Cursor.next?, hls] using hnext
  rw [hls, group?, if_pos (by rw [hbrace]; rfl)] at hg
  obtain ⟨g, _, rfl⟩ := Option.map_eq_some_iff.1 hg
  have hstop : W.Offsets c.advance.lastStop c'.advance.lastStop := by
    rw [Cursor.lastStop_advance hls (by rw [hbrace]; rfl),
      Cursor.lastStop_advance hls' (by rw [hmatched.token, hbrace]; rfl)]
    exact hmatched.extent.stop
  have hon' : W.behind <:+ (c.advance.advanceBy g.length).rest := hat ▸ hon
  have hlast : W.Offsets d.lastStop d'.lastStop := by
    rw [hat, hat']
    exact hadvance.offsets_advanceBy hstop hon'
  have hlocated : W.Located ⟨i, _⟩ ⟨i', _⟩ := ⟨h, hlast⟩
  refine (ends_sourceText_of_slice (hlocated.slice_eq hcs)).2 ⟨rfl, ?_⟩
  rw [hat, hat']
  exact (hadvance.advanceBy hon').made _ _

/-- Expressions with commas between them. -/
theorem sim_commaRound [Onward inner] {ended : Reading Bool} [Onward ended]
    (hinner : W.Sim inner inner Expression.Alike) (hended : W.Sim ended ended Eq)
    (h : AlikeAll es es') :
    W.Sim (commaRound inner ended es) (commaRound inner ended es') (Rounds AlikeAll AlikeAll) := by
  refine (sim_accept (by decide)).bind fun comma _ hcomma => ?_
  subst hcomma
  refine Sim.ite (fun _ => ?_) fun _ => sim_pure (.stop h)
  refine hended.bind fun last _ hlast => ?_
  subst hlast
  refine Sim.ite (fun _ => sim_pure (.stop h)) fun _ => ?_
  exact hinner.bind fun e e' he => sim_pure (.again (h.concat he))

section Nested

variable [Onward inner] (hinner : W.Sim inner inner Expression.Alike)

include hinner

/-- One more element of a tuple is read alike in both sources. -/
theorem sim_tupleRound (h : AlikeAll es es') :
    W.Sim (tupleRound inner es) (tupleRound inner es') (Rounds AlikeAll AlikeAll) := by
  rw [tupleRound_eq]
  exact sim_commaRound hinner (sim_check (by decide)) h

/-- The elements of a tuple behind the first one are read alike. -/
theorem sim_tupleRest (h : e.Alike e') :
    W.Sim (tupleRest inner e) (tupleRest inner e') AlikeAll :=
  Sim.repeatRounds (fun _ _ => sim_tupleRound hinner) (alikeAll_singleton h)

/-- What stands in parentheses is read alike. -/
theorem sim_parenthesized (i i' : Nat) :
    W.Sim (parenthesized inner i) (parenthesized inner i') Expression.Alike := by
  refine (sim_pass 1).bind fun _ _ _ => (sim_accept (by decide)).bind fun closed _ hclosed => ?_
  subst hclosed
  refine Sim.ite (fun _ => ?_) fun _ => ?_
  · exact (sim_spanFrom i i').bind fun s s' _ => sim_pure (alike_tuple rfl s s')
  · refine hinner.bind fun first first' hfirst => ?_
    refine (sim_check (by decide)).bind fun comma _ hcomma => ?_
    subst hcomma
    refine Sim.ite (fun _ => ?_) fun _ => ?_
    · refine (sim_tupleRest hinner hfirst).bind fun es es' hes => ?_
      refine (sim_expect (by decide)).bind fun _ _ _ => ?_
      exact (sim_spanFrom i i').bind fun s s' _ => sim_pure (alike_tuple hes s s')
    · exact (sim_expect (by decide)).bind fun _ _ _ => sim_pure hfirst

/-- One more element of a list is read alike. -/
theorem sim_listRound (h : AlikeAll es es') :
    W.Sim (listRound inner es) (listRound inner es') (Rounds AlikeAll AlikeAll) := by
  refine (sim_check (by decide)).bind fun close _ hclose => ?_
  subst hclose
  refine Sim.ite (fun _ => sim_pure (.stop h)) fun _ => hinner.bind fun e e' he => ?_
  refine (sim_accept (by decide)).bind fun comma _ hcomma => ?_
  subst hcomma
  exact Sim.ite (fun _ => sim_pure (.again (h.concat he))) fun _ => sim_pure (.stop (h.concat he))

/-- A list display is read alike. -/
theorem sim_bracketed (i i' : Nat) :
    W.Sim (bracketed inner i) (bracketed inner i') Expression.Alike := by
  have helements : W.Sim (listElements inner) (listElements inner) AlikeAll :=
    Sim.repeatRounds (S := AlikeAll) (fun _ _ => sim_listRound hinner) rfl
  refine (sim_pass 1).bind fun _ _ _ => helements.bind fun es es' hes => ?_
  refine (sim_expect (by decide)).bind fun _ _ _ => ?_
  exact (sim_spanFrom i i').bind fun s s' _ => sim_pure (alike_list hes s s')

/-- A primary expression is read alike. -/
theorem sim_primary : W.Sim (primary inner) (primary inner) Expression.Alike := by
  intro c c' hc
  refine simAt_peekStart.2 (simAt_peek.2 ?_)
  have hi := hc.place
  generalize (c.place o).start = i at hi
  generalize (c'.place o').start = i' at hi
  have hspan := sim_spanFrom (W := W) i i'
  rcases hc.next with hnext | ⟨hnext, hnext'⟩
  · rw [hnext]
    split
    · exact ((sim_pass 1).bind fun _ _ _ => hspan.bind fun _ _ _ => sim_pure rfl) hc
    · refine (sim_ahead.bind fun ls ls' ⟨a, a', hls, hls', hmatched⟩ => ?_) hc
      rw [hls', stringCount_matched hmatched, ← hls]
      refine (sim_passStrings _).bind fun value _ hvalue => ?_
      subst hvalue
      exact hspan.bind fun _ _ _ => sim_pure rfl
    · exact ((sim_pass 1).bind fun _ _ _ => hspan.bind fun _ _ _ => sim_pure rfl) hc
    · exact sim_parenthesized hinner i i' hc
    · exact sim_bracketed hinner i i' hc
    · rename_i hbrace
      exact simAt_braced hc hi hbrace
    · exact sim_refuse hc
    · exact (Sim.ite (fun _ => sim_refuseNext) fun _ => sim_looseExpression hi) hc
  · rw [hnext, hnext']
    exact sim_refuseNext hc

/-- An argument is read alike. -/
theorem sim_argument : W.Sim (argument inner) (argument inner)
    fun a a' => a.bare = a'.bare := by
  have hstars : W.Sim argumentStars argumentStars Eq := by
    refine sim_peek.bind_of (fun _ => by split <;> infer_instance) fun t t' ht => ?_
    rcases ht with rfl | ⟨rfl, rfl⟩
    · split
      · exact (sim_pass 1).bind fun _ _ _ => sim_pure rfl
      · exact (sim_pass 1).bind fun _ _ _ => sim_pure rfl
      · exact sim_pure rfl
    · exact sim_pure rfl
  refine hstars.bind fun unpacking _ hunpacking => ?_
  subst hunpacking
  have hkeyword : W.Sim (argumentKeyword unpacking) (argumentKeyword unpacking) Eq := by
    refine sim_peek.bind_of (fun _ => .seq inferInstance fun _ => by split <;> infer_instance)
      fun t t' ht => (sim_peekAt 1).bind_of (fun _ => by split <;> infer_instance) fun u u' hu => ?_
    rcases ht with rfl | ⟨rfl, rfl⟩
    · rcases hu with rfl | ⟨rfl, rfl⟩
      · split
        · exact (sim_pass 2).bind fun _ _ _ => sim_pure rfl
        · exact sim_pure rfl
      · split
        · exact nomatch ‹some Token.semicolon = some Token.equals›
        · split
          · exact nomatch ‹some Token.newline = some Token.equals›
          · exact sim_pure rfl
    · split
      · exact nomatch ‹some Token.semicolon = some (Token.identifier _)›
      · split
        · exact nomatch ‹some Token.newline = some (Token.identifier _)›
        · exact sim_pure rfl
  refine hkeyword.bind fun name _ hname => ?_
  subst hname
  exact hinner.bind fun e e' he => sim_pure (by rw [Argument.bare, Argument.bare, he])

/-- One more argument is read alike. -/
theorem sim_argumentRound {as as' : List (Argument Expression)} (h : AlikeArguments as as') :
    W.Sim (argumentRound inner as) (argumentRound inner as')
      (Rounds AlikeArguments AlikeArguments) := by
  refine (sim_check (by decide)).bind fun close _ hclose => ?_
  subst hclose
  refine Sim.ite (fun _ => sim_pure (.stop h)) fun _ => sim_atEnd.bind fun b _ hb => ?_
  subst hb
  refine Sim.ite (fun _ => sim_peekStart.bind fun _ _ _ => sim_refuse) fun _ => ?_
  refine (sim_argument hinner).bind fun a a' ha => ?_
  have hconcat : AlikeArguments (as ++ [a]) (as' ++ [a']) := by
    unfold AlikeArguments at h ⊢
    rw [List.map_append, List.map_append, h, List.map_singleton, List.map_singleton, ha]
  refine (sim_accept (by decide)).bind fun comma _ hcomma => ?_
  subst hcomma
  exact Sim.ite (fun _ => sim_pure (.again hconcat)) fun _ => sim_pure (.stop hconcat)

/-- The arguments of a call are read alike. -/
theorem sim_arguments : W.Sim (arguments inner) (arguments inner) AlikeArguments := by
  have hrounds : W.Sim (repeatRounds (argumentRound inner) [])
      (repeatRounds (argumentRound inner) []) AlikeArguments :=
    Sim.repeatRounds (S := AlikeArguments) (fun _ _ => sim_argumentRound hinner) rfl
  exact hrounds.bind fun _ _ h => (sim_expect (by decide)).bind fun _ _ _ => sim_pure h

/-- One more member, call or subscript is read alike. -/
theorem sim_postfixRound (h : e.Alike e') :
    W.Sim (postfixRound inner i e) (postfixRound inner i' e')
      (Rounds Expression.Alike Expression.Alike) := by
  refine sim_peek.bind_of (fun _ => ?_) fun t t' ht => ?_
  · split
    · exact .seq inferInstance fun _ => by split <;> infer_instance
    all_goals infer_instance
  rcases ht with rfl | ⟨rfl, rfl⟩
  · split
    · refine (sim_peekAt 1).bind_of (fun _ => by split <;> infer_instance) fun u u' hu => ?_
      rcases hu with rfl | ⟨rfl, rfl⟩
      · split
        · rename_i field
          refine (sim_pass 2).bind fun _ _ _ => (sim_spanFrom i i').bind fun s s' _ => ?_
          exact sim_pure (.again (alike_member h field s s'))
        · exact sim_pure (.stop h)
      · exact sim_pure (.stop h)
    · refine (sim_pass 1).bind fun _ _ _ => (sim_arguments hinner).bind fun as as' has => ?_
      exact (sim_spanFrom i i').bind fun s s' _ => sim_pure (.again (alike_call h has s s'))
    · refine sim_passGroup.bind fun between between' hbetween => ?_
      refine sim_lastStop.bind fun stop stop' _ => ?_
      refine (sim_sourceText hbetween).bind fun slice _ hslice => ?_
      subst hslice
      exact (sim_makeSpan i stop i' stop').bind fun s s' _ =>
        sim_pure (.again (alike_subscript h _ s s'))
    · exact sim_pure (.stop h)
  · exact sim_pure (.stop h)

/-- A chain of members, calls and subscripts is read alike. -/
theorem sim_chain : W.Sim (chain inner) (chain inner) Expression.Alike :=
  sim_peekStart.bind fun _ _ _ => (sim_primary hinner).bind fun _ _ he =>
    Sim.repeatRounds (fun _ _ => sim_postfixRound hinner) he

/-- An expression is read alike if those in it are. -/
theorem sim_expressionOver :
    W.Sim (expressionOver inner) (expressionOver inner) Expression.Alike := by
  refine sim_peekStart.bind fun i i' hi => (sim_check (by decide)).bind fun b _ hb => ?_
  subst hb
  refine Sim.ite (fun _ => sim_looseExpression hi) fun _ => ?_
  refine (sim_chain hinner).bind fun e e' he => sim_atExpressionEnd.bind fun b _ hb => ?_
  subst hb
  exact Sim.ite (fun _ => sim_pure he) fun _ => sim_looseExpression hi

end Nested

/-- Expressions nested up to any depth are read alike. -/
theorem sim_expressionWithin (n : Nat) :
    W.Sim (expressionWithin n) (expressionWithin n) Expression.Alike := by
  induction n with
  | zero => exact sim_fault
  | succ n ih => exact sim_expressionOver ih

/-- **An expression is read alike** on a stretch that two sources share. -/
theorem sim_expression : W.Sim expression expression Expression.Alike := by
  intro c c' hc
  have h := sim_expressionWithin (c.rest.length + 1) hc
  unfold SimAt Ends at h ⊢
  simpa only [expression, hc.length_eq] using h

/-- One more expression of a list is read alike. -/
theorem sim_expressionRound (h : AlikeAll es es') :
    W.Sim (expressionRound es) (expressionRound es') (Rounds AlikeAll AlikeAll) := by
  rw [expressionRound_eq]
  exact sim_commaRound sim_expression sim_atExpressionEnd h

/-- A list of expressions is read alike. -/
theorem sim_expressionList : W.Sim expressionList expressionList Expression.Alike := by
  refine sim_peekStart.bind fun i i' _ => sim_expression.bind fun e e' he => ?_
  refine (sim_check (by decide)).bind fun comma _ hcomma => ?_
  subst hcomma
  refine Sim.ite (fun _ => ?_) fun _ => sim_pure he
  have hrounds : W.Sim (repeatRounds expressionRound [e]) (repeatRounds expressionRound [e'])
      AlikeAll := Sim.repeatRounds (fun _ _ => sim_expressionRound) (alikeAll_singleton he)
  exact hrounds.bind fun es es' hes =>
    (sim_spanFrom i i').bind fun s s' _ => sim_pure (alike_tuple hes s s')

end Sim

end Outline
end Lineage
