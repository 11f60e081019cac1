/-
# Expressions stay on their line

Every reading of an expression ends with a value or a refusal, and reads no further than
its line, with the brackets closed that it opens (`Cursor.Reads`).  For the readings that
take the reading of a smaller expression this holds if it does for the smaller one, on
fewer tokens (`Settles`); `settles_expression` closes the loop.

What is used of that relation of places is that it composes, and what it says of one token,
of a bracketed group and of an expression of no modelled shape (`IsBracketPath`).  So the
readings are followed for every such relation, and `Cursor.Reads` is one of them.
-/

import Lineage.Proofs.Outline.Passing

namespace Lineage
namespace Outline

open Source Reading Text Cursor

variable {α σ : Type} {o : Origin} {c c' : Cursor} {R : Cursor → Cursor → Prop} {n : Nat}
  {I : σ → Prop} {step : σ → Reading (Round σ α)} {inner : Reading Expression} {start : Nat}
  {t : Token}

/-! ### Contracts -/

/-- Where fewer than `n` tokens are ahead, the reading ends with a refusal, or with a
value at a place that `R` relates to its start. -/
def Settles (o : Origin) (R : Cursor → Cursor → Prop) (n : Nat) (x : Reading α) : Prop :=
  ∀ c, c.Stands o → c.rest.length < n → Ends .safe x o c fun _ c' => R c c'

/-- Every round of a loop settles, and one that is not the last passes a token. -/
def Advances (o : Origin) (R : Cursor → Cursor → Prop) (n : Nat) (I : σ → Prop)
    (step : σ → Reading (Round σ α)) : Prop :=
  ∀ s c, I s → c.Stands o → c.rest.length < n → Ends .safe (step s) o c
    (AfterRound (fun s' c' => I s' ∧ R c c' ∧ c'.rest.length < c.rest.length) fun _ c' => R c c')

/-- A relation of places that composes. -/
structure IsPath (o : Origin) (R : Cursor → Cursor → Prop) : Prop where
  refl : ∀ {c}, c.Stands o → R c c
  trans : ∀ {c c' c''}, R c c' → R c' c'' → R c c''
  follows : ∀ {c c'}, R c c' → Follows o c c'

/-- Later places compose. -/
theorem isPath_follows (o : Origin) : IsPath o (Follows o) := ⟨Follows.refl, Follows.trans, id⟩

/-- Places further on the line, with no bracket left open, compose. -/
theorem isPath_reads (o : Origin) : IsPath o (Reads o 0 0) :=
  ⟨Reads.refl, Reads.trans, Reads.toFollows⟩

/-- **A loop whose rounds advance settles.** -/
theorem settles_repeatRounds (hR : IsPath o R) (h : Advances o R n I step) {s : σ} (hs : I s) :
    Settles o R n (repeatRounds step s) := by
  intro c hc hn
  refine ends_repeatRounds (I := fun s c' => I s ∧ R c c') (fun s c' hI => ?_) ⟨hs, hR.refl hc⟩
  have hfollows := hR.follows hI.2
  refine (h s c' hI.1 hfollows.stands (Nat.lt_of_le_of_lt hfollows.length_le hn)).mono
    fun r c'' hr => ?_
  cases r with
  | again s' => exact ⟨⟨hr.1, hR.trans hI.2 hr.2.1⟩, hr.2.2⟩
  | stop a => exact hR.trans hI.2 hr

/-! ### Relations that know brackets -/

/-- A token of a line that no reading treats in a way of its own. -/
def isPlain : Token → Bool
  | .lambdaKeyword | .colon | .semicolon => false
  | t => !(t.isLayout || t.isOpener || t.isCloser)

/-- A plain token is no layout, and opens and closes nothing. -/
theorem isPlain_eq_true (h : isPlain t = true) :
    t.isLayout = false ∧ t.isOpener = false ∧ t.isCloser = false := by
  cases t <;> first | exact ⟨rfl, rfl, rfl⟩ | cases h

/-- A string token is plain. -/
theorem isPlain_of_isString (h : t.isString = true) : isPlain t = true := by
  cases t <;> first | rfl | cases h

/-- A relation of places that composes, for each number of brackets that may be open at the one
and at the other: it holds of a single token, of a group of brackets that is passed and of an
expression of no modelled shape. -/
structure IsBracketPath (o : Origin) (P : Nat → Nat → Cursor → Cursor → Prop) : Prop where
  refl : ∀ {a c}, c.Stands o → P a a c c
  trans : ∀ {a b k c c' c''}, P a b c c' → P b k c' c'' → P a k c c''
  follows : ∀ {a b c c'}, P a b c c' → Follows o c c'
  shift : ∀ {c c'}, P 0 0 c c' → ∀ k, P k k c c'
  made : ∀ {a b c c' n}, P a b c { c' with made := n } ↔ P a b c c'
  opener : ∀ {a c t}, c.Stands o → c.next? = some t → t.isOpener = true → P a (a + 1) c c.advance
  closer : ∀ {a c t}, c.Stands o → c.next? = some t → t.isCloser = true → P (a + 1) a c c.advance
  plain : ∀ {a c t}, c.Stands o → c.next? = some t → isPlain t = true → P a a c c.advance
  loose : ∀ {c n}, c.Stands o → looseLength? 0 false c.rest = some n → P 0 0 c (c.advanceBy n)
  group : ∀ {c t g}, c.Stands o → c.next? = some t → t.isOpener = true →
    group? 0 c.rest = some g → P 0 0 c (c.advanceBy g.length)

/-- The group that the bracket ahead opens; what closes it stands in the source. -/
theorem exists_groupAhead (hc : c.Stands o) (hnext : c.next? = some t) (ht : t.isOpener = true) :
    ∃ n closed, group? 0 c.rest = some ⟨n + 1, closed⟩ ∧ Reads o 0 0 c (c.advanceBy (n + 1)) ∧
      (closed = true → ∃ closing, c.rest[n]? = some closing ∧
        (c.place o).stop ≤ closing.extent.start ∧ IsCut o.text closing.extent.start) := by
  obtain ⟨l, ls, hrest, rfl⟩ := next?_eq_some_iff.1 hnext
  obtain ⟨⟨n, closed⟩, hg, hrun, hclosed⟩ := exists_group? 0 ls
  refine ⟨n, closed, ?_, ?_, fun h => ?_⟩
  · rw [hrest, group?, if_pos ht, hg]
    rfl
  · refine hc.reads_run ?_
    rw [hrest]
    exact hrun.cons (isLayout_of_isOpener ht) (fun _ => lowers_opener ht) (by simp)
  · obtain ⟨hpos, hle⟩ := hclosed h
    cases n with
    | zero => cases hpos
    | succ n =>
      have hclosing : c.rest[n + 1]? = some ls[n] := by
        rw [hrest, List.getElem?_cons_succ]
        exact List.getElem?_eq_getElem hle
      exact ⟨ls[n], hclosing, hc.getElem?_rest hclosing⟩

/-- What is read on a line, with brackets counted, is such a relation. -/
theorem isBracketPath_reads (o : Origin) : IsBracketPath o (Reads o) where
  refl := Reads.refl
  trans := Reads.trans
  follows := Reads.toFollows
  shift := Reads.shift
  made := reads_made
  opener hc hnext ht := hc.reads_advance hnext (isLayout_of_isOpener ht) (lowers_opener ht)
  closer hc hnext ht := hc.reads_advance hnext (isLayout_of_isCloser ht) (lowers_closer ht)
  plain hc hnext ht :=
    have h := isPlain_eq_true ht
    hc.reads_other hnext h.1 h.2.1
  loose {c n} hc hn := by
    obtain ⟨n', hn', hrun⟩ := hasLooseLength (fun _ => rfl) c.rest
    obtain rfl := Option.some.inj (hn.symm.trans hn')
    exact hc.reads_run hrun
  group hc hnext ht hg := by
    obtain ⟨n, closed, hg', hreads, _⟩ := exists_groupAhead hc hnext ht
    obtain rfl := Option.some.inj (hg.symm.trans hg')
    exact hreads

namespace IsBracketPath

variable {P : Nat → Nat → Cursor → Cursor → Prop} (hP : IsBracketPath o P)

include hP

/-- Without open brackets the places make a path. -/
theorem isPath : IsPath o (P 0 0) := ⟨hP.refl, hP.trans, hP.follows⟩

/-- A place at the end of a path stands in the source. -/
theorem stands {a b : Nat} (h : P a b c c') : c'.Stands o := (hP.follows h).stands

/-- At the end of a path no more tokens are ahead. -/
theorem length_le {a b : Nat} (h : P a b c c') : c'.rest.length ≤ c.rest.length :=
  (hP.follows h).length_le

/-! ### Runs -/

/-- An expression of no modelled shape is read along the path. -/
theorem ends_looseExpression (hc : c.Stands o) (hstart : IsCut o.text start) :
    Ends .safe (looseExpression start) o c fun _ c' => P 0 0 c c' := by
  obtain ⟨n, hn, _⟩ := hasLooseLength (fun _ => rfl) c.rest
  have hpass := hP.loose hc hn
  simp only [looseExpression, ends_bind, ends_ahead, hn, ends_orFault_some, ends_pass,
    ends_lastStop]
  refine ends_sourceText hstart (isCut_max (hP.stands hpass).1 hstart) (Nat.le_max_right _ _)
    fun cs => ?_
  simp only [ends_makeSpan, ends_pure, hP.made]
  exact hpass

/-- A bracketed group is passed to its end, and what it holds can be cut out. -/
theorem ends_passGroup (hc : c.Stands o) (hnext : c.next? = some t) (ht : t.isOpener = true) :
    Ends .safe passGroup o c fun between c' => P 0 0 c c' ∧
      c'.rest.length < c.rest.length ∧ (c.place o).stop ≤ c'.lastStop ∧
      IsCut o.text between.start ∧ IsCut o.text between.stop ∧ between.start ≤ between.stop := by
  obtain ⟨n, closed, hgroup, _, hclosed⟩ := exists_groupAhead hc hnext ht
  have hpass : P 0 0 c (c.advanceBy (n + 1)) := hP.group hc hnext ht hgroup
  have hless : (c.advanceBy (n + 1)).rest.length < c.rest.length := length_advanceBy_lt hnext
  have hstop : (c.place o).stop ≤ (c.advanceBy (n + 1)).lastStop :=
    hc.place_stop_le hnext (isLayout_of_isOpener ht)
  have hcut := hc.place.2.1
  simp only [passGroup, ends_bind, ends_ahead, ends_peekPlace, hgroup, ends_orFault_some, ends_pass,
    ends_ite, Nat.add_sub_cancel]
  split
  · rename_i h
    obtain ⟨closing, hclosing, hfrom, hcut'⟩ := hclosed h
    rw [hclosing]
    exact ⟨hpass, hless, hstop, hcut, hcut', hfrom⟩
  · simp only [ends_lastStop, ends_pure]
    exact ⟨hpass, hless, hstop, hcut, isCut_max (hP.stands hpass).1 hcut, Nat.le_max_right _ _⟩

/-- Literals are passed one by one. -/
theorem strings (hc : c.Stands o) (hn : n ≤ stringCount c.rest) : P 0 0 c (c.advanceBy n) := by
  induction n generalizing c with
  | zero => exact hP.refl hc
  | succ n ih =>
    cases hrest : c.rest with
    | nil => simp [hrest, stringCount] at hn
    | cons l ls =>
      cases hl : l.token.isString with
      | false => simp [hrest, stringCount, hl] at hn
      | true =>
        have hnext : c.next? = some l.token := next?_eq_some_iff.2 ⟨l, ls, hrest, rfl⟩
        have hpass : P 0 0 c c.advance := hP.plain hc hnext (isPlain_of_isString hl)
        refine hP.trans hpass (ih (hP.stands hpass) ?_)
        simp only [hrest, stringCount, List.takeWhile_cons, hl, if_true, List.length_cons] at hn
        simpa [hrest, stringCount] using Nat.le_of_succ_le_succ hn

/-- The literals that are counted ahead have values, and are passed. -/
theorem ends_passStrings (hc : c.Stands o) (hn : n ≤ stringCount c.rest) :
    Ends .safe (passStrings n) o c fun _ c' => P 0 0 c c' ∧ c' = c.advanceBy n := by
  obtain ⟨value, hvalue⟩ := exists_joinLiterals? hc.2 hn
  simp only [passStrings, ends_bind, ends_ahead, hvalue, ends_orFault_some, ends_pass, ends_pure]
  exact ⟨hP.strings hc hn, trivial⟩

/-! ### Displays -/

/-- Every round over items with commas between them passes a comma, if it is not the last. -/
theorem advances_commaRound {item : Reading α} {ended : Reading Bool}
    (hitem : Settles o (P 0 0) n item) (hended : Looks ended) :
    Advances o (P 0 0) n (fun _ => True) (commaRound item ended) := by
  intro found c _ hc hn
  simp only [commaRound, ends_bind, ends_accept, ends_ite, ends_pure, afterRound_stop,
    afterRound_again, ↓reduceIte, Bool.false_eq_true]
  refine ⟨fun hcomma => hended.ends fun last => ?_, fun _ => hP.refl hc⟩
  have hpass : P 0 0 c c.advance := hP.plain hc hcomma rfl
  have hless := length_advance_lt hcomma
  split
  · exact hpass
  · refine (hitem _ (hP.stands hpass) (by omega)).mono fun a c' h => ?_
    exact ⟨trivial, hP.trans hpass h, Nat.lt_of_le_of_lt (hP.length_le h) hless⟩

section Nested

variable (hinner : Settles o (P 0 0) n inner)

include hinner

/-- Every round over a tuple advances along the path. -/
theorem advances_tupleRound : Advances o (P 0 0) n (fun _ => True) (tupleRound inner) := by
  rw [tupleRound_eq]
  exact hP.advances_commaRound hinner (looks_check _)

/-- The rest of a tuple is read along the path. -/
theorem settles_tupleRest (first : Expression) : Settles o (P 0 0) n (tupleRest inner first) :=
  settles_repeatRounds hP.isPath (hP.advances_tupleRound hinner) trivial

/-- What stands in round brackets is read along the path. -/
theorem ends_parenthesized (hc : c.Stands o) (hn : c.rest.length < n + 1)
    (hnext : c.next? = some .openParen) :
    Ends .safe (parenthesized inner start) o c fun _ c' => P 0 0 c c' := by
  have hopen : P 0 1 c c.advance := hP.opener hc hnext rfl
  have hless := length_advance_lt hnext
  have hclose : ∀ {c'}, P 0 1 c c' → c'.next? = some .closeParen → P 0 0 c c'.advance :=
    fun h hnext => hP.trans h (hP.closer (hP.stands h) hnext rfl)
  simp only [parenthesized, ends_bind, ends_pass, advanceBy_one, ends_accept, ends_ite, ends_check,
    ends_spanFrom, ends_expect, ends_pure, Endings.refused_safe, hP.made, ↓reduceIte,
    Bool.false_eq_true, implies_true, and_true]
  refine ⟨hclose hopen, fun _ => ?_⟩
  refine (hinner _ (hP.stands hopen) (by omega)).mono fun first c' h => ?_
  have hfirst := hP.trans hopen (hP.shift h 1)
  have hlength := hP.length_le h
  split
  · refine (hP.settles_tupleRest hinner first _ (hP.stands h) (by omega)).mono
      fun elements c'' h' => ?_
    exact hclose (hP.trans hfirst (hP.shift h' 1))
  · exact hclose hfirst

/-- Every round over a list advances along the path. -/
theorem advances_listRound : Advances o (P 0 0) n (fun _ => True) (listRound inner) := by
  intro s c _ hc hn
  simp only [listRound, ends_bind, ends_accept, ends_ite, ends_check, ends_pure, afterRound_stop,
    afterRound_again, ↓reduceIte, Bool.false_eq_true]
  split
  · exact hP.refl hc
  · refine (hinner c hc hn).mono fun e c' h => ⟨fun hcomma => ?_, fun _ => h⟩
    have hpass : P 0 0 c' c'.advance := hP.plain (hP.stands h) hcomma rfl
    have hless := length_advance_lt hcomma
    exact ⟨trivial, hP.trans h hpass, Nat.lt_of_lt_of_le hless (hP.length_le h)⟩

/-- What stands in square brackets is read along the path. -/
theorem ends_bracketed (hc : c.Stands o) (hn : c.rest.length < n + 1)
    (hnext : c.next? = some .openBracket) :
    Ends .safe (bracketed inner start) o c fun _ c' => P 0 0 c c' := by
  have hopen : P 0 1 c c.advance := hP.opener hc hnext rfl
  have hless := length_advance_lt hnext
  have helements : Settles o (P 0 0) n (listElements inner) :=
    settles_repeatRounds hP.isPath (hP.advances_listRound hinner) trivial
  simp only [bracketed, ends_bind, ends_pass, advanceBy_one, ends_spanFrom, ends_expect, ends_pure,
    Endings.refused_safe, hP.made, implies_true, and_true]
  refine (helements _ (hP.stands hopen) (by omega)).mono fun elements c' h hnext => ?_
  exact hP.trans (hP.trans hopen (hP.shift h 1)) (hP.closer (hP.stands h) hnext rfl)

omit hinner in
/-- What stands in braces is passed along the path. -/
theorem ends_braced (hc : c.Stands o) (hnext : c.next? = some .openBrace) :
    Ends .safe (braced (c.place o).start) o c fun _ c' => P 0 0 c c' := by
  simp only [braced, ends_bind]
  refine (hP.ends_passGroup hc hnext rfl).mono ?_
  rintro between c' ⟨hpass, _, hstop, _⟩
  rw [ends_lastStop]
  refine ends_sourceText hc.place.1 (hP.stands hpass).1 (Nat.le_trans hc.place.2.2.2 hstop)
    fun cs => ?_
  simpa only [ends_bind, ends_makeSpan, ends_pure, hP.made] using hpass

/-! ### Chains -/

/-- A primary expression is read along the path, if the expressions in it are. -/
theorem settles_primary : Settles o (P 0 0) (n + 1) (primary inner) := by
  intro c hc hn
  simp only [primary, ends_bind, ends_peekStart, ends_peek]
  split
  · rename_i id hid
    simp only [ends_bind, ends_pass, advanceBy_one, ends_spanFrom, ends_pure, hP.made]
    exact hP.plain hc hid rfl
  · simp only [ends_bind, ends_ahead, ends_spanFrom, ends_pure, hP.made]
    exact (hP.ends_passStrings hc (Nat.le_refl _)).mono fun value c' h => h.1
  · rename_i value hvalue
    simp only [ends_bind, ends_pass, advanceBy_one, ends_spanFrom, ends_pure, hP.made]
    exact hP.plain hc hvalue rfl
  · exact hP.ends_parenthesized hinner hc hn ‹_›
  · exact hP.ends_bracketed hinner hc hn ‹_›
  · exact hP.ends_braced hc ‹_›
  · trivial
  · rw [ends_ite]
    split
    · rw [ends_refuseNext]
      trivial
    · exact hP.ends_looseExpression hc hc.place.1

/-- An argument is read along the path. -/
theorem settles_argument : Settles o (P 0 0) n (argument inner) := by
  intro c hc hn
  simp only [argument, ends_bind]
  have hstars : Ends .safe argumentStars o c fun _ c' => P 0 0 c c' := by
    simp only [argumentStars, ends_bind, ends_peek]
    split
    · exact hP.plain hc ‹_› rfl
    · exact hP.plain hc ‹_› rfl
    · exact hP.refl hc
  refine hstars.mono fun unpacking c₁ h₁ => ?_
  have hkeyword : Ends .safe (argumentKeyword unpacking) o c₁ fun _ c' => P 0 0 c c' := by
    simp only [argumentKeyword, ends_bind, ends_peek, ends_peekAt, advanceBy_one]
    split
    · rename_i hname hequals
      have hpass : P 0 0 c₁ c₁.advance := hP.plain (hP.stands h₁) hname rfl
      exact hP.trans h₁ (hP.trans hpass (hP.plain (hP.stands hpass) hequals rfl))
    · exact h₁
  refine hkeyword.mono fun name c₂ h₂ => ?_
  refine (hinner c₂ (hP.stands h₂) (Nat.lt_of_le_of_lt (hP.length_le h₂) hn)).mono
    fun value c₃ h₃ => ?_
  exact hP.trans h₂ h₃

/-- Every round over arguments advances along the path. -/
theorem advances_argumentRound : Advances o (P 0 0) n (fun _ => True) (argumentRound inner) := by
  intro s c _ hc hn
  simp only [argumentRound, ends_bind, ends_accept, ends_ite, ends_check, ends_pure, ends_atEnd,
    ends_peekStart, ends_refuse, Endings.refused_safe, afterRound_stop, afterRound_again,
    ↓reduceIte, Bool.false_eq_true]
  split
  · exact hP.refl hc
  · split
    · trivial
    · refine (hP.settles_argument hinner c hc hn).mono fun a c' h => ⟨fun hcomma => ?_, fun _ => h⟩
      have hpass : P 0 0 c' c'.advance := hP.plain (hP.stands h) hcomma rfl
      have hless := length_advance_lt hcomma
      exact ⟨trivial, hP.trans h hpass, Nat.lt_of_lt_of_le hless (hP.length_le h)⟩

/-- The arguments of a call end behind the parenthesis that closes them. -/
theorem ends_arguments (hc : c.Stands o) (hn : c.rest.length < n) :
    Ends .safe (arguments inner) o c fun _ c' => P 1 0 c c' := by
  have hfound : Settles o (P 0 0) n (repeatRounds (argumentRound inner) []) :=
    settles_repeatRounds hP.isPath (hP.advances_argumentRound hinner) trivial
  simp only [arguments, ends_bind, ends_expect, ends_pure, Endings.refused_safe, implies_true,
    and_true]
  refine (hfound c hc hn).mono fun found c' h hnext => ?_
  exact hP.trans (hP.shift h 1) (hP.closer (hP.stands h) hnext rfl)

/-- Every round over a chain of attributes, calls and subscripts advances along the path. -/
theorem advances_postfixRound :
    Advances o (P 0 0) (n + 1) (fun _ => True) (postfixRound inner start) := by
  intro e c _ hc hn
  simp only [postfixRound, ends_bind, ends_peek]
  split
  · rename_i hdot
    simp only [ends_bind, ends_peekAt, advanceBy_one]
    split
    · rename_i field hfield
      have hpass : P 0 0 c c.advance := hP.plain hc hdot rfl
      have hpass' : P 0 0 c.advance c.advance.advance := hP.plain (hP.stands hpass) hfield rfl
      simp only [ends_bind, ends_pass, advanceBy_two, ends_spanFrom, ends_pure, afterRound_again,
        hP.made]
      refine ⟨trivial, hP.trans hpass hpass', ?_⟩
      exact Nat.lt_of_le_of_lt (hP.length_le hpass') (length_advance_lt hdot)
    · exact hP.refl hc
  · rename_i hopen
    have hpass : P 0 1 c c.advance := hP.opener hc hopen rfl
    have hless := length_advance_lt hopen
    simp only [ends_bind, ends_pass, advanceBy_one, ends_spanFrom, ends_pure, afterRound_again,
      hP.made]
    refine (hP.ends_arguments hinner (hP.stands hpass) (by omega)).mono fun found c' h => ?_
    exact ⟨trivial, hP.trans hpass h, Nat.lt_of_le_of_lt (hP.length_le h) hless⟩
  · rename_i hopen
    simp only [ends_bind]
    refine (hP.ends_passGroup hc hopen rfl).mono ?_
    rintro between c' ⟨hpass, hless, _, hcuts⟩
    rw [ends_lastStop]
    refine ends_sourceText hcuts.1 hcuts.2.1 hcuts.2.2 fun cs => ?_
    simp only [ends_makeSpan, ends_pure, afterRound_again, hP.made]
    exact ⟨trivial, hpass, hless⟩
  · exact hP.refl hc

/-- A chain of attributes, calls and subscripts is read along the path. -/
theorem settles_chain : Settles o (P 0 0) (n + 1) (chain inner) := by
  intro c hc hn
  simp only [chain, ends_bind, ends_peekStart]
  refine (hP.settles_primary hinner c hc hn).mono fun e c' h => ?_
  have hrounds : Settles o (P 0 0) (n + 1)
      (repeatRounds (postfixRound inner (c.place o).start) e) :=
    settles_repeatRounds hP.isPath (hP.advances_postfixRound hinner) trivial
  exact (hrounds c' (hP.stands h) (Nat.lt_of_le_of_lt (hP.length_le h) hn)).mono
    fun _ _ h' => hP.trans h h'

/-- An expression is read along the path, if those nested in it are. -/
theorem settles_expressionOver : Settles o (P 0 0) (n + 1) (expressionOver inner) := by
  intro c hc hn
  simp only [expressionOver, ends_bind, ends_peekStart, ends_check, ends_ite, ends_atExpressionEnd]
  split
  · exact hP.ends_looseExpression hc hc.place.1
  · refine (hP.settles_chain hinner c hc hn).mono fun e c' h => ?_
    split
    · exact h
    · exact (hP.ends_looseExpression (hP.stands h) hc.place.1).mono fun _ _ h' => hP.trans h h'

end Nested

/-! ### Expressions -/

/-- Expressions nested up to any depth are read along the path. -/
theorem settles_expressionWithin (n : Nat) : Settles o (P 0 0) n (expressionWithin n) := by
  induction n with
  | zero => exact fun c _ hn => absurd hn (Nat.not_lt_zero _)
  | succ n ih => exact hP.settles_expressionOver ih

/-- **An expression settles**: one level of nesting for each token ahead is enough. -/
theorem settles_expression : Settles o (P 0 0) n expression := fun c hc _ =>
  hP.settles_expressionWithin (c.rest.length + 1) c hc (Nat.lt_succ_self _)

/-- Every round over an expression list advances along the path. -/
theorem advances_expressionRound : Advances o (P 0 0) n (fun _ => True) expressionRound := by
  rw [expressionRound_eq]
  exact hP.advances_commaRound hP.settles_expression looks_atExpressionEnd

/-- An expression list is read along the path. -/
theorem settles_expressionList : Settles o (P 0 0) n expressionList := by
  intro c hc hn
  simp only [expressionList, ends_bind, ends_peekStart, ends_check, ends_ite, ends_spanFrom,
    ends_pure, hP.made]
  refine (hP.settles_expression c hc hn).mono fun first c' h => ?_
  split
  · have hrounds : Settles o (P 0 0) n (repeatRounds expressionRound [first]) :=
      settles_repeatRounds hP.isPath hP.advances_expressionRound trivial
    exact (hrounds c' (hP.stands h) (Nat.lt_of_le_of_lt (hP.length_le h) hn)).mono
      fun _ _ h' => hP.trans h h'
  · exact h

end IsBracketPath

/-! ### Lines -/

/-- A bracketed group is passed on the line, and leaves no bracket open. -/
theorem ends_passGroup (hc : c.Stands o) {t : Token} (hnext : c.next? = some t)
    (ht : t.isOpener = true) :
    Ends .safe passGroup o c fun between c' => Reads o 0 0 c c' ∧
      c'.rest.length < c.rest.length ∧ (c.place o).stop ≤ c'.lastStop ∧
      IsCut o.text between.start ∧ IsCut o.text between.stop ∧ between.start ≤ between.stop :=
  (isBracketPath_reads o).ends_passGroup hc hnext ht

/-- String literals are passed on the line. -/
theorem ends_passStrings (hc : c.Stands o) (hn : n ≤ stringCount c.rest) :
    Ends .safe (passStrings n) o c fun _ c' => Reads o 0 0 c c' ∧ c' = c.advanceBy n :=
  (isBracketPath_reads o).ends_passStrings hc hn

section Nested

variable (hinner : Settles o (Reads o 0 0) n inner)

include hinner

/-- Every round over a tuple passes a token of the line. -/
theorem advances_tupleRound : Advances o (Reads o 0 0) n (fun _ => True) (tupleRound inner) :=
  (isBracketPath_reads o).advances_tupleRound hinner

/-- Every round over a list passes a token of the line. -/
theorem advances_listRound : Advances o (Reads o 0 0) n (fun _ => True) (listRound inner) :=
  (isBracketPath_reads o).advances_listRound hinner

/-- Every round over arguments passes a token of the line. -/
theorem advances_argumentRound :
    Advances o (Reads o 0 0) n (fun _ => True) (argumentRound inner) :=
  (isBracketPath_reads o).advances_argumentRound hinner

/-- Arguments are read to the bracket that closes them, and so one bracket fewer is open behind
them. -/
theorem ends_arguments (hc : c.Stands o) (hn : c.rest.length < n) :
    Ends .safe (arguments inner) o c fun _ c' => Reads o 1 0 c c' :=
  (isBracketPath_reads o).ends_arguments hinner hc hn

/-- Every round over a chain of attributes, calls and subscripts passes a token of the line. -/
theorem advances_postfixRound :
    Advances o (Reads o 0 0) (n + 1) (fun _ => True) (postfixRound inner start) :=
  (isBracketPath_reads o).advances_postfixRound hinner

end Nested

/-- Expressions nested up to any depth are read on the line. -/
theorem settles_expressionWithin (n : Nat) : Settles o (Reads o 0 0) n (expressionWithin n) :=
  (isBracketPath_reads o).settles_expressionWithin n

/-- An expression is read on the line, and leaves no bracket open. -/
theorem settles_expression : Settles o (Reads o 0 0) n expression :=
  (isBracketPath_reads o).settles_expression

/-- Every round over an expression list passes a token of the line. -/
theorem advances_expressionRound : Advances o (Reads o 0 0) n (fun _ => True) expressionRound :=
  (isBracketPath_reads o).advances_expressionRound

end Outline
end Lineage
