/-
# Bindings stay on their line

The readings of statements that bind names.  Up to the end of the statement they stay on
the line (`ends_hintedBinding`, `ends_plainBinding`, `ends_receiverBinding`); the rest of
the statement, and the search for receiver bindings, go to the end of the line and no
further (`ends_lineBindings`).
-/

import Lineage.Proofs.Outline.Terms

namespace Lineage
namespace Outline

open Source Reading Text Cursor

variable {o : Origin} {w : Endings} {c c' : Cursor} {t : Token} {n start stop : Nat}

/-! ### Statements that are passed over -/

/-- An indented block can be passed. -/
theorem ends_passBlock (hc : c.Stands o) (hnext : c.next? = some .indent) :
    Ends .safe passBlock o c fun _ c' => Follows o c c' := by
  obtain ⟨l, ls, hrest, hl⟩ := next?_eq_some_iff.1 hnext
  obtain ⟨n, _, hlength⟩ := exists_blockLength?_cons hl ls
  rw [← hrest] at hlength
  simp only [passBlock, ends_bind, ends_ahead, hlength, ends_orFault_some, ends_pass]
  exact hc.advanceBy (n + 1)

/-- A statement that is passed ends behind its line, or behind the block under it. -/
theorem ends_passStatement (hc : c.Stands o) :
    Ends .safe passStatement o c fun _ c' => ∃ c₁, PastLine o c c₁ ∧ Follows o c₁ c' := by
  have hpast := hc.pastLine_statement false
  simp only [passStatement, ends_bind, ends_ahead, ends_pass, ends_ite, ends_check, ends_pure]
  split
  · split
    · rename_i hindent
      exact (ends_passBlock hpast.stands (by simpa using hindent)).mono fun _ c' h =>
        ⟨_, hpast, h⟩
    · exact ⟨_, hpast, Follows.refl hpast.stands⟩
  · exact ⟨_, hpast, Follows.refl hpast.stands⟩

/-- A statement that is passed over has a token. -/
theorem passes_passStatement (hc : c.Stands o) (hnext : c.next? = some t)
    (ht : t.isShift = false) : Ends .safe passStatement o c fun _ c' => Passes o c c' :=
  (ends_passStatement hc).mono fun _ _ ⟨_, hpast, h⟩ => (hpast.passes hnext ht).trans h

/-- The end of a simple statement is reached without a defect. -/
theorem settles_finishStatement : Settles o (Follows o) n finishStatement := by
  intro c hc hn
  simp only [finishStatement, ends_bind, ends_accept, ends_ite, ends_pure, ↓reduceIte,
    Bool.false_eq_true]
  refine ⟨fun hsemicolon => ⟨fun _ => ?_, fun _ => hc.advance⟩, fun _ => ?_⟩
  · exact hc.advance.trans hc.advance.stands.advance
  · refine (ends_passStatement hc).mono ?_
    rintro _ _ ⟨_, hpast, h⟩
    exact hpast.toFollows.trans h

/-! ### Targets and their values -/

/-- Each target finds its value. -/
theorem ends_bindEach {typeHint : Option Expression} {targets : List String}
    {values : List (Option Expression)} {Q : List Binding → Cursor → Prop}
    (hlength : targets.length ≤ values.length) (h : ∀ bound made, Q bound { c with made }) :
    Ends w (bindEach typeHint start stop targets values) o c Q := by
  induction targets generalizing values c Q with
  | nil => exact h [] c.made
  | cons target targets ih =>
    cases values with
    | nil => exact absurd hlength (Nat.not_succ_le_zero _)
    | cons value values =>
      simp only [bindEach, ends_bind, ends_makeSpan, ends_pure]
      exact ih (Nat.le_of_succ_le_succ hlength) fun bound made => h _ made

/-- Binding groups of targets makes spans and passes nothing. -/
theorem ends_bindGroups {value typeHint : Option Expression} {groups : List (List String)}
    {Q : List Binding → Cursor → Prop} (h : ∀ bound made, Q bound { c with made }) :
    Ends w (bindGroups value typeHint start stop groups) o c Q := by
  induction groups generalizing c Q with
  | nil => exact h [] c.made
  | cons targets groups ih =>
    simp only [bindGroups, ends_bind]
    refine ends_bindEach (by simp) fun bound made => ?_
    exact ih fun bound' made' => h _ made'

section Chains

variable {P : Nat → Nat → Cursor → Cursor → Prop} {targets : Expression → List (List String)}
  {groups : List (List String)}

/-- An optional value is read along any path that only counts brackets. -/
theorem IsBracketPath.settles_optionalValue (hP : IsBracketPath o P) :
    Settles o (P 0 0) n optionalValue := by
  intro c hc hn
  rw [optionalValue, ends_ifNext]
  refine ⟨fun hequals => ?_, fun _ => hP.refl hc⟩
  have hpass : P 0 0 c c.advance := hP.plain hc hequals rfl
  exact (hP.settles_expressionList (n := n) _ (hP.stands hpass)
    (Nat.lt_of_le_of_lt (hP.length_le hpass) hn)).mono fun _ _ h => hP.trans hpass h

/-- Every round over a chain of assignments passes an equals sign, if it is not the last. -/
theorem IsBracketPath.advances_chainRound (hP : IsBracketPath o P) :
    Advances o (P 0 0) n (fun _ => True) (chainRound targets) := by
  intro s c _ hc hn
  simp only [chainRound, ends_bind, ends_accept, ends_ite, ends_pure, afterRound_stop,
    afterRound_again, ↓reduceIte, Bool.false_eq_true]
  refine ⟨fun hequals => ?_, fun _ => hP.refl hc⟩
  have hpass : P 0 0 c c.advance := hP.plain hc hequals rfl
  have hless := length_advance_lt hequals
  refine (hP.settles_expressionList (n := n) _ (hP.stands hpass) (by omega)).mono fun e c' h => ?_
  exact ⟨trivial, hP.trans hpass h, Nat.lt_of_le_of_lt (hP.length_le h) hless⟩

/-- The value behind all targets of an assignment is read along the path. -/
theorem IsBracketPath.settles_chainedValue (hP : IsBracketPath o P) :
    Settles o (P 0 0) n (chainedValue targets groups) := by
  intro c hc hn
  simp only [chainedValue, ends_bind]
  refine (hP.settles_expressionList c hc hn).mono fun value c' h => ?_
  have hrounds : Settles o (P 0 0) n (repeatRounds (chainRound targets) (groups, value)) :=
    settles_repeatRounds hP.isPath hP.advances_chainRound trivial
  exact (hrounds c' (hP.stands h) (Nat.lt_of_le_of_lt (hP.length_le h) hn)).mono
    fun _ _ h' => hP.trans h h'

/-- An optional value is read without a defect, and ends on its line. -/
theorem settles_optionalValue : Settles o (Reads o 0 0) n optionalValue :=
  (isBracketPath_reads o).settles_optionalValue

/-- One more link of an assignment passes a token. -/
theorem advances_chainRound :
    Advances o (Reads o 0 0) n (fun _ => True) (chainRound targets) :=
  (isBracketPath_reads o).advances_chainRound

/-- The value behind all targets is read without a defect, and ends on its line. -/
theorem settles_chainedValue : Settles o (Reads o 0 0) n (chainedValue targets groups) :=
  (isBracketPath_reads o).settles_chainedValue

end Chains

/-! ### Class bodies -/

/-- An expected identifier is the next token, or is refused. -/
theorem ends_expectIdentifier_reads (hc : c.Stands o) :
    Ends .safe expectIdentifier o c fun text c' =>
      c.next? = some (.identifier text) ∧ c' = c.advance ∧ Reads o 0 0 c c' :=
  ends_expectIdentifier trivial fun _ h => ⟨h, rfl, hc.reads_other h rfl rfl⟩

/-- One more name of a target list passes a token. -/
theorem advances_targetRound : Advances o (Reads o 0 0) n (fun _ => True) targetRound := by
  intro s c _ hc hn
  simp only [targetRound, ends_bind, ends_accept, ends_ite, ends_check, ends_pure, afterRound_stop,
    afterRound_again, ↓reduceIte, Bool.false_eq_true]
  refine (ends_expectIdentifier_reads hc).mono ?_
  rintro text c' ⟨_, _, h⟩
  refine ⟨fun hcomma => ?_, fun _ => h⟩
  have hpass : Reads o 0 0 c' c'.advance := h.stands.reads_other hcomma rfl rfl
  have hless := length_advance_lt hcomma
  split
  · exact h.trans hpass
  · exact ⟨trivial, h.trans hpass, Nat.lt_of_lt_of_le hless h.length_le⟩

/-- A binding with a type hint passes a token and stays on its line. -/
theorem ends_hintedBinding (hc : c.Stands o) : Ends .safe (hintedBinding start) o c fun _ c' =>
    Reads o 0 0 c c' ∧ c'.rest.length < c.rest.length := by
  simp only [hintedBinding, ends_bind, ends_expect, Endings.refused_safe, implies_true, and_true,
    ends_lastStop]
  refine (ends_expectIdentifier_reads hc).mono ?_
  rintro text c₁ ⟨_, _, h₁⟩ hcolon
  have hpass : Reads o 0 0 c₁ c₁.advance := h₁.stands.reads_other hcolon rfl rfl
  have hless := length_advance_lt hcolon
  refine (settles_expression _ hpass.stands (Nat.lt_succ_self _)).mono fun hint c₂ h₂ => ?_
  refine (settles_optionalValue _ h₂.stands (Nat.lt_succ_self _)).mono fun value c₃ h₃ => ?_
  refine ends_bindGroups fun bound made => ?_
  have hbehind := hpass.trans (h₂.trans h₃)
  refine ⟨reads_made.2 (h₁.trans hbehind), ?_⟩
  exact Nat.lt_of_le_of_lt (h₂.trans h₃).length_le (Nat.lt_of_lt_of_le hless h₁.length_le)

/-- A binding without an annotation passes tokens of the line. -/
theorem ends_plainBinding (hc : c.Stands o) : Ends .safe (plainBinding start) o c fun _ c' =>
    Reads o 0 0 c c' ∧ c'.rest.length < c.rest.length := by
  have htargets : Settles o (Reads o 0 0) (c.rest.length + 1) targetNames :=
    settles_repeatRounds (isPath_reads o) advances_targetRound trivial
  simp only [plainBinding, ends_bind, ends_expect, Endings.refused_safe, implies_true, and_true,
    ends_lastStop]
  refine (htargets c hc (Nat.lt_succ_self _)).mono fun targets c₁ h₁ hequals => ?_
  have hpass : Reads o 0 0 c₁ c₁.advance := h₁.stands.reads_other hequals rfl rfl
  have hless := length_advance_lt hequals
  refine (settles_chainedValue _ hpass.stands (Nat.lt_succ_self _)).mono fun value c₂ h₂ => ?_
  refine ends_bindGroups fun bound made => ?_
  refine ⟨reads_made.2 (h₁.trans (hpass.trans h₂)), ?_⟩
  exact Nat.lt_of_le_of_lt h₂.length_le (Nat.lt_of_lt_of_le hless h₁.length_le)

/-- A binding in a class body: on its line up to the end of the statement. -/
theorem ends_classBinding {Q : List Binding → Cursor → Prop} (hc : c.Stands o)
    (h : ∀ bound c₁, Reads o 0 0 c c₁ → c₁.rest.length < c.rest.length →
      Ends .safe finishStatement o c₁ fun _ c' => Q bound c') :
    Ends .safe classBinding o c Q := by
  simp only [classBinding, ends_bind, ends_peekStart, ends_peekAt, ends_ite, ends_pure]
  split
  · exact (ends_hintedBinding hc).mono fun bound c₁ h₁ => h bound c₁ h₁.1 h₁.2
  · exact (ends_plainBinding hc).mono fun bound c₁ h₁ => h bound c₁ h₁.1 h₁.2

/-! ### Receivers -/

section Receivers

variable {receiver : String}

section Path

variable {P : Nat → Nat → Cursor → Cursor → Prop} {targets : List String}

/-- One more target is an attribute of the receiver. -/
theorem IsBracketPath.ends_receiverRound (hP : IsBracketPath o P) {s : List String}
    (hc : c.Stands o) :
    Ends .safe (receiverRound receiver s) o c (AfterRound
      (fun s' c' => P 0 0 c c' ∧ c'.rest.length < c.rest.length ∧ s' ≠ [])
      fun found c' => P 0 0 c c' ∧ ∀ targets, found = some targets → ∃ field,
        targets = s ++ [field] ∧
          c.tokens = .identifier receiver :: .dot :: .identifier field :: c'.tokens) := by
  simp only [receiverRound, ends_bind, ends_peek, ends_peekAt]
  split
  · rename_i name field hname hdot hfield
    rw [advanceBy_one] at hdot
    rw [advanceBy_two] at hfield
    have h₁ : P 0 0 c c.advance := hP.plain hc hname rfl
    have h₂ : P 0 0 c.advance c.advance.advance := hP.plain (hP.stands h₁) hdot rfl
    have h₃ : P 0 0 c.advance.advance c.advance.advance.advance :=
      hP.plain (hP.stands h₂) hfield rfl
    have hpass := hP.trans h₁ (hP.trans h₂ h₃)
    have htokens := tokens_eq_cons hname
    rw [tokens_eq_cons hdot, tokens_eq_cons hfield] at htokens
    simp only [ends_ite, ends_bind, ends_pass, advanceBy_three, ends_accept, ends_pure,
      afterRound_stop, afterRound_again, ↓reduceIte, Bool.false_eq_true, beq_iff_eq]
    split
    · rename_i hreceiver
      refine ⟨fun hcomma => ?_, fun _ => ⟨hpass, fun targets heq => ?_⟩⟩
      · have hcomma' : P 0 0 _ c.advance.advance.advance.advance :=
          hP.plain (hP.stands hpass) hcomma rfl
        refine ⟨hP.trans hpass hcomma', ?_, by simp⟩
        exact Nat.lt_of_le_of_lt (hP.length_le (hP.trans h₂ (hP.trans h₃ hcomma')))
          (length_advance_lt hname)
      · exact ⟨field, (Option.some.inj heq).symm, hreceiver ▸ htokens⟩
    · exact ⟨hP.refl hc, fun _ heq => by cases heq⟩
  · exact ⟨hP.refl hc, fun _ heq => by cases heq⟩

/-- Targets that are found have been passed. -/
theorem IsBracketPath.ends_receiverTargets (hP : IsBracketPath o P) (hc : c.Stands o) :
    Ends .safe (receiverTargets receiver) o c fun found c' => P 0 0 c c' ∧
      ∀ targets, found = some targets → c'.rest.length < c.rest.length ∧ (targets.length = 1 →
        ∃ field, c.tokens = .identifier receiver :: .dot :: .identifier field :: c'.tokens) := by
  refine ends_repeatRounds (I := fun s c' => P 0 0 c c' ∧ (s = [] → c' = c))
    (fun s c₁ ⟨h₁, hfirst⟩ => ?_) ⟨hP.refl hc, fun _ => rfl⟩
  refine (hP.ends_receiverRound (hP.stands h₁)).mono fun r c' hr => ?_
  cases r with
  | again s' => exact ⟨⟨hP.trans h₁ hr.1, fun hnil => absurd hnil hr.2.2⟩, hr.2.1⟩
  | stop found =>
    refine ⟨hP.trans h₁ hr.1, fun targets heq => ?_⟩
    obtain ⟨field, rfl, htokens⟩ := hr.2 targets heq
    refine ⟨Nat.lt_of_lt_of_le ?_ (hP.length_le h₁), fun hlength => ⟨field, ?_⟩⟩
    · rw [← length_tokens, ← length_tokens, htokens]
      simp only [List.length_cons]
      omega
    · have hs : s = [] := by simpa using hlength
      rw [← htokens, hfirst hs]

/-- The values behind the targets, if a colon there, that of a type hint, can be passed. -/
theorem IsBracketPath.ends_receiverValues (hP : IsBracketPath o P) (hc : c.Stands o)
    (hcolon : targets.length = 1 → c.next? = some .colon → P 0 0 c c.advance) :
    Ends .safe (receiverValues receiver start targets) o c fun _ c' => P 0 0 c c' := by
  simp only [receiverValues, ends_bind, ends_check, ends_ite, ends_pass, advanceBy_one, ends_accept,
    ends_lastStop, ends_pure, ↓reduceIte, Bool.false_eq_true]
  split
  · rename_i hhint
    have hpass := hcolon hhint.1 (by simpa using hhint.2)
    refine (hP.settles_expression _ (hP.stands hpass) (Nat.lt_succ_self _)).mono
      fun hint c₁ h₁ => ?_
    refine (hP.settles_optionalValue _ (hP.stands h₁) (Nat.lt_succ_self _)).mono
      fun value c₂ h₂ => ?_
    exact ends_bindGroups fun bound made => hP.made.2 (hP.trans hpass (hP.trans h₁ h₂))
  · refine ⟨fun hequals => ?_, fun _ => hP.refl hc⟩
    have hpass : P 0 0 c c.advance := hP.plain hc hequals rfl
    refine (hP.settles_chainedValue _ (hP.stands hpass) (Nat.lt_succ_self _)).mono
      fun value c₁ h₁ => ?_
    exact ends_bindGroups fun bound made => hP.made.2 (hP.trans hpass h₁)

/-- A binding, if the colon of a type hint behind its one target can be passed. -/
theorem IsBracketPath.ends_receiverBinding (hP : IsBracketPath o P) (hc : c.Stands o)
    (hcolon : ∀ field c', P 0 0 c c' →
      c.tokens = .identifier receiver :: .dot :: .identifier field :: c'.tokens →
        c'.next? = some .colon → P 0 0 c' c'.advance) :
    Ends .safe (receiverBinding receiver) o c fun found c' => P 0 0 c c' ∧
      (found.isSome → c'.rest.length < c.rest.length) := by
  simp only [receiverBinding, ends_bind, ends_peekStart]
  refine (hP.ends_receiverTargets hc).mono ?_
  rintro found c₁ ⟨h₁, hfound⟩
  cases found with
  | none => exact ⟨h₁, by simp⟩
  | some targets =>
    obtain ⟨hless, hsingle⟩ := hfound targets rfl
    refine (hP.ends_receiverValues (hP.stands h₁) fun hlength hnext => ?_).mono
      fun bound c₂ h₂ => ?_
    · obtain ⟨field, htokens⟩ := hsingle hlength
      exact hcolon field c₁ h₁ htokens hnext
    · exact ⟨hP.trans h₁ h₂, fun _ => Nat.lt_of_le_of_lt (hP.length_le h₂) hless⟩

end Path

/-- One more target on the receiver passes a token and stays on its line. -/
theorem ends_receiverRound {s : List String} (hc : c.Stands o) :
    Ends .safe (receiverRound receiver s) o c (AfterRound
      (fun _ c' => Reads o 0 0 c c' ∧ c'.rest.length < c.rest.length)
      fun _ c' => Reads o 0 0 c c') := by
  refine ((isBracketPath_reads o).ends_receiverRound hc).mono fun r c' hr => ?_
  cases r with
  | again s' => exact ⟨hr.1, hr.2.1⟩
  | stop found => exact hr.1

/-- The targets on the receiver are read without a defect. -/
theorem ends_receiverTargets (hc : c.Stands o) :
    Ends .safe (receiverTargets receiver) o c fun _ c' => Reads o 0 0 c c' :=
  ((isBracketPath_reads o).ends_receiverTargets hc).mono fun _ _ h => h.1

/-- A binding of the receiver's attributes passes a token, if one is found. -/
theorem ends_receiverBinding (hc : c.Stands o) : Ends .safe (receiverBinding receiver) o c
    fun found c' => Reads o 0 0 c c' ∧ (found.isSome → c'.rest.length < c.rest.length) :=
  (isBracketPath_reads o).ends_receiverBinding hc fun _ _ h _ hcolon =>
    h.stands.reads_other hcolon rfl rfl

end Receivers

/-! ### Lines of a function body -/

/-- A receiver binding that is found is on the line; otherwise nothing is passed. -/
theorem ends_lineBinding {receiver : Option String} {s : LineState} (hc : c.Stands o) :
    Ends .safe (lineBinding receiver s) o c fun found c' =>
      match found with
      | none => ∃ made, c' = { c with made }
      | some _ => Reads o 0 0 c c' ∧ c'.rest.length < c.rest.length := by
  unfold lineBinding
  split
  · rw [ends_ite]
    split
    · refine ends_tentative (fun made => ⟨made, rfl⟩) ?_
      refine (ends_receiverBinding hc).mono fun found c' h b hb => ?_
      exact ⟨h.1, h.2 (by rw [hb]; rfl)⟩
    · exact ⟨c.made, rfl⟩
  · exact ⟨c.made, rfl⟩

/-- **One step through a line** ends with the line, or goes behind a binding or behind a token. -/
theorem ends_lineRound {receiver : Option String} {s : LineState}
    {Q : Round LineState (List Binding) → Cursor → Prop} :
    Ends w (lineRound receiver s) o c Q ↔
      (c.next? = some .newline → Q (.stop s.found) c.advance) ∧
      ((∀ t, c.next? = some t → t.isShift = true) → Q (.stop s.found) c) ∧
      ∀ t, c.next? = some t → t.isLayout = false →
        Ends w (lineBinding receiver s) o c fun found c' =>
          (∀ bound, found = some bound → Q (.again ⟨s.depth, false, s.found ++ bound⟩) c') ∧
            (found = none → Q (.again (s.pass t)) c'.advance) := by
  simp only [lineRound, ends_bind, ends_peek]
  split
  · rename_i hnext
    simp [hnext]
  · rename_i t hnext
    simp only [ends_ite, ends_bind, ends_pass, advanceBy_one, ends_pure]
    by_cases hnewline : t = .newline
    · subst hnewline
      simp [hnext, Token.isShift, Token.isLayout]
    cases hshift : t.isShift with
    | true => simp [hnext, hnewline, hshift, Token.isLayout]
    | false =>
      have hline : t.isLayout = false := by simp [Token.isLayout, hshift, hnewline]
      simp only [hnext, hnewline, hshift, beq_iff_eq, if_false, Bool.false_eq_true,
        Option.some.injEq, false_implies, forall_eq', hline, true_implies, true_and]
      constructor <;> refine fun h => h.mono fun found c' hQ => ?_
      · cases found with
        | some bound => exact ⟨fun _ heq => Option.some.inj heq ▸ hQ, fun heq => by cases heq⟩
        | none => exact ⟨fun _ heq => (by cases heq), fun _ => hQ⟩
      · cases found with
        | some bound => exact hQ.1 bound rfl
        | none => exact hQ.2 rfl

/-- One step through a line stays on it and passes a token, or ends behind it. -/
theorem onLine_lineRound {receiver : Option String} {s : LineState} (hc : c.Stands o) :
    Ends .safe (lineRound receiver s) o c
      (AfterRound (fun _ c' => OnLine o c c' ∧ c'.rest.length < c.rest.length)
        fun _ c' => PastLine o c c') := by
  refine ends_lineRound.2 ⟨hc.pastLine_newline, fun hshift => ?_, fun t hnext hline => ?_⟩
  · have hnewline : c.next? ≠ some .newline := fun hnext => by cases hshift _ hnext
    refine hc.pastLine_of_halts ?_ hnewline
    cases hnext : c.next? with
    | none => exact halts_of_none hnext
    | some t => exact halts_of_isLayout hnext (by simp [Token.isLayout, hshift t hnext])
  · refine (ends_lineBinding hc).mono fun found c' h => ?_
    cases found with
    | some bound => exact ⟨fun _ _ => ⟨h.1.onLine, h.2⟩, fun heq => by cases heq⟩
    | none =>
      obtain ⟨made, rfl⟩ := h
      have hstands : ({ c with made } : Cursor).Stands o := hc
      have hkept : OnLine o c { c with made } := onLine_made.2 (OnLine.refl hc)
      refine ⟨fun _ heq => (by cases heq), fun _ => ?_⟩
      exact ⟨hkept.trans (hstands.onLine_advance hnext hline),
        length_advance_lt (c := { c with made }) hnext⟩

/-- The bindings of a line end behind that line. -/
theorem ends_lineBindings {receiver : Option String} (hc : c.Stands o) :
    Ends .safe (lineBindings receiver) o c fun _ c' => PastLine o c c' := by
  refine ends_repeatRounds (I := fun _ c' => OnLine o c c') (fun s c' h => ?_) (OnLine.refl hc)
  refine (onLine_lineRound h.stands).mono fun r c'' hr => ?_
  cases r with
  | again s' => exact ⟨h.trans hr.1, hr.2⟩
  | stop found => exact h.pastLine hr

end Outline
end Lineage
