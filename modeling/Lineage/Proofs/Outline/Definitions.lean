/-
# Every reading of a source ends

Functions, classes and the module are read to an end, with a value or a refusal: no step
is taken that a reading never takes, and every loop passes a token in each of its rounds
but the last (`parse_settles`).  The header of a definition stays on its line
(`ends_functionDefinition`, `ends_classOver`); its body is read by loops over statements,
each of which passes a token.

A class body and a module tell their statements apart in the same way (`statementOf`): how such
a statement ends is said once, in `ends_statementOf`.  How a round of each loop ends, and how the
two forms of a body do, is said here too (`ends_indentedRound`, `ends_bodyRound`,
`ends_classBody_block`, …); later modules reason from these and open no reader again.
-/

import Lineage.Proofs.Outline.Bindings

namespace Lineage
namespace Outline

open Source Reading Text Cursor

variable {o : Origin} {w : Endings} {c c' : Cursor} {t : Token} {n : Nat}

/-! ### Functions -/

/-- A function starts at the next token. -/
def Cursor.startsFunction (c : Cursor) : Bool :=
  c.next? == some .defKeyword ||
    (c.next? == some .asyncKeyword && c.advance.next? == some .defKeyword)

/-- Asking whether a function begins here is answered on the spot. -/
@[simp] theorem ends_atFunction {Q : Bool → Cursor → Prop} :
    Ends w atFunction o c Q ↔ Q c.startsFunction c := by
  simp only [atFunction, startsFunction, ends_bind, ends_peek, ends_peekAt, advanceBy_one]
  split
  · rename_i hdef
    simp [hdef]
  · rename_i hasync hdef
    simp [hasync, hdef]
  · rename_i hdef hasync
    have hfalse : (c.next? == some .defKeyword ||
        (c.next? == some .asyncKeyword && c.advance.next? == some .defKeyword)) = false := by
      simpa using ⟨hdef, hasync⟩
    rw [hfalse, ends_pure]

/-- A definition begins at the next token, or its decorators do. -/
def Cursor.startsScope (c : Cursor) : Bool :=
  c.next? == some .classKeyword || c.next? == some .atSign || c.startsFunction

/-- Where string tokens are counted, a string comes first. -/
theorem exists_string_of_stringCount (h : stringCount c.rest ≠ 0) :
    ∃ text, c.next? = some (.string text) := by
  unfold Cursor.next?
  cases hrest : c.rest with
  | nil => simp [hrest, stringCount] at h
  | cons l ls =>
    cases hl : l.token with
    | string text => exact ⟨text, by simp [hl]⟩
    | _ => simp [hrest, stringCount, hl, Token.isString] at h

/-- At the end of a line, its `newline` is passed. -/
theorem ends_acceptNewline (hc : c'.Stands o) (h : OnLine o c c') (hhalts : c'.Halts) :
    Ends .safe (accept .newline) o c' fun _ c'' => PastLine o c c'' := by
  rw [ends_accept]
  refine ⟨fun hnewline => ?_, fun hnewline => ?_⟩
  · exact h.pastLine (hc.pastLine_newline hnewline)
  · exact h.pastLine (hc.pastLine_of_halts hhalts hnewline)

/-- Documentation is a line of its own. -/
theorem ends_docstring (hc : c.Stands o) :
    Ends .safe docstring o c fun _ c' =>
      c' = c ∨ PastLine o c c' ∧ ∃ text, c.next? = some (.string text) := by
  have hfound : stringCount c.rest ≠ 0 → (c.advanceBy (stringCount c.rest)).Halts →
      Ends .safe (passStrings (stringCount c.rest)) o c fun _ c' =>
        Ends .safe (accept .newline) o c' fun _ c' =>
          c' = c ∨ PastLine o c c' ∧ ∃ text, c.next? = some (.string text) := by
    intro hcount hhalts
    refine (ends_passStrings hc (Nat.le_refl _)).mono fun value c' ⟨hreads, hc'⟩ => ?_
    rw [← hc'] at hhalts
    exact (ends_acceptNewline hreads.stands hreads.onLine hhalts).mono fun _ c'' hpast =>
      .inr ⟨hpast, exists_string_of_stringCount hcount⟩
  simp only [docstring, ends_bind, ends_ahead, ends_peekAt, ends_ite, ends_pure, true_or]
  split
  · rename_i hnone
    split
    · trivial
    · rename_i hends
      rw [Bool.or_eq_true, not_or] at hends
      exact hfound (by simpa using hends.1) (halts_of_none hnone)
  · rename_i t hnext
    split
    · trivial
    · rename_i hends
      rw [Bool.or_eq_true, not_or] at hends
      refine hfound (by simpa using hends.1) (halts_of_isLayout hnext ?_)
      by_cases hnewline : t = .newline
      · rw [hnewline]
        rfl
      · have hdedent : t = .dedent := by simpa [hnewline] using hends.2
        rw [hdedent]
        rfl

/-- A decorator is a line of its own. -/
theorem ends_decoratorRound {found : List Decorator} (hc : c.Stands o) :
    Ends .safe (decoratorRound found) o c
      (AfterRound (fun _ c' => c.next? = some .atSign ∧ PastLine o c c')
        fun _ c' => c.next? ≠ some .atSign ∧ c' = c) := by
  simp only [decoratorRound, ends_bind, ends_check, ends_ite, ends_peekStart, ends_pass,
    advanceBy_one, ends_lastStop, ends_expect, Endings.refused_safe, implies_true, and_true,
    ends_makeSpan, ends_pure, afterRound_again, afterRound_stop, pastLine_made]
  split
  · rename_i hat
    have hat : c.next? = some .atSign := by simpa using hat
    have hpass : Reads o 0 0 c c.advance := hc.reads_other hat rfl rfl
    refine (settles_expression _ hpass.stands (Nat.lt_succ_self _)).mono fun e c' h hnewline => ?_
    exact ⟨hat, (hpass.trans h).onLine.pastLine (h.stands.pastLine_newline hnewline)⟩
  · rename_i hat
    exact fun hnext => hat (by simp [hnext])

/-- Every round over the decorators passes one. -/
theorem advances_decoratorRound : Advances o (Follows o) n (fun _ => True) decoratorRound := by
  intro found c _ hc hn
  refine (ends_decoratorRound hc).mono fun r c' hr => ?_
  cases r with
  | again found' =>
    have hpasses := hr.2.passes hr.1 rfl
    exact ⟨trivial, hpasses.toFollows, hpasses.length_lt⟩
  | stop found' => exact hr.2.symm ▸ Follows.refl hc

/-- Decorators are read to the end of their last line. -/
theorem settles_decorators : Settles o (Follows o) n decorators := by
  intro c hc hn
  have hrounds : Settles o (Follows o) n (repeatRounds decoratorRound []) :=
    settles_repeatRounds (isPath_follows o) advances_decoratorRound trivial
  simp only [decorators, ends_bind, ends_check, ends_ite, ends_pure, ends_atFunction,
    ends_refuseNext, Endings.refused_safe]
  refine (hrounds c hc hn).mono fun found c' h => ?_
  split
  · exact h
  · split
    · exact h
    · trivial

/-! ### Parameters -/

/-- A star or a slash among the parameters is passed on the line, or nothing is. -/
theorem ends_parameterMark {s : ParameterState} (hc : c.Stands o) :
    Ends .safe (parameterMark s) o c (AfterRound
      (fun _ c' => Reads o 0 0 c c' ∧ c'.rest.length < c.rest.length)
      fun _ c' => Reads o 0 0 c c') := by
  simp only [parameterMark, ends_bind, ends_accept, ends_ite, ends_pure, afterRound_again,
    afterRound_stop, ↓reduceIte, Bool.false_eq_true]
  exact ⟨fun hcomma => ⟨hc.reads_other hcomma rfl rfl, length_advance_lt hcomma⟩,
    fun _ => Reads.refl hc⟩

/-- A parameter with a name is passed on the line, with its annotation and its default. -/
theorem ends_namedParameter {s : ParameterState} {kind : ParameterKind} (hc : c.Stands o) :
    Ends .safe (namedParameter s kind) o c (AfterRound
      (fun _ c' => Reads o 0 0 c c' ∧ c'.rest.length < c.rest.length)
      fun _ c' => Reads o 0 0 c c') := by
  have hafter : ∀ {t : Token} {c : Cursor}, c.Stands o → t.isLayout = false → t.isOpener = false →
      Ends .safe (ifNext t expression) o c fun _ c' => Reads o 0 0 c c' := by
    intro t c hc hline hopener
    rw [ends_ifNext]
    refine ⟨fun hnext => ?_, fun _ => Reads.refl hc⟩
    have hpass : Reads o 0 0 c c.advance := hc.reads_other hnext hline hopener
    exact (settles_expression _ hpass.stands (Nat.lt_succ_self _)).mono fun _ _ h => hpass.trans h
  simp only [namedParameter, ends_bind, ends_accept, ends_ite, ends_pure, afterRound_again,
    afterRound_stop, ↓reduceIte, Bool.false_eq_true]
  refine (ends_expectIdentifier_reads hc).mono ?_
  rintro name c₁ ⟨_, _, h₁⟩
  refine (hafter h₁.stands rfl rfl).mono fun hint c₂ h₂ => ?_
  refine (hafter h₂.stands rfl rfl).mono fun default c₃ h₃ => ?_
  have h := h₁.trans (h₂.trans h₃)
  refine ⟨fun hcomma => ⟨h.trans (h₃.stands.reads_other hcomma rfl rfl), ?_⟩, fun _ => h⟩
  exact Nat.lt_of_lt_of_le (length_advance_lt hcomma) h.length_le

/-- Every round over the parameters passes a token of the line. -/
theorem advances_parameterRound : Advances o (Reads o 0 0) n (fun _ => True) parameterRound := by
  -- what is read behind a token that is passed
  have hbehind : ∀ {c : Cursor} {r : Round ParameterState (List Parameter)} {c' : Cursor},
      Reads o 0 0 c c.advance → AfterRound (fun _ c' => Reads o 0 0 c.advance c' ∧
        c'.rest.length < c.advance.rest.length) (fun _ c' => Reads o 0 0 c.advance c') r c' →
      AfterRound (fun _ c' => True ∧ Reads o 0 0 c c' ∧ c'.rest.length < c.rest.length)
        (fun _ c' => Reads o 0 0 c c') r c' := by
    intro c r c' hpass hr
    cases r with
    | again s => exact ⟨trivial, hpass.trans hr.1, Nat.lt_of_lt_of_le hr.2 hpass.length_le⟩
    | stop found => exact hpass.trans hr
  intro s c _ hc hn
  simp only [parameterRound, ends_bind, ends_check, ends_ite, ends_pure, ends_peek, afterRound_stop]
  split
  · exact Reads.refl hc
  · split
    · rename_i hslash
      have hpass : Reads o 0 0 c c.advance := hc.reads_other hslash rfl rfl
      simp only [ends_bind, ends_pass, advanceBy_one]
      exact (ends_parameterMark hpass.stands).mono fun _ _ => hbehind hpass
    · rename_i hstar
      have hpass : Reads o 0 0 c c.advance := hc.reads_other hstar rfl rfl
      simp only [ends_bind, ends_pass, advanceBy_one, ends_peek]
      split
      · exact (ends_namedParameter hpass.stands).mono fun _ _ => hbehind hpass
      · exact (ends_parameterMark hpass.stands).mono fun _ _ => hbehind hpass
    · rename_i hstars
      have hpass : Reads o 0 0 c c.advance := hc.reads_other hstars rfl rfl
      simp only [ends_bind, ends_pass, advanceBy_one]
      exact (ends_namedParameter hpass.stands).mono fun _ _ => hbehind hpass
    · refine (ends_namedParameter hc).mono fun r c' hr => ?_
      cases r with
      | again s' => exact ⟨trivial, hr⟩
      | stop found => exact hr
    · rw [ends_refuseNext]
      trivial

/-- Parameters are read to the bracket that closes them, and so one bracket fewer is open behind
them. -/
theorem ends_parameters (hc : c.Stands o) :
    Ends .safe parameters o c fun _ c' => Reads o 1 0 c c' := by
  have hrounds : Settles o (Reads o 0 0) (c.rest.length + 1)
      (repeatRounds parameterRound ⟨false, []⟩) :=
    settles_repeatRounds (isPath_reads o) advances_parameterRound trivial
  simp only [parameters, ends_bind, ends_expect, ends_pure, Endings.refused_safe, implies_true,
    and_true]
  refine (hrounds c hc (Nat.lt_succ_self _)).mono fun found c' h hnext => ?_
  exact (h.shift 1).trans (h.stands.reads_advance hnext rfl (lowers_closer rfl))

/-! ### Function bodies -/

section Body

variable {receiver : Option String} {s : BodyState}
  {Q : Round BodyState (List Binding) → Cursor → Prop}

/-- A step through a function body, where no block opens or ends, passes a definition or reads a
line. -/
theorem ends_bodyRound_next (hnext : c.next? = some t) (ht : t.isShift = false) :
    Ends w (bodyRound receiver s) o c Q ↔
      if c.startsScope = true then Ends w passStatement o c fun _ d => Q (.again s) d
      else Ends w (lineBindings receiver) o c fun more d =>
        Q (.again ⟨s.level, s.found ++ more⟩) d := by
  have hscope : (t == .defKeyword || t == .classKeyword || t == .atSign || c.startsFunction) =
      c.startsScope := by
    rw [startsScope, startsFunction, hnext]
    cases t <;> rfl
  simp only [bodyRound, ends_bind, ends_peek, hnext]
  split
  · rename_i hnone
    cases hnone
  · rename_i hindent
    cases Option.some.inj hindent
    cases ht
  · rename_i hdedent
    cases Option.some.inj hdedent
    cases ht
  · rename_i heq
    cases Option.some.inj heq
    simp only [ends_bind, ends_atFunction, ends_ite, ends_pure, hscope]

/-- **One step through a function body** opens or ends a block, passes a definition, or reads a
line. -/
theorem ends_bodyRound : Ends w (bodyRound receiver s) o c Q ↔
    (c.rest = [] → Q (.stop s.found) c) ∧
    (c.next? = some .indent → Q (.again ⟨s.level + 1, s.found⟩) c.advance) ∧
    (c.next? = some .dedent → (s.level = 0 → w.defect) ∧
      (s.level = 1 → Q (.stop s.found) c.advance) ∧
      ∀ n, s.level = n + 2 → Q (.again ⟨n + 1, s.found⟩) c.advance) ∧
    ∀ t, c.next? = some t → t.isShift = false →
      (c.startsScope = true → Ends w passStatement o c fun _ d => Q (.again s) d) ∧
      (c.startsScope = false → Ends w (lineBindings receiver) o c fun more d =>
        Q (.again ⟨s.level, s.found ++ more⟩) d) := by
  cases hnext : c.next? with
  | none => simp [bodyRound, ends_bind, hnext, next?_eq_none_iff.1 hnext]
  | some t =>
    obtain ⟨l, ls, hrest, _⟩ := next?_eq_some_iff.1 hnext
    by_cases hindent : t = .indent
    · subst hindent
      simp [bodyRound, ends_bind, hnext, hrest, Token.isShift]
    by_cases hdedent : t = .dedent
    · subst hdedent
      simp only [bodyRound, ends_bind, ends_peek, hnext, ends_pass, advanceBy_one]
      split <;> rename_i hlevel <;> simp [hrest, Token.isShift, hlevel]
    have hshift := isShift_eq_false hindent hdedent
    rw [ends_bodyRound_next hnext hshift]
    cases hscope : c.startsScope <;> simp [hrest, hshift, hindent, hdedent]

end Body

/-- One step through a function body keeps a block open, or ends behind the last one. -/
theorem advances_bodyRound {receiver : Option String} :
    Advances o (Follows o) n (fun s => 0 < s.level) (bodyRound receiver) := by
  intro s c hs hc hn
  refine ends_bodyRound.2 ⟨fun _ => Follows.refl hc, fun hindent => ?_, fun hdedent =>
    ⟨fun hlevel => ?_, fun _ => hc.advance, fun n _ => ?_⟩, fun t hnext ht =>
      ⟨fun _ => ?_, fun _ => ?_⟩⟩
  · exact ⟨Nat.succ_pos _, hc.advance, length_advance_lt hindent⟩
  · exact absurd hlevel (Nat.ne_of_gt hs)
  · exact ⟨Nat.succ_pos _, hc.advance, length_advance_lt hdedent⟩
  · exact (passes_passStatement hc hnext ht).mono fun _ c' h => ⟨hs, h.toFollows, h.length_lt⟩
  · refine (ends_lineBindings hc).mono fun more c' h => ?_
    have hpasses := h.passes hnext ht
    exact ⟨hs, hpasses.toFollows, hpasses.length_lt⟩

/-- A docstring is read, or there is none and the place is kept. -/
theorem settles_docstring : Settles o (Follows o) n docstring := fun _ hc _ =>
  (ends_docstring hc).mono fun _ _ h => h.elim (fun hsame => hsame.symm ▸ Follows.refl hc)
    (·.1.toFollows)

/-- The body of a function whose header ends its line is a block. -/
theorem ends_functionBody_block {receiver : Option String}
    {Q : Option String × List Binding → Cursor → Prop} (hnewline : c.next? = some .newline) :
    Ends w (functionBody receiver) o c Q ↔
      (c.advance.next? = some .indent → Ends w docstring o c.advance.advance fun doc d =>
        Ends w (bodyBindings receiver) o d fun found => Q (doc, found)) ∧
      (c.advance.next? ≠ some .indent → w.refused) := by
  simp [functionBody, ends_bind, hnewline]

/-- On the line of its header, it is what is left of the line. -/
theorem ends_functionBody_line {receiver : Option String}
    {Q : Option String × List Binding → Cursor → Prop} (hnewline : c.next? ≠ some .newline) :
    Ends w (functionBody receiver) o c Q ↔ Ends w docstring o c fun doc d =>
      if d.afterNewline = true then Q (doc, []) d
      else Ends w (lineBindings receiver) o d fun found => Q (doc, found) := by
  simp [functionBody, ends_bind, hnewline]

/-- The body of a function is passed, with or without a receiver to look for. -/
theorem settles_functionBody {receiver : Option String} :
    Settles o (Follows o) n (functionBody receiver) := by
  intro c hc hn
  have hbody : ∀ m, Settles o (Follows o) m (bodyBindings receiver) := fun m =>
    settles_repeatRounds (isPath_follows o) advances_bodyRound Nat.one_pos
  by_cases hnewline : c.next? = some .newline
  · refine (ends_functionBody_block hnewline).2 ⟨fun _ => ?_, fun _ => trivial⟩
    have hpass := hc.advance.trans hc.advance.stands.advance
    refine (settles_docstring _ hpass.stands (Nat.lt_succ_self _)).mono fun doc c₁ h₁ => ?_
    refine (hbody _ _ h₁.stands (Nat.lt_succ_self _)).mono fun found c₂ h₂ => ?_
    exact hpass.trans (h₁.trans h₂)
  · refine (ends_functionBody_line hnewline).2 ?_
    refine (settles_docstring _ hc (Nat.lt_succ_self _)).mono fun doc c₁ h₁ => ?_
    split
    · exact h₁
    · exact (ends_lineBindings h₁.stands).mono fun found c₂ h₂ => h₁.trans h₂.toFollows

/-- The tokens ahead begin a function of that name. -/
def Cursor.NamesFunction (c : Cursor) (name : String) : Prop :=
  c.next? = some .defKeyword ∧ c.advance.next? = some (.identifier name) ∨
    c.next? = some .asyncKeyword ∧ c.advance.next? = some .defKeyword ∧
      c.advance.advance.next? = some (.identifier name)

/-- The header of a function, through its colon: whether it is `async`, its name, its
parameters and what it returns. -/
def functionHeader : Reading (Bool × String × List Parameter × Option Expression) := do
  let isAsync ← accept .asyncKeyword
  expect .defKeyword
  let name ← expectIdentifier
  expect .openParen
  let parameters ← parameters
  let returns ← ifNext .arrow expression
  expect .colon
  return (isAsync, name, parameters, returns)

/-- A function is its header, what its body tells, and the span around both. -/
theorem functionDefinition_eq (ds : List Decorator) : functionDefinition ds = do
    let start ← peekStart
    let (isAsync, name, parameters, returns) ← functionHeader
    let (doc, receiverBindings) ← functionBody (receiverName? parameters)
    let span ← spanFrom start
    return ⟨name, parameters, ds, returns, doc, isAsync, receiverBindings, span⟩ := by
  simp only [functionDefinition, functionHeader, bind_assoc, pure_bind]

/-- The header of a function stays on its line and ends with a colon. -/
theorem ends_functionHeader (hc : c.Stands o) : Ends .safe functionHeader o c fun header c₁ =>
    c.NamesFunction header.2.1 ∧ OnLine o c c₁ ∧ c₁.rest.length < c.rest.length ∧
      c₁.afterNewline = false := by
  -- from the name on
  have hname : ∀ (isAsync : Bool) {c₀ : Cursor}, OnLine o c c₀ →
      (∀ name, c₀.next? = some (.identifier name) → c.NamesFunction name) →
      Ends .safe (do
        let name ← expectIdentifier
        expect .openParen
        let parameters ← parameters
        let returns ← ifNext .arrow expression
        expect .colon
        return (isAsync, name, parameters, returns)) o c₀ fun header c₁ =>
          c.NamesFunction header.2.1 ∧ OnLine o c c₁ ∧ c₁.rest.length < c.rest.length ∧
            c₁.afterNewline = false := by
    intro isAsync c₀ h₀ hnames
    simp only [ends_bind, ends_expect, ends_ifNext, ends_pure, Endings.refused_safe, implies_true,
      and_true]
    refine (ends_expectIdentifier_reads h₀.stands).mono ?_
    rintro name c₁ ⟨hname, _, h₁⟩ hopen
    have h₂ : Reads o 0 1 c₁ c₁.advance := h₁.stands.reads_advance hopen rfl (lowers_opener rfl)
    refine (ends_parameters h₂.stands).mono fun parameters c₃ h₃ => ?_
    have hheader := h₀.trans (h₁.onLine.trans (h₂.onLine.trans h₃.onLine))
    have hcolon : ∀ {c₄ : Cursor}, OnLine o c c₄ → c₄.next? = some .colon →
        c.NamesFunction name ∧ OnLine o c c₄.advance ∧
          c₄.advance.rest.length < c.rest.length ∧ c₄.advance.afterNewline = false := by
      intro c₄ h₄ hnext
      exact ⟨hnames name hname, h₄.trans (h₄.stands.onLine_advance hnext rfl),
        Nat.lt_of_lt_of_le (length_advance_lt hnext) h₄.length_le, afterNewline_advance hnext⟩
    refine ⟨fun harrow => ?_, fun _ => hcolon hheader⟩
    have h₄ : Reads o 0 0 c₃ c₃.advance := h₃.stands.reads_other harrow rfl rfl
    exact (settles_expression _ h₄.stands (Nat.lt_succ_self _)).mono fun returns c₅ h₅ =>
      hcolon (hheader.trans (h₄.onLine.trans h₅.onLine))
  simp only [functionHeader, ends_bind (x := accept _), ends_bind (x := expect _), ends_accept,
    ends_expect, Endings.refused_safe, implies_true, and_true]
  refine ⟨fun hasync hdef => ?_, fun _ hdef => ?_⟩
  · have h₁ := hc.onLine_advance hasync rfl
    have h₂ := h₁.trans (h₁.stands.onLine_advance hdef rfl)
    exact hname true h₂ fun name hnext => .inr ⟨hasync, hdef, hnext⟩
  · exact hname false (hc.onLine_advance hdef rfl) fun name hnext => .inl ⟨hdef, hnext⟩

/-- **A function is a header and a body**: the header stays on its line and ends with a colon. -/
theorem ends_functionDefinition {ds : List Decorator} {Q : FunctionOutline → Cursor → Prop}
    (hc : c.Stands o) (hw : w.refused)
    (h : ∀ name receiver c₁, c.NamesFunction name → OnLine o c c₁ →
      c₁.rest.length < c.rest.length → c₁.afterNewline = false →
      Ends w (functionBody receiver) o c₁ fun _ c' =>
        ∀ f made, f.name = name → Q f { c' with made }) :
    Ends w (functionDefinition ds) o c Q := by
  simp only [functionDefinition_eq, ends_bind, ends_peekStart, ends_spanFrom, ends_pure]
  refine ((ends_functionHeader hc).of_safe hw).mono ?_
  rintro ⟨isAsync, name, parameters, returns⟩ c₁ ⟨hnames, h₁, hless, hafter⟩
  exact (h name _ c₁ hnames h₁ hless hafter).mono fun r c' hQ => hQ _ _ rfl

/-- The reading of a function passes a token. -/
theorem settles_functionDefinition {ds : List Decorator} :
    Settles o (Passes o) n (functionDefinition ds) := by
  intro c hc hn
  refine ends_functionDefinition hc trivial fun name receiver c₁ _ h₁ hless _ => ?_
  refine (settles_functionBody c₁ h₁.stands (Nat.lt_succ_self _)).mono fun r c' h f made _ => ?_
  exact passes_made.2 (Passes.trans ⟨h₁.toFollows, hless⟩ h)

/-! ### Statements of a scope

The statements of a class body and those of a module are told apart in the same way.  What is
no definition is `simple`: the names that it binds are looked at in a class body only. -/

/-- A class or a function begins here. -/
def Cursor.StartsDefinition (c : Cursor) : Prop :=
  c.next? = some .classKeyword ∨ c.startsFunction = true

/-- A statement begins here that is neither an empty line nor a definition. -/
structure Cursor.StartsSimple (c : Cursor) : Prop where
  newline : c.next? ≠ some .newline
  indent : c.next? ≠ some .indent
  decorator : c.next? ≠ some .atSign
  classKeyword : c.next? ≠ some .classKeyword
  function : c.startsFunction = false

/-- A definition begins with a token of its line: no block is opened or closed there. -/
theorem Cursor.StartsDefinition.exists_next? (h : c.StartsDefinition) :
    ∃ t, c.next? = some t ∧ t.isShift = false := by
  rw [StartsDefinition, Cursor.startsFunction, Bool.or_eq_true, Bool.and_eq_true, beq_iff_eq,
    beq_iff_eq] at h
  rcases h with hclass | hdef | ⟨hasync, _⟩
  · exact ⟨_, hclass, rfl⟩
  · exact ⟨_, hdef, rfl⟩
  · exact ⟨_, hasync, rfl⟩

/-- **Decorators are lines of their own**: what is kept past a line is kept past all of them, and a
definition begins behind them. -/
theorem ends_decorators {I : Cursor → Prop} (hc : c.Stands o) (h : I c)
    (hline : ∀ {d d'}, I d → d.next? = some .atSign → PastLine o d d' → I d') :
    Ends .any decorators o c fun _ c' => Follows o c c' ∧ I c' ∧ c'.StartsDefinition := by
  have hrounds : Ends .any (repeatRounds decoratorRound []) o c fun _ c' =>
      Follows o c c' ∧ I c' := by
    refine ends_repeatRounds_any (I := fun _ c' => Follows o c c' ∧ I c') ?_ ⟨Follows.refl hc, h⟩
    rintro found c₁ ⟨h₁, hkept⟩
    refine ((ends_decoratorRound h₁.stands).of_safe trivial).mono fun r c' hr => ?_
    cases r with
    | again found' => exact ⟨h₁.trans hr.2.toFollows, hline hkept hr.1 hr.2⟩
    | stop found' => exact hr.2 ▸ ⟨h₁, hkept⟩
  simp only [decorators, ends_bind, ends_check, ends_ite, ends_pure, ends_atFunction,
    ends_refuseNext, Endings.refused_any]
  refine hrounds.mono fun found c' h => ?_
  split
  · rename_i hclass
    exact ⟨h.1, h.2, .inl (by simpa using hclass)⟩
  · split
    · rename_i hfunction
      exact ⟨h.1, h.2, .inr hfunction⟩
    · trivial

section Scope

variable {σ : Type} {inner : List Decorator → Reading ClassOutline} {addClass : ClassOutline → σ}
  {addFunction : FunctionOutline → σ} {definition : List Decorator → Reading σ} {simple : Reading σ}
  {found : σ}

/-- A definition, its decorators passed: a class or a function is added to what has been found. -/
def definitionOf (inner : List Decorator → Reading ClassOutline) (addClass : ClassOutline → σ)
    (addFunction : FunctionOutline → σ) (ds : List Decorator) : Reading σ := do
  if ← check .classKeyword then return addClass (← inner ds)
  else return addFunction (← functionDefinition ds)

/-- One statement of a scope. -/
def statementOf (definition : List Decorator → Reading σ) (simple : Reading σ) (found : σ) :
    Reading σ := do
  match ← peek with
  | some .newline =>
    pass 1
    return found
  | some .indent => refuse (.unexpectedIndent (← peekPlace))
  | some .atSign => definition (← decorators)
  | some .classKeyword => definition []
  | _ => if ← atFunction then definition [] else simple

/-- Behind decorators, `class` opens a class and anything else is read as a function. -/
theorem ends_definitionOf {Q : σ → Cursor → Prop} {ds : List Decorator} :
    Ends w (definitionOf inner addClass addFunction ds) o c Q ↔
      (c.next? = some .classKeyword → Ends w (inner ds) o c fun k => Q (addClass k)) ∧
      (c.next? ≠ some .classKeyword →
        Ends w (functionDefinition ds) o c fun f => Q (addFunction f)) := by
  simp only [definitionOf, ends_bind, ends_check, ends_ite, ends_pure]
  by_cases hclass : c.next? = some .classKeyword <;> simp [hclass]

/-- **A statement of a scope** is an empty line, a definition with or without decorators, or a
simple one. -/
theorem ends_statementOf {Q : σ → Cursor → Prop} :
    Ends w (statementOf definition simple found) o c Q ↔
      (c.next? = some .newline → Q found c.advance) ∧ (c.next? = some .indent → w.refused) ∧
      (c.next? = some .atSign → Ends w decorators o c fun ds d => Ends w (definition ds) o d Q) ∧
      (c.StartsDefinition → Ends w (definition []) o c Q) ∧
      (c.StartsSimple → Ends w simple o c Q) := by
  simp only [statementOf, ends_bind, ends_peek]
  split
  · rename_i hnext
    have hsimple : ¬c.StartsSimple := fun h => h.newline hnext
    simp [StartsDefinition, startsFunction, hnext, hsimple]
  · rename_i hnext
    have hsimple : ¬c.StartsSimple := fun h => h.indent hnext
    simp [StartsDefinition, startsFunction, hnext, hsimple, ends_bind]
  · rename_i hnext
    have hsimple : ¬c.StartsSimple := fun h => h.decorator hnext
    simp [StartsDefinition, startsFunction, hnext, hsimple, ends_bind]
  · rename_i hnext
    have hsimple : ¬c.StartsSimple := fun h => h.classKeyword hnext
    simp [StartsDefinition, hnext, hsimple]
  · rename_i hnewline hindent hdecorator hclass
    have hnewline : c.next? ≠ some .newline := hnewline
    have hindent : c.next? ≠ some .indent := hindent
    have hdecorator : c.next? ≠ some .atSign := hdecorator
    have hdefinition : c.StartsDefinition ↔ c.startsFunction = true := or_iff_right hclass
    have hsimple : c.StartsSimple ↔ c.startsFunction = false :=
      ⟨StartsSimple.function, fun h => ⟨hnewline, hindent, hdecorator, hclass, h⟩⟩
    simp only [ends_bind, ends_atFunction, ends_ite, hdefinition, hsimple]
    cases c.startsFunction <;> simp [hnewline, hindent, hdecorator]

/-- Where neither a line end nor a definition comes next, the statement is a simple one. -/
theorem ends_statementOf_simple {Q : σ → Cursor → Prop} (h : c.StartsSimple) :
    Ends w (statementOf definition simple found) o c Q ↔ Ends w simple o c Q := by
  refine ends_statementOf.trans ⟨fun hQ => hQ.2.2.2.2 h, fun hQ =>
    ⟨fun hnext => absurd hnext h.newline, fun hnext => absurd hnext h.indent,
      fun hnext => absurd hnext h.decorator, ?_, fun _ => hQ⟩⟩
  rintro (hclass | hfunction)
  · exact absurd hclass h.classKeyword
  · rw [h.function] at hfunction
    cases hfunction

/-- The reading of a definition passes a token, if that of a class does. -/
theorem settles_definitionOf (hinner : ∀ ds, Settles o (Passes o) n (inner ds))
    (ds : List Decorator) : Settles o (Passes o) n (definitionOf inner addClass addFunction ds) :=
  fun c hc hn => ends_definitionOf.2
    ⟨fun _ => hinner ds c hc hn, fun _ => settles_functionDefinition c hc hn⟩

/-- A statement of a scope passes a token, if the definitions and the simple ones do. -/
theorem passes_statementOf (hdefinition : ∀ ds, Settles o (Passes o) n (definition ds))
    (hc : c.Stands o) (hn : c.rest.length < n)
    (hsimple : c.StartsSimple → Ends .safe simple o c fun _ c' => Passes o c c') :
    Ends .safe (statementOf definition simple found) o c fun _ c' => Passes o c c' := by
  refine ends_statementOf.2 ⟨hc.passes_advance, fun _ => trivial, fun _ => ?_,
    fun _ => hdefinition [] c hc hn, hsimple⟩
  refine (settles_decorators c hc hn).mono fun ds c' h => ?_
  exact (hdefinition ds c' h.stands (Nat.lt_of_le_of_lt h.length_le hn)).mono
    fun _ _ h' => h.passes h'

end Scope

/-! ### Classes -/

/-- The header of a class may have arguments, in parentheses that are closed. -/
theorem ends_classArguments (hc : c.Stands o) :
    Ends .safe classArguments o c fun _ c' => Reads o 0 0 c c' := by
  simp only [classArguments, ends_bind, ends_ifNext, ends_pure]
  refine ⟨fun hopen => ?_, fun _ => Reads.refl hc⟩
  have hpass : Reads o 0 1 c c.advance := hc.reads_advance hopen rfl (lowers_opener rfl)
  exact (ends_arguments settles_expression hpass.stands (Nat.lt_succ_self _)).mono
    fun _ _ h => hpass.trans h

/-- The header of a class, through its colon: its name and its arguments. -/
def classHeader : Reading (String × List (Argument Expression)) := do
  expect .classKeyword
  let name ← expectIdentifier
  let header ← classArguments
  expect .colon
  return (name, header)

/-- The header of a class stays on its line, closes the brackets that it opens and ends with a
colon. -/
theorem ends_classHeader (hc : c.Stands o) : Ends .safe classHeader o c fun header c₁ =>
    c.next? = some .classKeyword ∧ c.advance.next? = some (.identifier header.1) ∧
      ∃ c₀, Reads o 0 0 c c₀ ∧ c₀.next? = some .colon ∧ c₁ = c₀.advance := by
  simp only [classHeader, ends_bind, ends_expect, ends_pure, Endings.refused_safe, implies_true,
    and_true]
  intro hclass
  have h₁ : Reads o 0 0 c c.advance := hc.reads_other hclass rfl rfl
  refine (ends_expectIdentifier_reads h₁.stands).mono ?_
  rintro name c₂ ⟨hname, _, h₂⟩
  refine (ends_classArguments h₂.stands).mono fun header c₃ h₃ hcolon => ?_
  exact ⟨hclass, hname, c₃, h₁.trans (h₂.trans h₃), hcolon, rfl⟩

section Nested

variable {inner : List Decorator → Reading ClassOutline}

/-- A class is its header, its body, and the span around both. -/
theorem classOver_eq (inner : List Decorator → Reading ClassOutline) (ds : List Decorator) :
    classOver inner ds = do
      let start ← peekStart
      let (name, header) ← classHeader
      let (doc, body) ← classBody inner
      let span ← spanFrom start
      let (bases, keywords) := headerParts header
      return ⟨name, bases, keywords, ds, doc, body.methods, body.bindings, body.classes, span⟩ := by
  simp only [classOver, classHeader, bind_assoc, pure_bind]

/-- **A class is a header and a body**: the header stays on its line, closes the brackets that
it opens, and ends with a colon. -/
theorem ends_classOver {ds : List Decorator} {Q : ClassOutline → Cursor → Prop} (hc : c.Stands o)
    (hw : w.refused)
    (h : ∀ name c₁, c.next? = some .classKeyword → c.advance.next? = some (.identifier name) →
      Reads o 0 0 c c₁ → c₁.next? = some .colon →
      Ends w (classBody inner) o c₁.advance fun r c' =>
        ∀ k made, k.name = name → k.methods = r.2.methods → k.classes = r.2.classes →
          Q k { c' with made }) :
    Ends w (classOver inner ds) o c Q := by
  simp only [classOver_eq, ends_bind, ends_peekStart, ends_spanFrom, ends_pure]
  refine ((ends_classHeader hc).of_safe hw).mono ?_
  rintro ⟨name, header⟩ c₁ h₁
  obtain ⟨hclass, hname, c₀, h₀, hcolon, rfl⟩ := h₁
  exact (h name c₀ hclass hname h₀ hcolon).mono fun r c' hQ => hQ _ _ rfl rfl rfl

/-- A simple statement of a class body. -/
def memberSimple (found : ClassBody) : Reading ClassBody := do
  if startsBinding ((← ahead).map (·.token)) then
    return { found with bindings := found.bindings ++ (← classBinding) }
  else
    passStatement
    return found

/-- A member of a class body is a definition that is put among its classes or its methods. -/
theorem memberDefinition_eq (found : ClassBody) : memberDefinition inner found =
    definitionOf inner (fun k => { found with classes := found.classes ++ [k] })
      fun f => { found with methods := found.methods ++ [f] } := rfl

/-- A statement of a class body is a statement of a scope, with its members as definitions. -/
theorem classStatement_eq (found : ClassBody) : classStatement inner found =
    statementOf (memberDefinition inner found) (memberSimple found) found := rfl

/-- A round of a block of statements ends it, with the tokens or with its `dedent`, or reads one. -/
theorem ends_indentedRound {found : ClassBody} {Q : Round ClassBody ClassBody → Cursor → Prop} :
    Ends w (indentedRound inner found) o c Q ↔
      (c.rest = [] → Q (.stop found) c) ∧ (c.next? = some .dedent → Q (.stop found) c.advance) ∧
      ∀ t, c.next? = some t → t ≠ .dedent →
        Ends w (classStatement inner found) o c fun b d => Q (.again b) d := by
  simp only [indentedRound, ends_bind, ends_atEnd, ends_accept, ends_ite, ends_pure]
  cases hnext : c.next? with
  | none => simp [next?_eq_none_iff.1 hnext]
  | some t =>
    obtain ⟨l, ls, hrest, _⟩ := next?_eq_some_iff.1 hnext
    by_cases ht : t = .dedent <;> simp [hrest, ht]

/-- A round of the statements on the line of a header ends with the line, or reads one. -/
theorem ends_inlineRound {found : ClassBody} {Q : Round ClassBody ClassBody → Cursor → Prop} :
    Ends w (inlineRound inner found) o c Q ↔
      (c.afterNewline = true ∨ c.next? = some .dedent ∨ c.rest = [] → Q (.stop found) c) ∧
      ∀ t, c.afterNewline = false → c.next? = some t → t ≠ .dedent →
        Ends w (classStatement inner found) o c fun b d => Q (.again b) d := by
  simp only [inlineRound, ends_bind, ends_afterNewline, ends_check, ends_atEnd, ends_ite, ends_pure]
  cases hafter : c.afterNewline with
  | true => simp
  | false =>
    cases hnext : c.next? with
    | none => simp [next?_eq_none_iff.1 hnext]
    | some t =>
      obtain ⟨l, ls, hrest, _⟩ := next?_eq_some_iff.1 hnext
      by_cases ht : t = .dedent <;> simp [hrest, ht]

/-- The body of a class whose header ends its line is a block. -/
theorem ends_classBody_block {Q : Option String × ClassBody → Cursor → Prop}
    (hnewline : c.next? = some .newline) :
    Ends w (classBody inner) o c Q ↔
      (c.advance.next? = some .indent → Ends w docstring o c.advance.advance fun doc d =>
        Ends w (indentedBody inner ⟨[], [], []⟩) o d fun body => Q (doc, body)) ∧
      (c.advance.next? ≠ some .indent → w.refused) := by
  simp [classBody, ends_bind, hnewline]

/-- On the line of its header, it is what is left of the line. -/
theorem ends_classBody_line {Q : Option String × ClassBody → Cursor → Prop}
    (hnewline : c.next? ≠ some .newline) :
    Ends w (classBody inner) o c Q ↔ Ends w docstring o c fun doc d =>
      Ends w (inlineBody inner ⟨[], [], []⟩) o d fun body => Q (doc, body) := by
  simp [classBody, ends_bind, hnewline]

variable (hinner : ∀ ds, Settles o (Passes o) n (inner ds))

include hinner

/-- A statement of a class body passes a token. -/
theorem ends_classStatement {found : ClassBody} (hc : c.Stands o) (hn : c.rest.length < n)
    (hnext : c.next? = some t) (ht : t ≠ .dedent) :
    Ends .safe (classStatement inner found) o c fun _ c' => Passes o c c' := by
  rw [classStatement_eq, memberDefinition_eq]
  refine passes_statementOf (settles_definitionOf hinner) hc hn fun hsimple => ?_
  have hshift := isShift_eq_false (fun h => hsimple.indent (h ▸ hnext)) ht
  simp only [memberSimple, ends_bind, ends_ahead, ends_ite, ends_pure]
  split
  · refine ends_classBinding hc fun bound c₁ h₁ hless => ?_
    exact (settles_finishStatement c₁ h₁.stands (Nat.lt_succ_self _)).mono fun _ _ h =>
      Passes.trans ⟨h₁.toFollows, hless⟩ h
  · exact passes_passStatement hc hnext hshift

/-- Every round over an indented class body passes a token. -/
theorem advances_indentedRound :
    Advances o (Follows o) n (fun _ => True) (indentedRound inner) := fun _ _ _ hc hn =>
  ends_indentedRound.2 ⟨fun _ => Follows.refl hc, fun _ => hc.advance, fun _ hnext ht =>
    (ends_classStatement hinner hc hn hnext ht).mono fun _ _ h =>
      ⟨trivial, h.toFollows, h.length_lt⟩⟩

/-- Every round over a class body on its header's line passes a token. -/
theorem advances_inlineRound :
    Advances o (Follows o) n (fun _ => True) (inlineRound inner) := fun _ _ _ hc hn =>
  ends_inlineRound.2 ⟨fun _ => Follows.refl hc, fun _ _ hnext ht =>
    (ends_classStatement hinner hc hn hnext ht).mono fun _ _ h =>
      ⟨trivial, h.toFollows, h.length_lt⟩⟩

/-- A class body is read where the classes in it are. -/
theorem settles_classBody : Settles o (Follows o) n (classBody inner) := by
  intro c hc hn
  have hindented : Settles o (Follows o) n (indentedBody inner ⟨[], [], []⟩) :=
    settles_repeatRounds (isPath_follows o) (advances_indentedRound hinner) trivial
  have hinline : Settles o (Follows o) n (inlineBody inner ⟨[], [], []⟩) :=
    settles_repeatRounds (isPath_follows o) (advances_inlineRound hinner) trivial
  by_cases hnewline : c.next? = some .newline
  · refine (ends_classBody_block hnewline).2 ⟨fun _ => ?_, fun _ => trivial⟩
    have hpass := hc.advance.trans hc.advance.stands.advance
    refine (settles_docstring _ hpass.stands (Nat.lt_succ_self _)).mono fun doc c₁ h₁ => ?_
    have h := hpass.trans h₁
    exact (hindented c₁ h₁.stands (Nat.lt_of_le_of_lt h.length_le hn)).mono fun _ _ h₂ => h.trans h₂
  · refine (ends_classBody_line hnewline).2 ?_
    refine (settles_docstring _ hc (Nat.lt_succ_self _)).mono fun doc c₁ h₁ => ?_
    exact (hinline c₁ h₁.stands (Nat.lt_of_le_of_lt h₁.length_le hn)).mono fun _ _ h₂ => h₁.trans h₂

/-- The reading of a class passes a token if the readings of those in it do. -/
theorem settles_classOver {ds : List Decorator} :
    Settles o (Passes o) (n + 1) (classOver inner ds) := by
  intro c hc hn
  refine ends_classOver hc trivial fun name c₁ _ _ h₁ hcolon => ?_
  have hpass : Passes o c c₁.advance := h₁.toFollows.passes (h₁.stands.passes_advance hcolon)
  have hless := hpass.length_lt
  refine (settles_classBody hinner _ hpass.stands (by omega)).mono fun r c' h k made _ _ _ => ?_
  exact passes_made.2 (hpass.trans h)

end Nested

/-- Classes nested up to any depth are read. -/
theorem settles_classWithin (n : Nat) (ds : List Decorator) :
    Settles o (Passes o) n (classWithin n ds) := by
  induction n generalizing ds with
  | zero => exact fun c _ hn => absurd hn (Nat.not_lt_zero _)
  | succ n ih => exact settles_classOver ih

/-- **A class settles**: one level of classes for each token ahead is enough. -/
theorem settles_classDefinition {ds : List Decorator} :
    Settles o (Passes o) n (classDefinition ds) := fun c hc _ =>
  settles_classWithin (c.rest.length + 1) ds c hc (Nat.lt_succ_self _)

/-! ### Modules -/

/-- A simple statement at the top level.  A `dedent` ends nothing there and is passed. -/
def topSimple (found : TopLevel) : Reading TopLevel := do
  if ← check .dedent then pass 1 else passStatement
  return found

/-- A definition at the top of a module is put among its classes or its functions. -/
theorem topDefinition_eq (found : TopLevel) : topDefinition found =
    definitionOf classDefinition (fun k => { found with classes := found.classes ++ [k] })
      fun f => { found with functions := found.functions ++ [f] } := rfl

/-- A statement of a module is a statement of a scope, with its top definitions as definitions. -/
theorem topStatement_eq (found : TopLevel) :
    topStatement found = statementOf (topDefinition found) (topSimple found) found := by
  funext o c
  obtain ⟨rest, lastStop, afterNewline, made⟩ := c
  cases rest with
  | nil => rfl
  | cons l ls =>
    obtain ⟨token, extent⟩ := l
    cases token with
    | asyncKeyword =>
      -- what is behind `async` tells whether it begins a function
      cases ls with
      | nil => rfl
      | cons l' ls =>
        obtain ⟨next, extent'⟩ := l'
        cases next <;> rfl
    | _ => rfl

/-- A statement at the top level passes a token. -/
theorem ends_topStatement {found : TopLevel} (hc : c.Stands o) (hnext : c.next? = some t) :
    Ends .safe (topStatement found) o c fun _ c' => Passes o c c' := by
  rw [topStatement_eq, topDefinition_eq]
  refine passes_statementOf (settles_definitionOf fun _ => settles_classDefinition) hc
    (Nat.lt_succ_self _) fun hsimple => ?_
  simp only [topSimple, ends_bind, ends_check, ends_ite, ends_pass, ends_pure, beq_iff_eq]
  split
  · exact hc.passes_advance hnext
  · rename_i hdedent
    exact passes_passStatement hc hnext
      (isShift_eq_false (fun h => hsimple.indent (h ▸ hnext)) fun h => hdedent (h ▸ hnext))

/-- The loop over a module stops where no token is left, and reads a statement anywhere else. -/
theorem ends_topRound {found : TopLevel} {Q : Round TopLevel TopLevel → Cursor → Prop} :
    Ends w (topRound found) o c Q ↔ (c.rest = [] → Q (.stop found) c) ∧
      ∀ t, c.next? = some t → Ends w (topStatement found) o c fun s d => Q (.again s) d := by
  simp only [topRound, ends_bind, ends_atEnd, ends_ite, ends_pure]
  cases hnext : c.next? with
  | none => simp [next?_eq_none_iff.1 hnext]
  | some t =>
    obtain ⟨l, ls, hrest, _⟩ := next?_eq_some_iff.1 hnext
    simp [hrest]

/-- Every round over a module passes a token. -/
theorem advances_topRound :
    Advances o (Follows o) n (fun _ => True) topRound := fun _ _ _ hc _ =>
  ends_topRound.2 ⟨fun _ => Follows.refl hc, fun _ hnext =>
    (ends_topStatement hc hnext).mono fun _ _ h => ⟨trivial, h.toFollows, h.length_lt⟩⟩

/-- A module is read from any place. -/
theorem settles_moduleOutline : Settles o (Follows o) n moduleOutline := by
  intro c hc hn
  have hrounds : ∀ m, Settles o (Follows o) m (repeatRounds topRound ⟨[], []⟩) := fun m =>
    settles_repeatRounds (isPath_follows o) advances_topRound trivial
  simp only [moduleOutline, ends_bind, ends_sourceSize, ends_makeSpan, ends_pure]
  have hmade : ∀ made, ({ c with made } : Cursor).Stands o := fun _ => hc
  refine (settles_docstring _ (hmade _) (Nat.lt_succ_self _)).mono fun doc c₁ h₁ => ?_
  refine (hrounds _ c₁ h₁.stands (Nat.lt_succ_self _)).mono fun found c₂ h₂ => ?_
  exact (follows_made.2 (Follows.refl hc)).trans (h₁.trans h₂)

/-! ### Sources -/

/-- A loop that advances along a path goes on to later places. -/
theorem Advances.follows {σ α : Type} {R : Cursor → Cursor → Prop} {I : σ → Prop}
    {step : σ → Reading (Round σ α)} (hR : IsPath o R) (h : Advances o R n I step) :
    Advances o (Follows o) n I step := fun s c hs hc hn =>
  (h s c hs hc hn).mono fun r _ hr => by
    cases r with
    | again s' => exact ⟨hr.1, hR.follows hr.2.1, hr.2.2⟩
    | stop a => exact hR.follows hr

/-- Every round over the lines of a function body passes a token. -/
theorem advances_lineRound {receiver : Option String} :
    Advances o (Follows o) n (fun _ => True) (lineRound receiver) := fun _ _ _ hc _ =>
  (onLine_lineRound hc).mono fun r _ hr => by
    cases r with
    | again s' => exact ⟨trivial, hr.1.toFollows, hr.2⟩
    | stop found => exact hr.toFollows

/-- Every round over the targets of a receiver passes a token. -/
theorem advances_receiverRound {receiver : String} :
    Advances o (Follows o) n (fun _ => True) (receiverRound receiver) := fun _ _ _ hc _ =>
  (ends_receiverRound hc).mono fun r _ hr => by
    cases r with
    | again s' => exact ⟨trivial, hr.1.toFollows, hr.2⟩
    | stop found => exact hr.toFollows

/-- Every round of every loop ends well, and passes a token if it is not the last.  The loops
over nested expressions and classes are those that are run where fewer than `n` tokens are
ahead. -/
structure LoopsAdvance (o : Origin) : Prop where
  module : ∀ n, Advances o (Follows o) n (fun _ => True) topRound
  decorators : ∀ n, Advances o (Follows o) n (fun _ => True) decoratorRound
  indentedClass : ∀ n, Advances o (Follows o) n (fun _ => True) (indentedRound (classWithin n))
  inlineClass : ∀ n, Advances o (Follows o) n (fun _ => True) (inlineRound (classWithin n))
  functionBody : ∀ n receiver, Advances o (Follows o) n (fun s => 0 < s.level) (bodyRound receiver)
  line : ∀ n receiver, Advances o (Follows o) n (fun _ => True) (lineRound receiver)
  receiverTargets : ∀ n receiver, Advances o (Follows o) n (fun _ => True) (receiverRound receiver)
  targetNames : ∀ n, Advances o (Follows o) n (fun _ => True) targetRound
  chainedValue : ∀ n targets, Advances o (Follows o) n (fun _ => True) (chainRound targets)
  parameters : ∀ n, Advances o (Follows o) n (fun _ => True) parameterRound
  arguments : ∀ n, Advances o (Follows o) n (fun _ => True) (argumentRound (expressionWithin n))
  tuple : ∀ n, Advances o (Follows o) n (fun _ => True) (tupleRound (expressionWithin n))
  list : ∀ n, Advances o (Follows o) n (fun _ => True) (listRound (expressionWithin n))
  chain : ∀ n start,
    Advances o (Follows o) (n + 1) (fun _ => True) (postfixRound (expressionWithin n) start)
  expressionList : ∀ n, Advances o (Follows o) n (fun _ => True) expressionRound

/-- All loops of the parser advance: each of them by the lemma about its round. -/
theorem loopsAdvance (o : Origin) : LoopsAdvance o where
  module _ := advances_topRound
  decorators _ := advances_decoratorRound
  indentedClass n := advances_indentedRound (settles_classWithin n)
  inlineClass n := advances_inlineRound (settles_classWithin n)
  functionBody _ _ := advances_bodyRound
  line _ _ := advances_lineRound
  receiverTargets _ _ := advances_receiverRound
  targetNames _ := advances_targetRound.follows (isPath_reads o)
  chainedValue _ _ := advances_chainRound.follows (isPath_reads o)
  parameters _ := advances_parameterRound.follows (isPath_reads o)
  arguments n := (advances_argumentRound (settles_expressionWithin n)).follows (isPath_reads o)
  tuple n := (advances_tupleRound (settles_expressionWithin n)).follows (isPath_reads o)
  list n := (advances_listRound (settles_expressionWithin n)).follows (isPath_reads o)
  chain n _ := (advances_postfixRound (settles_expressionWithin n)).follows (isPath_reads o)
  expressionList _ := advances_expressionRound.follows (isPath_reads o)

/-- The first place of a source stands in it. -/
theorem stands_first {text : List Char} {tokens : List Lexeme} (path : String)
    (h : tokenizeChars text = .ok tokens) : (Cursor.first tokens).Stands ⟨text, path⟩ :=
  ⟨isCut_zero text, placed_of_tokenizeChars h⟩

/-- A source has an outline or is refused: a module that is read from its first token settles. -/
theorem outline_or_refused (source path : String) :
    (∃ m, parse source path = .outline m) ∨ ∃ e, parse source path = .refused e := by
  unfold parse
  dsimp only
  cases htokens : tokenizeChars source.toList with
  | error e => exact .inr ⟨e, rfl⟩
  | ok tokens =>
    have h := settles_moduleOutline (Cursor.first tokens)
      (stands_first (moduleId path) htokens) (Nat.lt_succ_self _)
    unfold Ends at h
    dsimp only
    cases hm : moduleOutline ⟨source.toList, moduleId path⟩ (.first tokens) with
    | done m c => exact .inl ⟨m, rfl⟩
    | refused e made => exact .inr ⟨e, rfl⟩
    | defect d =>
      rw [hm] at h
      exact h.elim

/-- **Every source has an outline or is refused**: no reading of it closes what is not open,
cuts the source out of order or inside a character, or misses a value, and every loop
advances through its tokens. -/
theorem parse_settles (source path : String) :
    ((∃ m, parse source path = .outline m) ∨ ∃ e, parse source path = .refused e) ∧
      LoopsAdvance ⟨source.toList, moduleId path⟩ :=
  ⟨outline_or_refused source path, loopsAdvance _⟩

end Outline
end Lineage
