/-
# Targets of an assignment on a line

The search for receiver bindings tries each place of a line where a statement may begin, and
behind a comma as well: from there the rest of a list of targets is tried as if it were all of
it.  So what is found of a list that mixes names and attributes of the receiver are the
attributes behind its last name, and the value they take is counted against those only
(`ends_lineBindings_assignment`).

A place of the line is before the statement, in front of a target, or inside of one
(`Nearing`); one step leads from each of these to another one, or records the binding
(`nearing_lineRound`).
-/

import Lineage.Proofs.Outline.Brackets

namespace Lineage
namespace Outline

open Source Reading Text Cursor

variable {o : Origin} {w : Endings} {c c' c₀ : Cursor} {t sep : Token} {receiver field : String}
  {k n start stop : Nat} {p q u ts pre behind more : List Token} {target : Target}
  {before targets others : List Target} {fields found : List String} {s : LineState}

/-! ### Lists of targets -/

/-- A target of an assignment: a name, or an attribute of the receiver. -/
inductive Target where
  | name (id : String)
  | field (id : String)
deriving DecidableEq, Repr

/-- The tokens that a target is written with. -/
def Target.tokens (receiver : String) : Target → List Token
  | .name id => [.identifier id]
  | .field id => [.identifier receiver, .dot, .identifier id]

/-- Targets with commas between them. -/
def targetTokens (receiver : String) : List Target → List Token
  | [] => []
  | [target] => target.tokens receiver
  | target :: targets => target.tokens receiver ++ .comma :: targetTokens receiver targets

/-- A target in front of others has a comma behind it. -/
theorem targetTokens_cons (h : targets ≠ []) : targetTokens receiver (target :: targets) =
    target.tokens receiver ++ .comma :: targetTokens receiver targets := by
  cases targets with
  | nil => exact absurd rfl h
  | cons => rfl

/-- The first tokens are those of the first target. -/
theorem exists_targetTokens_cons (receiver : String) (target : Target) (targets : List Target) :
    ∃ tail, targetTokens receiver (target :: targets) = target.tokens receiver ++ tail := by
  cases targets with
  | nil => exact ⟨[], (List.append_nil _).symm⟩
  | cons => exact ⟨_, rfl⟩

/-- A target has a token, and none of its tokens opens another target. -/
theorem Target.exists_tokens (receiver : String) (target : Target) :
    ∃ t u, target.tokens receiver = t :: u ∧ ∀ t' ∈ t :: u, isPlain t' = true ∧ t' ≠ .comma := by
  cases target <;> refine ⟨_, _, rfl, ?_⟩ <;>
    simp [isPlain, Token.isLayout, Token.isShift, Token.isOpener, Token.isCloser]

/-- No token of a list of targets is layout. -/
theorem isLayout_targetTokens : ∀ t ∈ targetTokens receiver targets, t.isLayout = false := by
  induction targets with
  | nil => exact nofun
  | cons target targets ih =>
    have htarget : ∀ t ∈ target.tokens receiver, t.isLayout = false := by
      obtain ⟨t, u, heq, hplain⟩ := target.exists_tokens receiver
      exact fun t' ht' => (isPlain_eq_true (hplain t' (heq ▸ ht')).1).1
    by_cases hne : targets = []
    · subst hne
      exact htarget
    · rw [targetTokens_cons hne]
      exact List.forall_mem_append.2 ⟨htarget, List.forall_mem_cons.2 ⟨rfl, ih⟩⟩

/-- The last of the targets, if there is one, is a name. -/
def EndsInName (targets : List Target) : Prop := ∀ field, targets.getLast? ≠ some (.field field)

/-- Behind the first of some targets, the last one is still no attribute. -/
theorem EndsInName.tail (h : EndsInName (target :: targets)) : EndsInName targets :=
  fun field hlast => h field (by rw [List.getLast?_cons, hlast]; rfl)

/-- Behind an attribute a name is still to come. -/
theorem EndsInName.ne_nil (h : EndsInName (.field field :: targets)) : targets ≠ [] := by
  rintro rfl
  exact h field rfl

/-! ### Targets that are found -/

/-- Where an attribute of the receiver is ahead, it is one more target. -/
theorem ends_receiverRound_field {Q : Round (List String) (Option (List String)) → Cursor → Prop}
    (hc : c.Stands o) (htokens : c.tokens = Target.tokens receiver (.field field) ++ ts)
    (hcomma : ∀ ts' c', ts = .comma :: ts' → Follows o c c' → c'.tokens = ts' →
      Q (.again (found ++ [field])) c')
    (hstop : ts.head? ≠ some .comma → ∀ c', Follows o c c' → c'.tokens = ts →
      Q (.stop (some (found ++ [field]))) c') :
    Ends w (receiverRound receiver found) o c Q := by
  have h₁ : c.advance.tokens = .dot :: .identifier field :: ts := tokens_advance htokens
  have h₂ : c.advance.advance.tokens = .identifier field :: ts := tokens_advance h₁
  have h₃ : c.advance.advance.advance.tokens = ts := tokens_advance h₂
  have hpass : Follows o c c.advance.advance.advance := hc.advanceBy 3
  simp only [receiverRound, ends_bind, ends_peek, ends_peekAt, advanceBy_one, advanceBy_two,
    next?_of_tokens htokens, next?_of_tokens h₁, next?_of_tokens h₂, beq_self_eq_true, ends_pass,
    advanceBy_three, ends_accept, ends_ite, ends_pure, ↓reduceIte, Bool.false_eq_true]
  refine ⟨fun hnext => ?_, fun hnext => ?_⟩
  · have htail := (h₃.symm.trans (tokens_eq_cons hnext))
    exact hcomma _ _ htail (hpass.trans hpass.stands.advance) rfl
  · exact hstop (by rwa [← h₃, head?_tokens]) _ hpass h₃

/-- **Attributes of the receiver are found as they stand**, if no comma is behind them. -/
theorem ends_receiverTargets_fields (hc : c.Stands o) (hne : fields ≠ [])
    (htokens : c.tokens = targetTokens receiver (fields.map .field) ++ t :: ts)
    (ht : t ≠ .comma) : Ends .accepted (receiverTargets receiver) o c fun found c' =>
      found = some fields ∧ Follows o c c' ∧ c'.tokens = t :: ts := by
  refine ends_rounds (I := fun _ found c' => Follows o c c' ∧ ∃ rest, rest ≠ [] ∧
    fields = found ++ rest ∧ c'.tokens = targetTokens receiver (rest.map .field) ++ t :: ts)
    (fun _ _ _ => trivial) ?_ ⟨Follows.refl hc, fields, hne, rfl, htokens⟩
  rintro k found c₁ ⟨h₁, rest, hrest, hfields, htokens₁⟩
  cases rest with
  | nil => exact absurd rfl hrest
  | cons field rest =>
    cases rest with
    | nil =>
      refine ends_receiverRound_field h₁.stands htokens₁ (fun ts' c' heq => ?_)
        fun _ c' hc' htokens' => ⟨by rw [hfields], h₁.trans hc', htokens'⟩
      exact absurd (List.cons.inj heq).1 ht
    | cons field' rest =>
      rw [List.map_cons, targetTokens_cons (by simp), List.append_assoc] at htokens₁
      refine ends_receiverRound_field h₁.stands htokens₁ (fun ts' c' heq hc' htokens' => ?_)
        fun hcomma => absurd rfl hcomma
      refine ⟨h₁.trans hc', field' :: rest, by simp, by simp [hfields], ?_⟩
      exact htokens'.trans (List.cons.inj heq).2.symm

/-- **Where a name is among the targets, none are found.** -/
theorem ends_receiverTargets_name (hc : c.Stands o) (hname : EndsInName before) (hne : before ≠ [])
    (hothers : others ≠ []) (htokens : c.tokens = targetTokens receiver (before ++ others) ++ ts) :
    Ends .any (receiverTargets receiver) o c fun found _ => found = none := by
  refine ends_repeatRounds_any (I := fun _ c' => c'.Stands o ∧ ∃ before, EndsInName before ∧
    before ≠ [] ∧ c'.tokens = targetTokens receiver (before ++ others) ++ ts) ?_
    ⟨hc, before, hname, hne, htokens⟩
  rintro found c₁ ⟨hc₁, before, hname, hne, htokens₁⟩
  cases before with
  | nil => exact absurd rfl hne
  | cons target before =>
    rw [List.cons_append, targetTokens_cons (by simp [hothers]), List.append_assoc] at htokens₁
    cases target with
    | name id =>
      have h₁ := next?_of_tokens (tokens_advance htokens₁)
      simp only [receiverRound, ends_bind, ends_peek, ends_peekAt, advanceBy_one, h₁]
      split
      · rename_i hdot _
        cases hdot
      · rfl
    | field id =>
      refine ends_receiverRound_field hc₁ htokens₁ (fun ts' c' heq hc' htokens' => ?_)
        fun hcomma => absurd rfl hcomma
      refine ⟨hc'.stands, before, hname.tail, hname.ne_nil, ?_⟩
      exact htokens'.trans (List.cons.inj heq).2.symm

/-! ### The value that is unpacked -/

/-- Wherever these tokens are ahead, from the place `c` on, there stands a display of `n` elements
that no equals sign follows. -/
def DisplaysAt (o : Origin) (c : Cursor) (behind : List Token) (n : Nat) : Prop :=
  ∀ c', Follows o c c' → c'.tokens = behind → ∃ e elements c'', expressionList o c' = .done e c'' ∧
    e.elements? = some elements ∧ elements.length = n ∧ c''.next? ≠ some .equals

/-- The bindings of the attributes to a display of `n` elements that stands where `behind` is
ahead. -/
def Unpacked (o : Origin) (c : Cursor) (behind : List Token) (n : Nat) (fields : List String)
    (bound : List Binding) : Prop :=
  ∃ e elements c' c'', Follows o c c' ∧ c'.tokens = behind ∧ expressionList o c' = .done e c'' ∧
    e.elements? = some elements ∧ elements.length = n ∧ bound.map (·.target) = fields ∧
      bound.map (·.value) = targetValues fields.length (some e)

/-- What is displayed wherever the tokens are ahead is displayed further on as well. -/
theorem DisplaysAt.of_follows (h : DisplaysAt o c behind n) (hc : Follows o c c') :
    DisplaysAt o c' behind n := fun c'' h'' => h c'' (hc.trans h'')

/-- What is unpacked behind a later place is unpacked behind the earlier one. -/
theorem Unpacked.of_follows {bound : List Binding} (h : Unpacked o c' behind n fields bound)
    (hc : Follows o c c') : Unpacked o c behind n fields bound := by
  obtain ⟨e, elements, c₁, c₂, h₁, hread⟩ := h
  exact ⟨e, elements, c₁, c₂, hc.trans h₁, hread⟩

section Values

variable {e : Expression} {elements : List Expression}

/-- As many targets as elements take the elements. -/
theorem targetValues_elements (h : e.elements? = some elements) (hcount : 2 ≤ elements.length) :
    targetValues elements.length (some e) = elements.map some := by
  unfold targetValues
  rw [if_neg (by omega), Option.bind_some, h]
  exact if_pos rfl

/-- One target takes the whole display, and any other number of them nothing that is known. -/
theorem targetValues_whole (h : e.elements? = some elements) (hcount : elements.length ≠ n) :
    targetValues n (some e) = if n = 1 then [some e] else List.replicate n none := by
  unfold targetValues
  rw [Option.bind_some, h]
  exact ite_eq_left_iff.2 fun _ => if_neg hcount

end Values

/-- Targets that are paired with as many values are bound to them, in order. -/
theorem ends_bindEach_map {typeHint : Option Expression} {targets : List String}
    {values : List (Option Expression)} (hlength : targets.length = values.length) :
    Ends w (bindEach typeHint start stop targets values) o c fun bound _ =>
      bound.map (·.target) = targets ∧ bound.map (·.value) = values := by
  induction targets generalizing values c with
  | nil =>
    obtain rfl := List.length_eq_zero_iff.1 hlength.symm
    exact ⟨rfl, rfl⟩
  | cons target targets ih =>
    cases values with
    | nil => cases hlength
    | cons value values =>
      simp only [bindEach, ends_bind, ends_makeSpan, ends_pure]
      refine (ih (Nat.succ.inj hlength)).mono ?_
      rintro bound c' ⟨htargets, hvalues⟩
      rw [List.map_cons, List.map_cons, htargets, hvalues]
      exact ⟨rfl, rfl⟩

/-- **Attributes of the receiver are bound to the display behind them.** -/
theorem ends_receiverBinding_fields (h : Follows o c₀ c) (hne : fields ≠ [])
    (htokens : c.tokens = targetTokens receiver (fields.map .field) ++ .equals :: behind)
    (hdisplay : DisplaysAt o c₀ behind n) :
    Ends .accepted (receiverBinding receiver) o c fun found _ =>
      ∃ bound, found = some bound ∧ Unpacked o c₀ behind n fields bound := by
  simp only [receiverBinding, ends_bind, ends_peekStart]
  refine (ends_receiverTargets_fields h.stands hne htokens (by simp)).mono ?_
  rintro _ c₁ ⟨rfl, h₁, htokens₁⟩
  have hequals := next?_of_tokens htokens₁
  have hbehind := tokens_advance htokens₁
  have hpass : Follows o c₀ c₁.advance := (h.trans h₁).trans h₁.stands.advance
  obtain ⟨e, elements, c₂, hlist, helements, hlength, hend⟩ := hdisplay _ hpass hbehind
  have hrounds : Ends .accepted (repeatRounds (chainRound (receiverFields receiver)) ([fields], e))
      o c₂ fun found _ => found = ([fields], e) := by
    refine ends_rounds (I := fun _ found c' => found = ([fields], e) ∧ c' = c₂)
      (fun _ _ _ => trivial) ?_ ⟨rfl, rfl⟩
    rintro k _ _ ⟨rfl, rfl⟩
    simp only [chainRound, ends_bind, ends_accept, ends_ite, ends_pure, afterRound_stop,
      ↓reduceIte, Bool.false_eq_true]
    exact ⟨fun hnext => absurd hnext hend, fun _ => trivial⟩
  simp only [receiverValues, chainedValue, ends_bind, ends_check, ends_ite, ends_accept, ends_pure,
    ends_lastStop, hequals, ↓reduceIte, Bool.false_eq_true]
  rw [if_neg (by simp)]
  refine ⟨fun _ => (ends_iff_of_done hlist).2 (hrounds.mono ?_), fun hnot => absurd rfl hnot⟩
  rintro _ c₃ rfl
  simp only [bindGroups, ends_bind, ends_pure]
  refine (ends_bindEach_map (length_targetValues _ _).symm).mono ?_
  rintro bound c₄ ⟨htargets, hvalues⟩
  refine ⟨bound ++ [], rfl, e, elements, _, c₂, hpass, hbehind, hlist, helements, hlength, ?_⟩
  rw [List.append_nil]
  exact ⟨htargets, hvalues⟩

/-! ### Steps through a line -/

/-- If brackets are counted through some tokens, the first of them can be counted. -/
theorem depth?_head {d b : Nat} (h : depth? d (t :: p) = some b) :
    depth? d [t] = some (Layout.depthAfter d t) := by
  unfold Layout.depthAfter
  cases hopener : t.isOpener with
  | true => exact depth?_opener hopener
  | false =>
    cases hcloser : t.isCloser with
    | false => exact depth?_other hopener hcloser
    | true =>
      cases d with
      | zero => rw [depth?_closer_zero hcloser] at h; cases h
      | succ d => exact depth?_closer hcloser

/-- Where no statement may begin, nothing is tried. -/
theorem ends_lineBinding_within {receiver : Option String}
    {Q : Option (List Binding) → Cursor → Prop} (h : (s.depth == 0 && s.atStatement) = false) :
    Ends w (lineBinding receiver s) o c Q ↔ Q none c := by
  cases receiver with
  | none => exact Iff.rfl
  | some r => rw [lineBinding, h]; exact Iff.rfl

/-- A step through a line goes behind a binding that is found, or behind the next token. -/
theorem ends_lineRound_of {receiver : Option String} {I : LineState → Cursor → Prop}
    {Q : List Binding → Cursor → Prop} (hc : c.Stands o) (htokens : c.tokens = t :: ts)
    (ht : t.isLayout = false)
    (h : Ends .any (lineBinding receiver s) o c fun found c' =>
      (∀ bound, found = some bound → I ⟨s.depth, false, s.found ++ bound⟩ c') ∧
        (found = none → ∀ c', Follows o c c' → c'.tokens = ts → I (s.pass t) c')) :
    Ends .any (lineRound receiver s) o c (AfterRound I Q) := by
  have hnext := next?_of_tokens htokens
  refine ends_lineRound.2 ⟨fun hnewline => absurd hnewline (next?_ne_of_isLayout hnext ht rfl),
    fun hshift => ?_, fun u hu _ => ?_⟩
  · have hlayout := (Bool.or_eq_false_iff.1 ht).2
    rw [hshift t hnext] at hlayout
    cases hlayout
  · obtain rfl := Option.some.inj (hnext.symm.trans hu)
    refine (((ends_lineBinding hc).of_safe trivial).and h).mono ?_
    rintro found c' ⟨hfound, hsome, hnone⟩
    refine ⟨hsome, fun hnothing => ?_⟩
    subst hnothing
    obtain ⟨made, rfl⟩ := hfound
    have hkept : Follows o c { c with made } := follows_made.2 (Follows.refl hc)
    exact hnone rfl _ (hkept.trans hkept.stands.advance)
      (tokens_advance (c := { c with made }) htokens)

/-- A line keeps the bindings that are found. -/
theorem ends_lineRound_found {receiver : Option String} :
    Ends .any (lineRound receiver s) o c
      (AfterRound (fun s' _ => s.found <+: s'.found) fun found _ => found = s.found) := by
  have hself := List.prefix_refl s.found
  exact ends_lineRound.2 ⟨fun _ => rfl, fun _ => rfl, fun _ _ _ => ends_any fun _ _ =>
    ⟨fun _ _ => List.prefix_append _ _, fun _ => hself⟩⟩

/-! ### Places of the line -/

/-- Behind the token, outside of brackets, a binding is tried. -/
def opensTarget (t : Token) : Bool := t == .colon || t == .semicolon || t == .comma

/-- The tokens do not end with an attribute of the receiver that is tried, so a colon behind them
is not that of a type hint; `tried` says whether a binding is tried in front of them. -/
def Unhinted (receiver : String) (tried : Bool) (p : List Token) : Prop :=
  ∀ before field, p = before ++ Target.tokens receiver (.field field) →
    (before.getLast?.map opensTarget).getD tried = false

/-- Tokens that end with no attribute that is tried end so when less is tried in front of them. -/
theorem Unhinted.of_le {tried tried' : Bool} (h : Unhinted receiver tried p)
    (htried : tried' = true → tried = true) : Unhinted receiver tried' p := by
  intro before field heq
  have hlast := h before field heq
  cases hb : before.getLast? with
  | some t => rwa [hb] at hlast
  | none =>
    rw [hb] at hlast
    exact Bool.eq_false_iff.2 fun h' => Bool.eq_false_iff.1 hlast (htried h')

/-- Behind the first token, a binding is tried if that token opens a target. -/
theorem Unhinted.tail {tried : Bool} (h : Unhinted receiver tried (t :: p)) :
    Unhinted receiver (opensTarget t) p := by
  intro before field heq
  have hlast := h (t :: before) field (by rw [heq, List.cons_append])
  rw [List.getLast?_cons] at hlast
  cases hb : before.getLast? with
  | some u => rwa [hb] at hlast
  | none => rwa [hb] at hlast

/-- An end of such tokens ends with no attribute that is tried, if none is tried in front of it. -/
theorem Unhinted.of_suffix {tried : Bool} (h : Unhinted receiver tried p) (hq : q <:+ p) :
    Unhinted receiver false q := by
  obtain ⟨passed, rfl⟩ := hq
  intro before field heq
  have hlast := h (passed ++ before) field (by rw [heq, List.append_assoc])
  rw [List.getLast?_append] at hlast
  cases hb : before.getLast? with
  | some t => rwa [hb] at hlast
  | none => rfl

/-- A place on a line from which the search comes to an assignment to the targets `before` and
then the attributes `fields`, with `behind` behind the equals sign. -/
inductive Nearing (o : Origin) (c₀ : Cursor) (receiver : String) (before : List Target)
    (fields : List String) (behind : List Token) : LineState → Cursor → Prop
  /-- Before the statement, on a stretch that a colon or a semicolon ends. -/
  | statement {s : LineState} {c : Cursor} {k : Nat} {p more : List Token} {sep : Token}
    (h : Follows o c₀ c) (hsep : sep = .colon ∨ sep = .semicolon)
    (hmore : more =
      sep :: (targetTokens receiver (before ++ fields.map .field) ++ .equals :: behind))
    (htokens : c.tokens = p ++ more) (hstretch : IsStretch False (k + s.depth) p more)
    (hhint : sep = .colon → Unhinted receiver s.atStatement p) :
    Nearing o c₀ receiver before fields behind s c
  /-- In front of a target, where a binding is tried. -/
  | target {s : LineState} {c : Cursor} {ahead : List Target} (h : Follows o c₀ c)
    (hdepth : s.depth = 0) (htried : s.atStatement = true) (hname : EndsInName ahead)
    (htokens : c.tokens = targetTokens receiver (ahead ++ fields.map .field) ++ .equals :: behind) :
    Nearing o c₀ receiver before fields behind s c
  /-- Inside of a target, in front of the comma behind it. -/
  | inside {s : LineState} {c : Cursor} {u : List Token} {ahead : List Target}
    (h : Follows o c₀ c) (hdepth : s.depth = 0) (htried : s.atStatement = false)
    (hu : ∀ t ∈ u, isPlain t = true ∧ t ≠ .comma) (hname : EndsInName ahead)
    (htokens : c.tokens = u ++
      .comma :: (targetTokens receiver (ahead ++ fields.map .field) ++ .equals :: behind)) :
    Nearing o c₀ receiver before fields behind s c

/-- A plain token other than a comma leads into a target or on in it. -/
theorem LineState.pass_plain (hdepth : s.depth = 0) (ht : isPlain t = true) (hcomma : t ≠ .comma) :
    s.pass t = ⟨0, false, s.found⟩ := by
  obtain ⟨_, hopener, hcloser⟩ := isPlain_eq_true ht
  have hcolon : t ≠ .colon := fun heq => by rw [heq] at ht; cases ht
  have hsemicolon : t ≠ .semicolon := fun heq => by rw [heq] at ht; cases ht
  simp [LineState.pass, Layout.depthAfter, hdepth, hopener, hcloser, hcolon, hsemicolon, hcomma]

/-- On a stretch a binding that is found is one of that stretch. -/
theorem ends_lineBinding_stretch (hc : c.Stands o) (htokens : c.tokens = p ++ more)
    (hstretch : IsStretch False (k + s.depth) p more)
    (hhint : more.head? = some .colon → Unhinted receiver s.atStatement p) :
    Ends .any (lineBinding (some receiver) s) o c fun found c' => ∀ bound, found = some bound →
      Follows o c c' ∧ ∃ k' p', p' <:+ p ∧ c'.tokens = p' ++ more ∧
        IsStretch False (k' + s.depth) p' more := by
  cases htried : s.depth == 0 && s.atStatement with
  | false => exact (ends_lineBinding_within htried).2 nofun
  | true =>
    rw [lineBinding, if_pos htried]
    obtain ⟨hdepth, hat⟩ := Bool.and_eq_true_iff.1 htried
    have hdepth : s.depth = 0 := by simpa using hdepth
    rw [hat] at hhint
    rw [hdepth] at hstretch ⊢
    refine ends_tentative (fun _ => nofun) ?_
    refine (((isBracketPath_balances False o more).ends_receiverBinding hc
      fun field c₁ h₁ heq hcolon => ?_).of_safe trivial).mono fun found c' h _ _ _ _ =>
        ⟨h.1.toFollows, h.1.isStretch htokens hstretch⟩
    -- the colon of a type hint is not the one that ends the stretch
    refine h₁.stands.balances_advance hcolon (fun hend _ => ?_) (depth?_other rfl rfl)
    rw [hend] at heq
    have hp : p = Target.tokens receiver (.field field) :=
      List.append_cancel_right (htokens.symm.trans heq)
    have hmore : more.head? = some .colon := by rw [← hend, head?_tokens, hcolon]
    have hlast := hhint hmore [] field hp
    cases hlast

section Assignment

variable (hne : fields ≠ [])

include hne

/-- Behind the statement's own targets, the attributes are tried as if they were all of them. -/
theorem ends_lineBinding_fields (hdisplay : DisplaysAt o c₀ behind n) (h : Follows o c₀ c)
    (hdepth : s.depth = 0) (htried : s.atStatement = true)
    (htokens : c.tokens = targetTokens receiver (fields.map .field) ++ .equals :: behind) :
    Ends .any (lineBinding (some receiver) s) o c fun found _ =>
      ∃ bound, found = some bound ∧ Unpacked o c₀ behind n fields bound := by
  rw [lineBinding, if_pos (by simp [hdepth, htried])]
  refine ends_tentative_of_accepted trivial ?_
  refine (ends_receiverBinding_fields h hne htokens hdisplay).mono fun found c' hfound => ?_
  obtain ⟨bound, rfl, hunpacked⟩ := hfound
  exact ⟨bound, rfl, bound, rfl, hunpacked⟩

/-- In front of a name that is still to come, nothing is found. -/
theorem ends_lineBinding_name (hc : c.Stands o) (hname : EndsInName targets)
    (htargets : targets ≠ [])
    (htokens : c.tokens = targetTokens receiver (targets ++ fields.map .field) ++ ts) :
    Ends .any (lineBinding (some receiver) s) o c fun found _ => found = none := by
  cases htried : s.depth == 0 && s.atStatement with
  | false => exact (ends_lineBinding_within htried).2 rfl
  | true =>
    rw [lineBinding, if_pos htried]
    refine ends_tentative (fun _ => rfl) ?_
    simp only [receiverBinding, ends_bind, ends_peekStart]
    refine (ends_receiverTargets_name hc hname htargets (by simpa using hne) htokens).mono ?_
    rintro _ c' rfl
    exact fun _ heq => by cases heq

/-- On the way to the assignment, or its attributes are recorded. -/
def Arriving (o : Origin) (c₀ : Cursor) (receiver : String) (before : List Target)
    (fields : List String) (behind : List Token) (n : Nat) (s : LineState) (c : Cursor) : Prop :=
  Nearing o c₀ receiver before fields behind s c ∨
    ∃ bound, Unpacked o c₀ behind n fields bound ∧ bound <:+: s.found

variable {Q : List Binding → Cursor → Prop}

omit hne in
/-- From a place in front of the statement, a round over the line leads nearer to the assignment. -/
theorem ends_lineRound_statement (hbefore : EndsInName before) (h : Follows o c₀ c)
    (hsep : sep = .colon ∨ sep = .semicolon)
    (hmore : more =
      sep :: (targetTokens receiver (before ++ fields.map .field) ++ .equals :: behind))
    (htokens : c.tokens = p ++ more) (hstretch : IsStretch False (k + s.depth) p more)
    (hhint : sep = .colon → Unhinted receiver s.atStatement p) :
    Ends .any (lineRound (some receiver) s) o c
      (AfterRound (Arriving o c₀ receiver before fields behind n) Q) := by
  have hfound : Ends .any (lineBinding (some receiver) s) o c fun found c' =>
      ∀ bound, found = some bound → Arriving o c₀ receiver before fields behind n
        ⟨s.depth, false, s.found ++ bound⟩ c' := by
    have hhead : more.head? = some sep := by rw [hmore]; rfl
    refine (ends_lineBinding_stretch h.stands htokens hstretch fun hcolon =>
      hhint (Option.some.inj (hhead.symm.trans hcolon))).mono fun found c' hfound bound hbound => ?_
    obtain ⟨hfollows, k', p', hp', htokens', hstretch'⟩ := hfound bound hbound
    exact .inl (.statement (h.trans hfollows) hsep hmore htokens' hstretch' fun heq =>
      (hhint heq).of_suffix hp')
  cases p with
  | nil =>
    rw [hmore, List.nil_append] at htokens
    have hclosed : k + s.depth = 0 := Option.some.inj hstretch.closes
    have hdepth : s.depth = 0 := by omega
    have hline : sep.isLayout = false := by rcases hsep with rfl | rfl <;> rfl
    have hpass : s.pass sep = ⟨0, true, s.found⟩ := by
      rw [LineState.pass, hdepth]
      rcases hsep with rfl | rfl <;> rfl
    refine ends_lineRound_of h.stands htokens hline (hfound.mono fun found c' hsome =>
      ⟨hsome, fun _ c₁ h₁ htokens₁ => .inl ?_⟩)
    rw [hpass]
    exact .target (h.trans h₁) rfl rfl hbefore htokens₁
  | cons t p =>
    -- where more brackets are open than are counted, there are so behind the token too
    have hdepth := depth?_head hstretch.closes
    obtain ⟨k', hk'⟩ := Nat.exists_eq_add_of_le'
      (depthAfter_mono (t := t) (Nat.le_add_left s.depth k))
    rw [hk'] at hdepth
    refine ends_lineRound_of h.stands htokens (hstretch.line t List.mem_cons_self)
      (hfound.mono fun found c' hsome => ⟨hsome, fun _ c₁ h₁ htokens₁ => .inl ?_⟩)
    have hbehind : IsStretch False (0 + (k' + Layout.depthAfter s.depth t)) p more :=
      IsStretch.behind (q := [t]) (by rwa [Nat.zero_add]) hdepth
    rw [Nat.zero_add] at hbehind
    refine .statement (h.trans h₁) hsep hmore htokens₁ hbehind fun heq =>
      (hhint heq).tail.of_le fun htried => ?_
    exact (Bool.and_eq_true_iff.1 htried).2

/-- From a place in front of the targets, a round leads to the next of them, or records the
attributes. -/
theorem ends_lineRound_target (hdisplay : DisplaysAt o c₀ behind n) (h : Follows o c₀ c)
    (hdepth : s.depth = 0) (htried : s.atStatement = true) (hname : EndsInName targets)
    (htokens :
      c.tokens = targetTokens receiver (targets ++ fields.map .field) ++ .equals :: behind) :
    Ends .any (lineRound (some receiver) s) o c
      (AfterRound (Arriving o c₀ receiver before fields behind n) Q) := by
  cases targets with
  | nil =>
    obtain ⟨field, fields', rfl⟩ := List.exists_cons_of_ne_nil hne
    obtain ⟨tail, htail⟩ := exists_targetTokens_cons receiver (.field field) (fields'.map .field)
    have hfirst : c.tokens = .identifier receiver ::
        (.dot :: .identifier field :: (tail ++ .equals :: behind)) := by
      rw [htokens, List.nil_append, List.map_cons, htail, List.append_assoc]
      rfl
    refine ends_lineRound_of h.stands hfirst rfl ?_
    refine (ends_lineBinding_fields hne hdisplay h hdepth htried htokens).mono ?_
    rintro _ c' ⟨bound, rfl, hunpacked⟩
    refine ⟨fun bound' heq => .inr ⟨bound, hunpacked, ?_⟩, nofun⟩
    rw [← Option.some.inj heq]
    exact (List.suffix_append s.found bound).isInfix
  | cons target targets =>
    have hnone := ends_lineBinding_name hne (s := s) h.stands hname (List.cons_ne_nil _ _) htokens
    rw [List.cons_append, targetTokens_cons (by simp [hne]), List.append_assoc] at htokens
    obtain ⟨t, u, ht, hu⟩ := target.exists_tokens receiver
    obtain ⟨⟨hplain, hcomma⟩, hu⟩ := List.forall_mem_cons.1 hu
    rw [ht] at htokens
    refine ends_lineRound_of h.stands htokens (isPlain_eq_true hplain).1 (hnone.mono ?_)
    rintro _ c' rfl
    refine ⟨nofun, fun _ c₁ h₁ htokens₁ => .inl ?_⟩
    rw [s.pass_plain hdepth hplain hcomma]
    exact .inside (h.trans h₁) rfl rfl hu hname.tail htokens₁

omit hne in
/-- From a place inside a target, a round leads nearer to the next of them. -/
theorem ends_lineRound_inside (h : Follows o c₀ c) (hdepth : s.depth = 0)
    (htried : s.atStatement = false) (hu : ∀ t ∈ u, isPlain t = true ∧ t ≠ .comma)
    (hname : EndsInName targets)
    (htokens : c.tokens = u ++
      .comma :: (targetTokens receiver (targets ++ fields.map .field) ++ .equals :: behind)) :
    Ends .any (lineRound (some receiver) s) o c
      (AfterRound (Arriving o c₀ receiver before fields behind n) Q) := by
  have hwithin : (s.depth == 0 && s.atStatement) = false := by rw [htried, Bool.and_false]
  cases u with
  | nil =>
    refine ends_lineRound_of h.stands htokens rfl
      ((ends_lineBinding_within hwithin).2 ⟨nofun, fun _ c₁ h₁ htokens₁ => .inl ?_⟩)
    have hpass : s.pass .comma = ⟨0, true, s.found⟩ := by
      rw [LineState.pass, hdepth]
      rfl
    rw [hpass]
    exact .target (h.trans h₁) rfl rfl hname htokens₁
  | cons t u =>
    obtain ⟨⟨hplain, hcomma⟩, hu⟩ := List.forall_mem_cons.1 hu
    refine ends_lineRound_of h.stands htokens (isPlain_eq_true hplain).1
      ((ends_lineBinding_within hwithin).2 ⟨nofun, fun _ c₁ h₁ htokens₁ => .inl ?_⟩)
    rw [s.pass_plain hdepth hplain hcomma]
    exact .inside (h.trans h₁) rfl rfl hu hname htokens₁

/-- **One step on the way to the assignment** leads on, or records its attributes. -/
theorem nearing_lineRound (hdisplay : DisplaysAt o c₀ behind n) (hbefore : EndsInName before)
    (h : Nearing o c₀ receiver before fields behind s c) :
    Ends .any (lineRound (some receiver) s) o c
      (AfterRound (Arriving o c₀ receiver before fields behind n) Q) := by
  cases h with
  | statement h hsep hmore htokens hstretch hhint =>
    exact ends_lineRound_statement hbefore h hsep hmore htokens hstretch hhint
  | target h hdepth htried hname htokens =>
    exact ends_lineRound_target hne hdisplay h hdepth htried hname htokens
  | inside h hdepth htried hu hname htokens =>
    exact ends_lineRound_inside h hdepth htried hu hname htokens

end Assignment

/-! ### Assignments on a line -/

/-- The tokens of a line before one of its statements: none, or they end with a semicolon or with
a colon, outside of brackets, and that is not the colon of a lambda or of a type hint. -/
inductive BeforeStatement (receiver : String) : List Token → Prop
  | first : BeforeStatement receiver []
  | semicolon {p : List Token} (h : IsStretch False 0 p [.semicolon]) :
    BeforeStatement receiver (p ++ [.semicolon])
  | colon {p : List Token} (h : IsStretch False 0 p [.colon]) (hhint : Unhinted receiver true p) :
    BeforeStatement receiver (p ++ [.colon])

/-- What is behind the token that ends a stretch does not matter to it. -/
theorem IsStretch.of_more {strict : Prop} {more' : List Token} (h : IsStretch strict k p more)
    (hmore : more'.head? = more.head?) : IsStretch strict k p more' where
  line := h.line
  closes := h.closes
  headers := h.headers
  bound := hmore ▸ h.bound
  colons := hmore ▸ h.colons

/-- Where a statement may begin on the line, the assignment is still to come. -/
theorem nearing_of_beforeStatement (hc : c.Stands o) (hbefore : EndsInName before)
    (hpre : BeforeStatement receiver pre)
    (htokens : c.tokens =
      pre ++ (targetTokens receiver (before ++ fields.map .field) ++ .equals :: behind)) :
    Nearing o c receiver before fields behind ⟨0, true, []⟩ c := by
  cases hpre with
  | first => exact .target (Follows.refl hc) rfl rfl hbefore htokens
  | semicolon h =>
    rw [List.append_assoc] at htokens
    exact .statement (Follows.refl hc) (.inr rfl) rfl htokens (h.of_more rfl) nofun
  | colon h hhint =>
    rw [List.append_assoc] at htokens
    exact .statement (Follows.refl hc) (.inl rfl) rfl htokens (h.of_more rfl) fun _ => hhint

/-- **The attributes behind the last name are unpacked.**  On the line at the place `c` an
assignment begins where a statement may begin, to the targets `before`, the last of which is a
name if there are any, and then to attributes of the receiver; its value is a display.  Among
the bindings of the line are then those of the attributes, in their order. -/
theorem ends_lineBindings_assignment (hc : c.Stands o) (hpre : BeforeStatement receiver pre)
    (hbefore : EndsInName before) (hne : fields ≠ [])
    (htokens : c.tokens =
      pre ++ (targetTokens receiver (before ++ fields.map .field) ++ .equals :: behind))
    (hdisplay : DisplaysAt o c behind n) :
    Ends .any (lineBindings (some receiver)) o c fun found _ =>
      ∃ bound, Unpacked o c behind n fields bound ∧ bound <:+: found := by
  refine ends_repeatRounds_any (I := Arriving o c receiver before fields behind n) ?_
    (.inl (nearing_of_beforeStatement hc hbefore hpre htokens))
  rintro s c' (hnearing | ⟨bound, hunpacked, hbound⟩)
  · exact nearing_lineRound hne hdisplay hbefore hnearing
  · refine ends_lineRound_found.mono fun r c'' hr => ?_
    cases r with
    | again s' => exact .inr ⟨bound, hunpacked, hbound.trans hr.isInfix⟩
    | stop found =>
      rw [afterRound_stop] at hr
      exact ⟨bound, hunpacked, hr ▸ hbound⟩

end Outline
end Lineage
