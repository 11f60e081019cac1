/-
# The outline is that of the layout tree

A body is read statement by statement, and between two of them the tokens ahead are at a
place of its layout tree: at a definition, in another statement, at the end of the lines,
or at a block that no statement took (`Stage`), where the reading is refused.  What is passed
over ends at such a place (`Stage.pastLine`, `stage_passStatement`), and a definition that is
read is the one of the tree (`stage_function`, `stage_class`), so every loop over
statements lists the definitions of its lines.
-/

import Lineage.Proofs.Outline.Blocks
import Lineage.Proofs.Outline.Mirror

namespace Lineage
namespace Outline

open Source LogicalLine Reading Cursor

/-- What is wanted of every line. -/
def Regular (line : List Token) : Prop := Conventional line ∧ FlatHeader line

/-- Whether a line is as it is wanted can be decided. -/
instance : DecidablePred Regular := fun _ => inferInstanceAs (Decidable (_ ∧ _))

variable {o : Origin} {c c' : Cursor} {t : Token} {ts us line : List Token}

/-! ### Places on a line -/

/-- Further on the same line, some of its tokens are ahead. -/
theorem Cursor.OnLine.exists_line (h : OnLine o c c') (htokens : c.tokens = line ++ .newline :: us)
    (hline : ∀ t ∈ line, t.isLayout = false) :
    ∃ passed line', line = passed ++ line' ∧ c'.tokens = line' ++ .newline :: us ∧
      c.tokens = passed ++ c'.tokens := by
  have hend : c'.lineEnd = .newline :: us := by
    rw [h.lineEnd, Cursor.lineEnd, htokens, List.dropWhile_append_of_pos
      fun t ht => by simp [hline t ht]]
    rfl
  have htokens' : c'.tokens = c'.tokens.takeWhile (!·.isLayout) ++ .newline :: us := by
    rw [← hend, Cursor.lineEnd, List.takeWhile_append_dropWhile]
  obtain ⟨passed, hpassed⟩ : c'.tokens <:+ c.tokens := by
    rw [Cursor.tokens, Cursor.tokens]
    exact h.rest.map _
  refine ⟨passed, _, ?_, htokens', hpassed.symm⟩
  rw [htokens, htokens', ← List.append_assoc] at hpassed
  exact (List.append_cancel_right hpassed).symm

/-- Behind the header of a class nothing is left on its line. -/
theorem tokens_behind_header (hc : c.tokens = line ++ .newline :: us)
    (hline : ∀ t ∈ line, t.isLayout = false) (hcolon : endsAtColon 0 line = true)
    (hflat : flatLambdas false line = true) (h : Reads o 0 0 c c')
    (hnext : c'.next? = some .colon) : c'.advance.tokens = .newline :: us := by
  obtain ⟨passed, line', hsplit, htokens', htokens⟩ := h.onLine.exists_line hc hline
  obtain ⟨passed', hpassed, _, hlowers⟩ := h.exists_passed
  obtain rfl : passed' = passed := List.append_cancel_right (hpassed.symm.trans htokens)
  rw [tokens_eq_cons hnext] at htokens'
  cases line' with
  | nil => cases (List.cons.inj htokens').1
  | cons t post =>
    obtain ⟨rfl, hpost⟩ := List.cons.inj htokens'
    rw [hsplit] at hcolon hflat
    rcases hlowers (flatLambdas_of_append hflat).1 with hlow | hhalts
    · have hdepth : depthFrom 0 passed' = 0 := Nat.le_zero.1 (hlow 0)
      rw [hpost, eq_nil_of_endsAtColon hcolon hdepth]
      rfl
    · cases hhalts _ hnext

/-! ### Stages -/

/-- The tokens are those of the lines, and then `end`. -/
def AtLines (Y : List Token) (ls : List LogicalLine) (ts : List Token) : Prop :=
  ts = tokensAll ls ++ Y

/-- In front of the lines no block is opened. -/
theorem unopened_atLines {Y : List Token} {ls : List LogicalLine} (h : EveryAll IsLine ls)
    (hY : EndsBlock Y) : ∀ ts, AtLines Y ls ts → Unopened ts := by
  rintro ts rfl
  exact head?_tokensAll_append h hY

/-- At the start of a line. -/
theorem inside_tokens {Y : List Token} {l : LogicalLine} {ls : List LogicalLine}
    (h : l.Every IsLine) : Inside (AtLines Y ls) (l.tokens ++ (tokensAll ls ++ Y)) :=
  inside_of_line h rfl

/-- In a statement that is no definition. -/
def InStatement (Y : List Token) (all : List LogicalLine) (ks : List ClassOutline)
    (fs : List FunctionOutline) (ts : List Token) : Prop :=
  ∃ done ls line us, all = done ++ ls ∧ ts = line ++ .newline :: us ∧
    (∀ t ∈ line, t.isLayout = false ∧ t.isHead = false) ∧ Behind (AtLines Y ls) us ∧
      Lists ks fs done

/-- Before a line. -/
def AtLine (Y : List Token) (all : List LogicalLine) (ks : List ClassOutline)
    (fs : List FunctionOutline) (l : LogicalLine) (ts : List Token) : Prop :=
  ∃ done ls, all = done ++ l :: ls ∧ ts = l.tokens ++ (tokensAll ls ++ Y) ∧ Lists ks fs done

/-- A place between statements or in one of them, when the lines are `all`, with `Y` behind
them, and the definitions among those that are passed have been listed. -/
inductive Stage (Y : List Token) (all : List LogicalLine) (ks : List ClassOutline)
    (fs : List FunctionOutline) (ts : List Token) : Prop
  /-- A block that belongs to no statement: the source is refused. -/
  | stray (h : ts.head? = some .indent)
  | finished (h : ts = Y) (hlists : Lists ks fs all)
  | definition (l : LogicalLine) (hl : l.isDefinition = true) (h : AtLine Y all ks fs l ts)
  | statement (h : InStatement Y all ks fs ts)

section Body

variable {Y : List Token} {all done ls : List LogicalLine} {ks : List ClassOutline}
  {fs : List FunctionOutline} {l : LogicalLine}
  (hlines : EveryAll IsLine all) (hregular : EveryAll Regular all) (hY : EndsBlock Y)

include hlines hregular

/-- Behind a statement begins the next one. -/
theorem stage_of_behind (hall : all = done ++ ls) (hbehind : Behind (AtLines Y ls) ts)
    (hlists : Lists ks fs done) : Stage Y all ks fs ts := by
  obtain ⟨block, us, rfl, _, rfl⟩ := hbehind
  cases block with
  | cons l block => exact .stray rfl
  | nil =>
    cases ls with
    | nil => exact .finished rfl (by rw [hall, List.append_nil]; exact hlists)
    | cons l ls =>
      rw [hall, everyAll_append, everyAll_cons] at hlines hregular
      obtain ⟨⟨_, hline⟩, hblock⟩ := every_iff.1 hlines.2.1
      have htokens : tokensAll (l :: ls) ++ Y = l.tokens ++ (tokensAll ls ++ Y) := by simp
      cases hl : l.isDefinition with
      | true => exact .definition l hl ⟨done, ls, hall, htokens, hlists⟩
      | false =>
        have hheads := isHead_eq_false hl (every_iff.1 hregular.2.1).1.1.keywords
        refine .statement ⟨done ++ [l], ls, l.line, blockTokens l.block ++ (tokensAll ls ++ Y),
          by rw [hall]; simp, ?_, fun t ht => ⟨hline t ht, hheads t ht⟩,
          ⟨l.block, _, rfl, hblock, rfl⟩, hlists.skip hl⟩
        rw [blockTokens_nil, List.nil_append, htokens, tokens_eq, List.append_assoc,
          List.cons_append]

omit hlines hregular in
/-- A statement stands inside one of the lines, behind those that have been listed. -/
theorem InStatement.inside (h : InStatement Y all ks fs ts) :
    ∃ done ls, all = done ++ ls ∧ Inside (AtLines Y ls) ts ∧ Lists ks fs done := by
  obtain ⟨done, ls, line, us, hall, htokens, hline, hbehind, hlists⟩ := h
  exact ⟨done, ls, hall, ⟨line, us, htokens, fun t ht => (hline t ht).1, hbehind⟩, hlists⟩

/-- Behind the line of a statement comes the next stage. -/
theorem InStatement.pastLine (h : InStatement Y all ks fs c.tokens) (hpast : PastLine o c c') :
    Stage Y all ks fs c'.tokens := by
  obtain ⟨done, ls, hall, hin, hlists⟩ := h.inside
  exact stage_of_behind hlines hregular hall (hpast.behind hin).1 hlists

omit hlines hregular in
/-- Further on its line, the statement goes on. -/
theorem InStatement.onLine (h : InStatement Y all ks fs c.tokens) (honline : OnLine o c c') :
    InStatement Y all ks fs c'.tokens := by
  obtain ⟨done, ls, line, us, hall, htokens, hline, hbehind, hlists⟩ := h
  obtain ⟨passed, line', rfl, htokens', _⟩ :=
    honline.exists_line htokens fun t ht => (hline t ht).1
  exact ⟨done, ls, line', us, hall, htokens',
    fun t ht => hline t (List.mem_append_right passed ht), hbehind, hlists⟩

omit hlines hregular in
/-- No definition begins in another statement. -/
theorem InStatement.not_definition (h : InStatement Y all ks fs c.tokens) :
    c.next? ≠ some .classKeyword ∧ c.startsFunction = false := by
  obtain ⟨_, _, line, us, _, htokens, hline, _⟩ := h
  have hhead : ∀ {c : Cursor} {t : Token} {line : List Token}, t.isHead = true →
      c.tokens = line ++ .newline :: us → (∀ t ∈ line, t.isLayout = false ∧ t.isHead = false) →
      c.next? ≠ some t := by
    intro c t line ht htokens hline hnext
    rw [tokens_eq_cons hnext] at htokens
    cases line with
    | nil =>
      obtain ⟨rfl, _⟩ := List.cons.inj htokens
      cases ht
    | cons u line =>
      obtain ⟨rfl, _⟩ := List.cons.inj htokens
      rw [(hline t List.mem_cons_self).2] at ht
      cases ht
  refine ⟨hhead rfl htokens hline, ?_⟩
  rw [Cursor.startsFunction, Bool.or_eq_false_iff, Bool.and_eq_false_iff]
  refine ⟨by simpa using hhead rfl htokens hline, ?_⟩
  by_cases hasync : c.next? = some .asyncKeyword
  · right
    rw [tokens_eq_cons hasync] at htokens
    cases line with
    | nil => cases (List.cons.inj htokens).1
    | cons u line =>
      obtain ⟨_, htokens⟩ := List.cons.inj htokens
      simpa using hhead rfl htokens fun t ht => hline t (List.mem_cons_of_mem _ ht)
  · left
    simpa using hasync

omit hregular in
/-- A place before a line begins as the line does. -/
theorem AtLine.starts (h : AtLine Y all ks fs l c.tokens) :
    (c.next? = some .classKeyword ↔ l.startsClass = true) ∧
      c.startsFunction = l.startsFunction := by
  obtain ⟨done, ls, rfl, htokens, _⟩ := h
  rw [everyAll_append, everyAll_cons] at hlines
  obtain ⟨t, line, hline⟩ := List.exists_cons_of_ne_nil (every_iff.1 hlines.2.1).1.1
  rw [tokens_eq, hline, List.append_assoc, List.cons_append] at htokens
  have hnext := next?_of_tokens htokens
  have hnext' := congrArg List.head? (tokens_advance htokens)
  rw [head?_tokens] at hnext'
  rw [LogicalLine.startsClass, LogicalLine.startsFunction, Cursor.startsFunction, hnext, hnext',
    hline]
  refine ⟨by simp, ?_⟩
  cases line with
  | nil => cases t <;> rfl
  | cons u line => cases t <;> cases u <;> rfl

include hY

omit hlines hregular in
/-- Where a token stands that is none of the layout's, there is a definition or a statement. -/
theorem Stage.cases_of_next (h : Stage Y all ks fs c.tokens) (hnext : c.next? = some t)
    (ht : t.isShift = false) :
    (∃ l, l.isDefinition = true ∧ AtLine Y all ks fs l c.tokens) ∨
      InStatement Y all ks fs c.tokens := by
  cases h with
  | stray h =>
    obtain rfl := Option.some.inj (hnext.symm.trans (head?_tokens ▸ h))
    cases ht
  | finished h _ =>
    rw [← head?_tokens, h] at hnext
    rw [hY t hnext] at ht
    cases ht
  | definition l hl h => exact .inl ⟨l, hl, h⟩
  | statement h => exact .inr h

omit hregular in
/-- If no definition begins there, it is a statement. -/
theorem Stage.inStatement (h : Stage Y all ks fs c.tokens) (hnext : c.next? = some t)
    (ht : t.isShift = false) (hclass : t ≠ .classKeyword) (hfunction : c.startsFunction = false) :
    InStatement Y all ks fs c.tokens := by
  rcases h.cases_of_next hY hnext ht with ⟨l, hl, h⟩ | h
  · have hstarts := h.starts hlines
    rw [isDefinition, ← hstarts.2, hfunction, Bool.or_false, ← hstarts.1, hnext] at hl
    exact absurd (Option.some.inj hl) hclass
  · exact h

/-- A line is passed that begins with a token of no definition. -/
theorem Stage.pastLine (h : Stage Y all ks fs c.tokens) (hnext : c.next? = some t)
    (ht : t.isShift = false) (hhead : t.isHead = false) (hasync : t ≠ .asyncKeyword)
    (hpast : PastLine o c c') : Stage Y all ks fs c'.tokens := by
  rw [Token.isHead, Bool.or_eq_false_iff, beq_eq_false_iff_ne, beq_eq_false_iff_ne] at hhead
  have hfunction : c.startsFunction = false := by
    simp [Cursor.startsFunction, hnext, hhead.2, hasync]
  exact (h.inStatement hlines hY hnext ht hhead.1 hfunction).pastLine hlines hregular hpast

/-- Documentation is one of the lines. -/
theorem stage_docstring (hc : c.Stands o) (h : Stage Y all ks fs c.tokens) :
    Ends .any docstring o c fun _ c' => c'.Stands o ∧ Stage Y all ks fs c'.tokens := by
  refine ((ends_docstring hc).of_safe trivial).mono fun doc c' h' => ?_
  rcases h' with rfl | ⟨hpast, text, hnext⟩
  · exact ⟨hc, h⟩
  · exact ⟨hpast.stands, h.pastLine hlines hregular hY hnext rfl rfl (by simp) hpast⟩

/-- **A statement that is passed over** is passed to its end, with the block under it. -/
theorem stage_passStatement (hc : c.Stands o) (h : InStatement Y all ks fs c.tokens) :
    Ends .safe passStatement o c fun _ c' => c'.Stands o ∧ Stage Y all ks fs c'.tokens := by
  obtain ⟨done, ls, hall, hin, hlists⟩ := h.inside
  have hunopened := unopened_atLines (everyAll_append.1 (hall ▸ hlines)).2 hY
  exact (ends_passStatement_behind hc hunopened hin).mono fun _ c' h =>
    ⟨h.1, stage_of_behind hlines hregular hall h.2 hlists⟩

/-- The end of a statement leads to the next stage. -/
theorem stage_finishStatement (hc : c.Stands o) (h : InStatement Y all ks fs c.tokens) :
    Ends .safe finishStatement o c fun _ c' => c'.Stands o ∧ Stage Y all ks fs c'.tokens := by
  simp only [finishStatement, ends_bind, ends_accept, ends_ite, ends_pure, ↓reduceIte,
    Bool.false_eq_true]
  refine ⟨fun hsemicolon => ?_, fun _ => stage_passStatement hlines hregular hY hc h⟩
  have hpass := hc.onLine_advance hsemicolon rfl
  have hbehind := h.onLine hpass
  refine ⟨fun hnewline => ?_, fun _ => ⟨hpass.stands, .statement hbehind⟩⟩
  have hpast := hpass.stands.pastLine_newline hnewline
  exact ⟨hpast.stands, hbehind.pastLine hlines hregular hpast⟩

/-- A binding of a class body leads to the next stage. -/
theorem stage_classBinding (hc : c.Stands o) (h : InStatement Y all ks fs c.tokens) :
    Ends .safe classBinding o c fun _ c' => c'.Stands o ∧ Stage Y all ks fs c'.tokens :=
  ends_classBinding hc fun _ _ h₁ _ =>
    stage_finishStatement hlines hregular hY h₁.stands (h.onLine h₁.onLine)

/-- Decorators lead to the definition that they belong to. -/
theorem stage_decorators (hc : c.Stands o) (h : Stage Y all ks fs c.tokens) :
    Ends .any decorators o c fun _ c' =>
      Follows o c c' ∧ Stage Y all ks fs c'.tokens ∧ c'.StartsDefinition :=
  ends_decorators hc h fun h hat hpast =>
    h.pastLine hlines hregular hY hat rfl rfl (by simp) hpast

omit hlines hregular hY in
/-- The function that is read has the name that its line defines. -/
theorem definedName?_of_namesFunction {name : String} (h : c.NamesFunction name) :
    definedName? c.tokens = some name := by
  rcases h with ⟨hdef, hname⟩ | ⟨hasync, hdef, hname⟩
  · rw [tokens_eq_cons hdef, tokens_eq_cons hname]
    rfl
  · rw [tokens_eq_cons hasync, tokens_eq_cons hdef, tokens_eq_cons hname]
    rfl

/-- **A function that is read is that of the tree.** -/
theorem stage_function {ds : List Decorator} (hc : c.Stands o)
    (h : AtLine Y all ks fs l c.tokens) (hl : l.startsFunction = true) :
    Ends .any (functionDefinition ds) o c fun f c' =>
      c'.Stands o ∧ Stage Y all ks (fs ++ [f]) c'.tokens := by
  obtain ⟨done, ls, hall, htokens, hlists⟩ := h
  have hmore := hlines
  rw [hall, everyAll_append, everyAll_cons] at hmore
  obtain ⟨_, hevery, hls⟩ := hmore
  have hin : Inside (AtLines Y ls) c.tokens := htokens ▸ inside_tokens hevery
  refine ends_functionDefinition hc trivial fun name receiver c₁ hnames honline _ hafter => ?_
  have hname : l.name? = some name := by
    rw [name?, ← definedName?_of_namesFunction hnames, htokens, definedName?_tokens_append]
  refine (ends_functionBody honline.stands hafter (unopened_atLines hls hY)
    (honline.inside hin)).mono fun r c' ⟨hstands, hbehind⟩ f made hf => ⟨hstands, ?_⟩
  have hlists' := hlists.addFunction hl (hf ▸ hname)
  exact stage_of_behind hlines hregular (by rw [hall, List.append_assoc]; rfl) hbehind hlists'

end Body

/-! ### Classes -/

/-- The reading of a class finds the class of the tree. -/
def Mirroring (o : Origin) (inner : List Decorator → Reading ClassOutline) : Prop :=
  ∀ ds c l X, c.Stands o → l.Every IsLine → l.Every Regular → l.startsClass = true → Unopened X →
    c.tokens = l.tokens ++ X →
    Ends .any (inner ds) o c fun k c' => c'.Stands o ∧ c'.tokens = X ∧ k.Mirrors l

section Body

variable {Y : List Token} {all : List LogicalLine} {ks : List ClassOutline}
  {fs : List FunctionOutline} {l : LogicalLine} {inner : List Decorator → Reading ClassOutline}
  {found : ClassBody} (hinner : Mirroring o inner)
  (hlines : EveryAll IsLine all) (hregular : EveryAll Regular all) (hY : EndsBlock Y)

include hlines hY

/-- Where a definition begins, there is one in the tree. -/
theorem Stage.atLine (h : Stage Y all ks fs c.tokens) (hstart : c.StartsDefinition) :
    ∃ l, AtLine Y all ks fs l c.tokens ∧
      (c.next? = some .classKeyword ↔ l.startsClass = true) ∧
      c.startsFunction = l.startsFunction := by
  obtain ⟨t, hnext, ht⟩ := hstart.exists_next?
  rcases h.cases_of_next hY hnext ht with ⟨l, _, h⟩ | h
  · exact ⟨l, h, h.starts hlines⟩
  · have hnone := h.not_definition
    exact absurd (hstart.resolve_right (by simp [hnone.2])) hnone.1

include hregular

omit hY in
/-- At the end of the tokens, or where a block ends, all lines have been listed. -/
theorem Stage.finished_of (h : Stage Y all ks fs c.tokens)
    (hnext : ∀ t, c.next? = some t → t = .dedent) : c.tokens = Y ∧ Lists ks fs all := by
  have hinside : ∀ {W : List Token → Prop}, ¬Inside W c.tokens := by
    rintro W ⟨line, us, htokens, hline, _⟩
    cases line with
    | nil => cases hnext .newline (next?_of_tokens htokens)
    | cons t line =>
      have ht := hline t List.mem_cons_self
      rw [hnext t (next?_of_tokens htokens)] at ht
      cases ht
  cases h with
  | stray h => cases hnext .indent (by rw [← head?_tokens, h])
  | finished h hlists => exact ⟨h, hlists⟩
  | definition l _ h =>
    obtain ⟨done, ls, rfl, htokens, _⟩ := h
    rw [everyAll_append, everyAll_cons] at hlines
    exact absurd (htokens ▸ inside_tokens hlines.2.1) hinside
  | statement h =>
    obtain ⟨_, _, _, hin, _⟩ := h.inside
    exact absurd hin hinside

include hinner

/-- **A class that is read is that of the tree.** -/
theorem stage_class {ds : List Decorator} (hc : c.Stands o) (h : AtLine Y all ks fs l c.tokens)
    (hl : l.startsClass = true) :
    Ends .any (inner ds) o c fun k c' => c'.Stands o ∧ Stage Y all (ks ++ [k]) fs c'.tokens := by
  obtain ⟨done, ls, hall, htokens, hlists⟩ := h
  have hmore := hlines
  have hmore' := hregular
  rw [hall, everyAll_append, everyAll_cons] at hmore hmore'
  refine (hinner ds c l _ hc hmore.2.1 hmore'.2.1 hl (head?_tokensAll_append hmore.2.2 hY)
    htokens).mono
    fun k c' ⟨hstands, htokens', hk⟩ => ⟨hstands, ?_⟩
  exact stage_of_behind hlines hregular (by rw [hall, List.append_assoc]; rfl)
    (behind_of htokens') (hlists.addClass hl hk)

section Scope

variable {σ : Type} {S : σ → List Token → Prop} {addClass : ClassOutline → σ}
  {addFunction : FunctionOutline → σ}
  (hclass : ∀ {k ts}, Stage Y all (ks ++ [k]) fs ts → S (addClass k) ts)
  (hfunction : ∀ {f ts}, Stage Y all ks (fs ++ [f]) ts → S (addFunction f) ts)

include hclass hfunction

/-- A definition leads behind its lines, and is listed. -/
theorem stage_definitionOf (ds : List Decorator) (hc : c.Stands o)
    (h : Stage Y all ks fs c.tokens) (hstart : c.StartsDefinition) :
    Ends .any (definitionOf inner addClass addFunction ds) o c fun s c' =>
      c'.Stands o ∧ S s c'.tokens := by
  obtain ⟨l, hline, hl, hl'⟩ := h.atLine hlines hY hstart
  refine ends_definitionOf.2 ⟨fun hnext => ?_, fun hnext => ?_⟩
  · exact (stage_class hinner hlines hregular hY hc hline (hl.1 hnext)).mono
      fun k c' h' => ⟨h'.1, hclass h'.2⟩
  · exact (stage_function hlines hregular hY hc hline (hl' ▸ hstart.resolve_left hnext)).mono
      fun f c' h' => ⟨h'.1, hfunction h'.2⟩

/-- A statement of a scope, wherever it begins, ends at a place of the tree if a simple one does. -/
theorem stage_statementOf {simple : Reading σ} {found : σ}
    (hfound : ∀ {ts}, Stage Y all ks fs ts → S found ts) (hc : c.Stands o)
    (h : Stage Y all ks fs c.tokens)
    (hsimple : c.StartsSimple → Ends .any simple o c fun s c' => c'.Stands o ∧ S s c'.tokens) :
    Ends .any (statementOf (definitionOf inner addClass addFunction) simple found) o c fun s c' =>
      c'.Stands o ∧ S s c'.tokens := by
  refine ends_statementOf.2 ⟨fun hnewline => ?_, fun _ => trivial, fun _ => ?_, fun hstart => ?_,
    hsimple⟩
  · have hpast := hc.pastLine_newline hnewline
    exact ⟨hpast.stands,
      hfound (h.pastLine hlines hregular hY hnewline rfl rfl (by simp) hpast)⟩
  · refine (stage_decorators hlines hregular hY hc h).mono ?_
    rintro ds c' ⟨hfollows, h', hstart⟩
    exact stage_definitionOf hinner hlines hregular hY hclass hfunction ds hfollows.stands h' hstart
  · exact stage_definitionOf hinner hlines hregular hY hclass hfunction [] hc h hstart

end Scope

/-- A statement of a class body, wherever it begins, ends at a place of the tree. -/
theorem stage_classStatement (hc : c.Stands o)
    (h : Stage Y all found.classes found.methods c.tokens) (hnext : c.next? = some t)
    (ht : t ≠ .dedent) :
    Ends .any (classStatement inner found) o c fun found' c' =>
      c'.Stands o ∧ Stage Y all found'.classes found'.methods c'.tokens := by
  rw [classStatement_eq, memberDefinition_eq]
  refine stage_statementOf (S := fun (b : ClassBody) ts => Stage Y all b.classes b.methods ts)
    hinner hlines hregular hY id id id hc h fun hsimple => ?_
  have hin := h.inStatement hlines hY hnext
    (isShift_eq_false (fun h => hsimple.indent (h ▸ hnext)) ht)
    (fun h => hsimple.classKeyword (h ▸ hnext)) hsimple.function
  simp only [memberSimple, ends_bind, ends_ahead, ends_ite, ends_pure]
  split
  · exact (stage_classBinding hlines hregular hY hc hin).of_safe trivial
  · exact (stage_passStatement hlines hregular hY hc hin).of_safe trivial

end Body

section Classes

variable {X : List Token} {block : List LogicalLine} {inner : List Decorator → Reading ClassOutline}
  (hinner : Mirroring o inner) (hlines : EveryAll IsLine block) (hregular : EveryAll Regular block)

include hinner hlines hregular

/-- The statements of a block are listed, and its `dedent` is passed. -/
theorem ends_indentedBody {found : ClassBody} (hc : c.Stands o)
    (h : Stage (.dedent :: X) block found.classes found.methods c.tokens) :
    Ends .any (indentedBody inner found) o c fun found' c' =>
      c'.Stands o ∧ c'.tokens = X ∧ Lists found'.classes found'.methods block := by
  refine ends_repeatRounds_any (I := fun found c => c.Stands o ∧
    Stage (.dedent :: X) block found.classes found.methods c.tokens) ?_ ⟨hc, h⟩
  rintro found c ⟨hc, h⟩
  refine ends_indentedRound.2 ⟨fun hrest => ?_, fun hdedent => ?_, fun t hnext ht => ?_⟩
  · obtain ⟨htokens, _⟩ := h.finished_of hlines hregular fun t ht => by
      simp [next?_eq_none_iff.2 hrest] at ht
    rw [Cursor.tokens, hrest] at htokens
    cases htokens
  · obtain ⟨htokens, hlists⟩ := h.finished_of hlines hregular fun u hu =>
      (Option.some.inj (hdedent.symm.trans hu)).symm
    exact ⟨hc.advance.stands, tokens_advance htokens, hlists⟩
  · exact stage_classStatement hinner hlines hregular endsBlock_dedent hc h hnext ht

/-- The body of a class whose header ends its line is the block under it. -/
theorem ends_classBody (hc : c.Stands o) (hX : Unopened X)
    (htokens : c.tokens = .newline :: (blockTokens block ++ X)) :
    Ends .any (classBody inner) o c fun r c' =>
      c'.Stands o ∧ c'.tokens = X ∧ Lists r.2.classes r.2.methods block := by
  refine (ends_classBody_block (next?_of_tokens htokens)).2 ⟨fun hindent => ?_, fun _ => trivial⟩
  have hblock := tokens_advance htokens
  cases block with
  | nil =>
    rw [blockTokens_nil, List.nil_append] at hblock
    exact absurd (hblock ▸ head?_tokens.trans hindent) hX
  | cons l ls =>
    have hpass := hc.advance.trans hc.advance.stands.advance
    rw [blockTokens_cons, List.cons_append] at hblock
    have hbody : c.advance.advance.tokens = tokensAll (l :: ls) ++ .dedent :: X := by
      rw [tokens_advance hblock, List.append_assoc]
      rfl
    have hstage : Stage (.dedent :: X) (l :: ls) [] [] c.advance.advance.tokens :=
      stage_of_behind hlines hregular rfl (behind_of hbody) lists_nil
    refine (stage_docstring hlines hregular endsBlock_dedent hpass.stands hstage).mono
      fun doc c₁ h₁ => ?_
    exact ends_indentedBody hinner hlines hregular h₁.1 h₁.2

omit hlines hregular in
/-- A class mirrors its line, if the classes in it do. -/
theorem mirroring_classOver : Mirroring o (classOver inner) := by
  intro ds c l X hc hl hregular hclass hX htokens
  obtain ⟨⟨_, hline⟩, hblock⟩ := every_iff.1 hl
  obtain ⟨⟨hconventional, hflat⟩, hregular⟩ := every_iff.1 hregular
  have hhead : l.line.head? = some .classKeyword := by simpa [LogicalLine.startsClass] using hclass
  have htokens' := htokens
  rw [tokens_eq, List.append_assoc, List.cons_append] at htokens'
  refine ends_classOver hc trivial fun name c₁ hnext hname h₁ hcolon => ?_
  have hbehind := tokens_behind_header htokens' hline (hconventional.header hhead) (hflat hhead) h₁
    hcolon
  refine (ends_classBody hinner hblock hregular (h₁.stands.advance).stands hX hbehind).mono ?_
  rintro r c' ⟨hstands, htokens', hlists⟩ k made hk hmethods hclasses
  refine ⟨hstands, htokens', ?_⟩
  rw [ClassOutline.mirrors_iff, hk, hmethods, hclasses]
  refine ⟨?_, hlists⟩
  rw [LogicalLine.name?, ← definedName?_tokens_append, ← htokens, tokens_eq_cons hnext,
    tokens_eq_cons hname]
  rfl

end Classes

/-- Classes nested up to any depth mirror their lines. -/
theorem mirroring_classWithin (n : Nat) : Mirroring o (classWithin n) := by
  induction n with
  | zero => exact fun _ _ _ _ _ _ _ _ _ _ => trivial
  | succ n ih => exact mirroring_classOver ih

/-- **A class that is read is that of the tree**, with the classes in it. -/
theorem mirroring_classDefinition : Mirroring o classDefinition := fun ds c =>
  mirroring_classWithin (c.rest.length + 1) ds c

/-! ### Modules -/

section Module

variable {all : List LogicalLine} {found : TopLevel}
  (hlines : EveryAll IsLine all) (hregular : EveryAll Regular all)

include hlines hregular

/-- A statement of a module leads to the next stage. -/
theorem stage_topStatement (hc : c.Stands o)
    (h : Stage [] all found.classes found.functions c.tokens) (hnext : c.next? = some t) :
    Ends .any (topStatement found) o c fun found' c' =>
      c'.Stands o ∧ Stage [] all found'.classes found'.functions c'.tokens := by
  rw [topStatement_eq, topDefinition_eq]
  refine stage_statementOf (S := fun (s : TopLevel) ts => Stage [] all s.classes s.functions ts)
    mirroring_classDefinition hlines hregular endsBlock_nil id id id hc h fun hsimple => ?_
  simp only [topSimple, ends_bind, ends_check, ends_ite, ends_pass, ends_pure, beq_iff_eq]
  split
  · rename_i hdedent
    obtain ⟨htokens, _⟩ := h.finished_of hlines hregular fun u hu =>
      (Option.some.inj (hdedent.symm.trans hu)).symm
    rw [tokens_eq_cons hdedent] at htokens
    cases htokens
  · rename_i hdedent
    have hin := h.inStatement hlines endsBlock_nil hnext
      (isShift_eq_false (fun h => hsimple.indent (h ▸ hnext)) fun h => hdedent (h ▸ hnext))
      (fun h => hsimple.classKeyword (h ▸ hnext)) hsimple.function
    exact (stage_passStatement hlines hregular endsBlock_nil hc hin).of_safe trivial

/-- **A module lists the definitions of its lines.** -/
theorem ends_moduleOutline (hc : c.Stands o) (htokens : c.tokens = tokensAll all) :
    Ends .any moduleOutline o c fun m _ => Lists m.classes m.functions all := by
  have hrounds : ∀ c : Cursor, c.Stands o → Stage [] all [] [] c.tokens →
      Ends .any (repeatRounds topRound ⟨[], []⟩) o c fun found _ =>
        Lists found.classes found.functions all := by
    intro c hc h
    refine ends_repeatRounds_any (I := fun found c => c.Stands o ∧
      Stage [] all found.classes found.functions c.tokens) ?_ ⟨hc, h⟩
    rintro found c ⟨hc, h⟩
    refine ends_topRound.2 ⟨fun hrest => ?_, fun t hnext => ?_⟩
    · exact (h.finished_of hlines hregular fun t ht => by
        simp [next?_eq_none_iff.2 hrest] at ht).2
    · exact stage_topStatement hlines hregular hc h hnext
  simp only [moduleOutline, ends_bind, ends_sourceSize, ends_makeSpan, ends_pure]
  have hbody : ∀ c : Cursor, c.Stands o → c.tokens = tokensAll all →
      Ends .any docstring o c fun _ c' => Ends .any (repeatRounds topRound ⟨[], []⟩) o c'
        fun found _ => Lists found.classes found.functions all := by
    intro c hc htokens
    have hstage : Stage [] all [] [] c.tokens := stage_of_behind hlines hregular rfl
      (behind_of (htokens.trans (List.append_nil _).symm)) lists_nil
    exact (stage_docstring hlines hregular endsBlock_nil hc hstage).mono fun doc c₁ h₁ =>
      hrounds c₁ h₁.1 h₁.2
  exact hbody { c with made := c.made + 1 } hc htokens

end Module

/-- **The outline of a source is that of its layout tree.**  Where definitions begin their lines,
class headers end theirs, and the lambdas in class headers have no brackets between their
parameters, a source that is not refused has an outline that lists just the definitions among
its lines, and each of its classes those of its own block. -/
theorem outline_lists_layoutTree {source path : String} {m : ModuleOutline}
    (h : parse source path = .outline m) :
    ∃ tokens ls, tokenize source = .ok tokens ∧
      (∀ ls', IsLayoutTree ls' (tokens.map (·.token)) ↔ ls' = ls) ∧
      (EveryAll Regular ls → Lists m.classes m.functions ls) := by
  unfold parse at h
  dsimp only at h
  split at h
  · cases h
  · rename_i tokens htokens
    obtain ⟨ls, hls⟩ := exists_layoutTree htokens
    refine ⟨tokens, ls, htokens,
      fun ls' => ⟨fun h' => layoutTree_unique h' hls, fun heq => heq ▸ hls⟩,
      fun hregular => ?_⟩
    have hmodule := ends_moduleOutline hls.lines hregular
      (stands_first (moduleId path) htokens) hls.tokens
    unfold Ends at hmodule
    split at h
    · rename_i hdone
      rw [hdone] at hmodule
      cases h
      exact hmodule
    · cases h
    · cases h

/-- An outline that a test finds is there, and passes the test. -/
theorem exists_outline (source path : String) (p : ModuleOutline → Bool)
    (h : (match parse source path with | .outline m => p m | _ => false) = true) :
    ∃ m, parse source path = .outline m ∧ p m = true := by
  split at h
  · exact ⟨_, ‹_›, h⟩
  · cases h

/-- A class in a class, and functions in it and behind it. -/
def nestedClasses : String := "class A:\n class B:\n  def f(): 0\ndef g(): 0\n"

/-- The lines of `nestedClasses`. -/
def nestedLines : List LogicalLine := [
  ⟨[.classKeyword, .identifier "A", .colon], [
    ⟨[.classKeyword, .identifier "B", .colon], [
      ⟨[.defKeyword, .identifier "f", .openParen, .closeParen, .colon, .number "0"], []⟩]⟩]⟩,
  ⟨[.defKeyword, .identifier "g", .openParen, .closeParen, .colon, .number "0"], []⟩]

/-- A class in a class and the functions beside it are listed as the lines have them. -/
theorem outline_lists_nestedLines :
    ∃ m, parse nestedClasses "" = .outline m ∧ Lists m.classes m.functions nestedLines := by
  obtain ⟨m, hm, _⟩ := exists_outline nestedClasses "" (fun _ => true) (by decide +kernel)
  obtain ⟨tokens, htokens, hnested⟩ := exists_tokens nestedClasses
    (fun ls => decide (ls.map (·.token) = tokensAll nestedLines)) (by decide +kernel)
  obtain ⟨tokens', ls, htokens', hunique, hlists⟩ := outline_lists_layoutTree hm
  obtain rfl : tokens = tokens' := Except.ok.inj (htokens.symm.trans htokens')
  obtain rfl := (hunique nestedLines).1 ⟨by decide +kernel, of_decide_eq_true hnested⟩
  exact ⟨m, hm, hlists (by decide +kernel)⟩

/-- A lambda between the parameters of a lambda, in a class header. -/
def lambdaInLambda : String := "class A(m=lambda a=(lambda: 0): a):\n def m(): 0\ndef g(): 0\n"

/-- The lines of `lambdaInLambda`. -/
def lambdaInLambdaLines : List LogicalLine := [
  ⟨[.classKeyword, .identifier "A", .openParen, .identifier "m", .equals, .lambdaKeyword,
      .identifier "a", .equals, .openParen, .lambdaKeyword, .colon, .number "0", .closeParen,
      .colon, .identifier "a", .closeParen, .colon], [
    ⟨[.defKeyword, .identifier "m", .openParen, .closeParen, .colon, .number "0"], []⟩]⟩,
  ⟨[.defKeyword, .identifier "g", .openParen, .closeParen, .colon, .number "0"], []⟩]

/-- The inner colon is taken for the end of the outer header, so the class header ends early,
and the function behind the class is lost. -/
theorem outline_loses_function : ∃ m tokens, parse lambdaInLambda "" = .outline m ∧
    tokenize lambdaInLambda = .ok tokens ∧
    IsLayoutTree lambdaInLambdaLines (tokens.map (·.token)) ∧
    EveryAll Conventional lambdaInLambdaLines ∧
    ¬Lists m.classes m.functions lambdaInLambdaLines := by
  obtain ⟨m, hm, hnone⟩ := exists_outline lambdaInLambda "" (·.functions.isEmpty)
    (by decide +kernel)
  obtain ⟨tokens, htokens, hlines⟩ := exists_tokens lambdaInLambda
    (fun ls => decide (ls.map (·.token) = tokensAll lambdaInLambdaLines)) (by decide +kernel)
  refine ⟨m, tokens, hm, htokens, ⟨by decide +kernel, of_decide_eq_true hlines⟩, by decide +kernel,
    fun hlists => ?_⟩
  have hfunctions := hlists.functions
  rw [List.isEmpty_iff.1 hnone] at hfunctions
  revert hfunctions
  decide +kernel

end Outline
end Lineage
