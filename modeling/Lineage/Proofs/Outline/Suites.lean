/-
# Indented suites are read to their ends

A definition is read inside the layout tree whatever its lines hold: every statement of a
class body begins and ends behind a line or inside one (`Amid`), also where a header ends
before its line does, and a block that no statement took refuses the class.  So a definition
whose suite is an indented block ends just behind the `dedent` of that block
(`ends_classSuite`, `ends_functionSuite`).  No step of an indented function body is one that a
reading refuses (`Accepts`), so a function is read once its block is entered
(`exists_functionDefinition`).
-/

import Lineage.Proofs.Outline.Blocks
import Lineage.Proofs.Source.Lines

namespace Lineage
namespace Outline

open Source LogicalLine Reading Cursor

variable {α : Type} {o : Origin} {w : Endings} {c c' : Cursor} {t : Token} {n : Nat}
  {V W : List Token → Prop} {ts us passed : List Token} {l : LogicalLine} {ls : List LogicalLine}

/-! ### Places of the tree -/

/-- Tokens that begin with a line, or with the end of a block. -/
structure Between (W : List Token → Prop) : Prop where
  unopened : ∀ us, W us → Unopened us
  inside : ∀ t us, W (t :: us) → t.isShift = false → Inside W (t :: us)

/-- Lines, and behind them the end of a block. -/
theorem between_of_lines (hV : ∀ ts, V ts → EndsBlock ts)
    (hW : ∀ us, W us ↔ ∃ block ts, us = tokensAll block ++ ts ∧ EveryAll IsLine block ∧ V ts) :
    Between W := by
  refine ⟨fun us hus => ?_, fun t us hus ht => ?_⟩
  · obtain ⟨block, ts, rfl, hblock, hts⟩ := (hW us).1 hus
    exact head?_tokensAll_append hblock (hV ts hts)
  · obtain ⟨block, ts, heq, hblock, hts⟩ := (hW _).1 hus
    cases block with
    | nil =>
      rw [tokensAll_nil, List.nil_append] at heq
      rw [hV ts hts t (heq ▸ rfl)] at ht
      cases ht
    | cons l block =>
      obtain ⟨hl, hblock⟩ := everyAll_cons.1 hblock
      rw [heq, tokensAll_cons, List.append_assoc]
      exact inside_of_line hl ((hW _).2 ⟨block, ts, rfl, hblock, hts⟩)

/-- In a block, what is ahead begins with a line or with the end of the block. -/
theorem between_within : Between (Within ts (n + 1)) := by
  refine between_of_lines (V := fun us => ∃ rest, us = .dedent :: rest ∧ Within ts n rest) ?_ ?_
  · rintro _ ⟨rest, rfl, _⟩
    exact endsBlock_dedent
  · refine fun us => ⟨?_, ?_⟩
    · rintro ⟨block, rest, rfl, hblock, hwithin⟩
      exact ⟨block, _, rfl, hblock, rest, rfl, hwithin⟩
    · rintro ⟨block, _, rfl, hblock, rest, rfl, hwithin⟩
      exact ⟨block, rest, rfl, hblock, hwithin⟩

/-- In a source, what is ahead begins with a line or with the end of a block. -/
theorem between_comes : Between (Comes n) := by
  cases n with
  | zero =>
    refine between_of_lines (V := fun us => us = []) (fun _ h => h ▸ endsBlock_nil)
      fun us => ⟨?_, ?_⟩
    · rintro ⟨ls, hls, rfl⟩
      exact ⟨ls, [], (List.append_nil _).symm, hls, rfl⟩
    · rintro ⟨ls, _, rfl, hls, rfl⟩
      exact ⟨ls, hls, List.append_nil _⟩
  | succ n =>
    refine between_of_lines (V := fun us => ∃ rest, us = .dedent :: rest ∧ Comes n rest) ?_ ?_
    · rintro _ ⟨rest, rfl, _⟩
      exact endsBlock_dedent
    · refine fun us => ⟨?_, ?_⟩
      · rintro ⟨ls, hls, block, rest, rfl, hblock, hwithin⟩
        exact ⟨block, _, rfl, hblock, rest, rfl, ls, hls, hwithin⟩
      · rintro ⟨block, _, rfl, hblock, rest, rfl, ls, hls, hwithin⟩
        exact ⟨ls, hls, block, rest, rfl, hblock, hwithin⟩

/-- Tokens behind a line or inside one. -/
def Amid (W : List Token → Prop) (ts : List Token) : Prop := Behind W ts ∨ Inside W ts

/-- A token that opens or closes no block stands inside a line. -/
theorem Amid.inside (h : Amid W (t :: us)) (hW : Between W) (ht : t.isShift = false) :
    Inside W (t :: us) := by
  rcases h with ⟨block, rest, heq, _, hrest⟩ | h
  · cases block with
    | nil =>
      rw [blockTokens_nil, List.nil_append] at heq
      exact heq ▸ hW.inside t us (heq ▸ hrest) ht
    | cons l block =>
      obtain ⟨rfl, _⟩ := List.cons.inj heq
      cases ht
  · exact h

/-- Where such a token is next, the place is inside a line. -/
theorem Amid.inside_of_next (h : Amid W c.tokens) (hW : Between W) (hnext : c.next? = some t)
    (ht : t.isShift = false) : Inside W c.tokens := by
  rw [tokens_eq_cons hnext] at h ⊢
  exact h.inside hW ht

/-- Where a block ends, no lines come first. -/
theorem eq_nil_of_endsBlock (hblock : EveryAll IsLine ls) (h : EndsBlock (tokensAll ls ++ ts)) :
    ls = [] := by
  cases ls with
  | nil => rfl
  | cons l ls => exact absurd h (not_endsBlock_tokensAll hblock)

/-- The end of a block is passed. -/
theorem comes_of_dedent (h : Comes n (.dedent :: us)) : ∃ m, Comes m us := by
  obtain ⟨ls, hls, hwithin⟩ := h
  cases n with
  | zero =>
    have heq : .dedent :: us = tokensAll ls ++ [] := hwithin.trans (List.append_nil _).symm
    obtain rfl := eq_nil_of_endsBlock hls (heq ▸ endsBlock_dedent)
    cases heq
  | succ n =>
    obtain ⟨block, rest, heq, hblock, hwithin⟩ := hwithin
    obtain rfl := eq_nil_of_endsBlock hblock (heq ▸ endsBlock_dedent)
    obtain ⟨_, rfl⟩ := List.cons.inj heq
    exact ⟨n, ls, hls, hwithin⟩

/-- A token is passed: on a line, or with it a block is entered or left. -/
theorem Amid.exists_tail (h : Amid (Comes n) (t :: us)) : ∃ m, Amid (Comes m) us := by
  have hin : Inside (Comes n) (t :: us) → ∃ m, Amid (Comes m) us := fun hin =>
    ⟨n, hin.tail.imp And.right And.right⟩
  rcases h with ⟨block, rest, heq, hblock, hcomes⟩ | h
  · cases block with
    | nil =>
      rw [blockTokens_nil, List.nil_append] at heq
      subst heq
      have hindent : t ≠ .indent := fun h => between_comes.unopened _ hcomes (congrArg some h)
      by_cases hdedent : t = .dedent
      · subst hdedent
        obtain ⟨m, hm⟩ := comes_of_dedent hcomes
        exact ⟨m, .inl (behind_of hm)⟩
      · exact hin (between_comes.inside t us hcomes (isShift_eq_false hindent hdedent))
    | cons l block =>
      obtain ⟨rfl, rfl⟩ := List.cons.inj heq
      obtain ⟨ls, hls, hwithin⟩ := hcomes
      exact ⟨n + 1, .inl (behind_of ⟨ls, hls, l :: block, rest, by simp, hblock, hwithin⟩)⟩
  · exact hin h

/-- **Every place in a source is one of its layout tree.** -/
theorem exists_amid (h : Amid (Comes n) (passed ++ ts)) : ∃ m, Amid (Comes m) ts := by
  induction passed generalizing n with
  | nil => exact ⟨n, h⟩
  | cons t passed ih =>
    obtain ⟨m, hm⟩ := h.exists_tail
    exact ih hm

/-- In a block something is always ahead: its end at least. -/
theorem not_amid_nil : ¬Amid (Within ts (n + 1)) [] := by
  rintro (hbehind | ⟨line, rest, heq, _⟩)
  · rcases hbehind.cases with ⟨_, heq, _⟩ | ⟨_, heq, _⟩ | ⟨_, _, heq, _⟩ <;> cases heq
  · simp at heq

/-- Behind the end of a block is what stands behind it. -/
theorem Amid.of_dedent (h : Amid (Within ts (n + 1)) (.dedent :: us)) : Within ts n us := by
  rcases h with hbehind | hin
  · rcases hbehind.cases with ⟨_, heq, _⟩ | ⟨rest, heq, hwithin⟩ | ⟨t, rest, heq, hline, _⟩
    · cases heq
    · exact (List.cons.inj heq).2 ▸ hwithin
    · rw [← (List.cons.inj heq).1] at hline
      cases hline
  · rcases hin.tail with ⟨hnewline, _⟩ | ⟨hline, _⟩
    · cases hnewline
    · cases hline

/-! ### Readings that keep to the tree -/

/-- A reading that begins on a line ends at a later place of the same tree. -/
def KeepsTree (o : Origin) (x : Reading α) : Prop :=
  ∀ W c, Between W → c.Stands o → Inside W c.tokens →
    Ends .any x o c fun _ c' => Follows o c c' ∧ Amid W c'.tokens

/-- A docstring ends at a place of the same tree. -/
theorem amid_docstring (hW : Between W) (hc : c.Stands o) (h : Amid W c.tokens) :
    Ends .any docstring o c fun _ c' => Follows o c c' ∧ Amid W c'.tokens := by
  refine ((ends_docstring hc).of_safe trivial).mono fun doc c' h' => ?_
  rcases h' with rfl | ⟨hpast, text, hnext⟩
  · exact ⟨Follows.refl hc, h⟩
  · exact ⟨hpast.toFollows, .inl (hpast.behind (h.inside_of_next hW hnext rfl)).1⟩

/-- A statement that is passed ends at a place of the same tree. -/
theorem amid_passStatement (hW : Between W) (hc : c.Stands o) (hin : Inside W c.tokens) :
    Ends .safe passStatement o c fun _ c' => Follows o c c' ∧ Amid W c'.tokens :=
  ((ends_passStatement hc).and (ends_passStatement_behind hc hW.unopened hin)).mono
    fun _ _ ⟨⟨_, hpast, hfollows⟩, _, hbehind⟩ => ⟨hpast.toFollows.trans hfollows, .inl hbehind⟩

/-- A definition begins with a token of a line. -/
theorem Amid.inside_of_definition (h : Amid W c.tokens) (hW : Between W)
    (hstart : c.StartsDefinition) : Inside W c.tokens := by
  obtain ⟨t, hnext, ht⟩ := hstart.exists_next?
  exact h.inside_of_next hW hnext ht

/-- Decorators are lines, and a definition begins behind them. -/
theorem amid_decorators (hW : Between W) (hc : c.Stands o) (h : Amid W c.tokens) :
    Ends .any decorators o c fun _ c' => Follows o c c' ∧ Inside W c'.tokens := by
  have hlines := ends_decorators (I := fun c => Amid W c.tokens) hc h fun h hat hpast =>
    .inl (hpast.behind (h.inside_of_next hW hat rfl)).1
  exact hlines.mono fun _ _ h' => ⟨h'.1, h'.2.1.inside_of_definition hW h'.2.2⟩

/-- A function ends at a place of the same tree. -/
theorem keepsTree_functionDefinition {ds : List Decorator} :
    KeepsTree o (functionDefinition ds) := by
  intro W c hW hc hin
  have hbehind : Ends .any (functionDefinition ds) o c fun _ c' => Behind W c'.tokens := by
    refine ends_functionDefinition hc trivial fun name receiver c₁ _ h₁ _ hafter => ?_
    exact (ends_functionBody h₁.stands hafter hW.unopened (h₁.inside hin)).mono
      fun r c' h f made _ => h.2
  have hpasses : Ends .safe (functionDefinition ds) o c fun _ c' => Passes o c c' :=
    settles_functionDefinition c hc (Nat.lt_succ_self _)
  exact ((hpasses.of_safe trivial).and hbehind).mono fun f c' h => ⟨h.1.toFollows, .inl h.2⟩

/-- The end of a statement is at a place of the same tree. -/
theorem amid_finishStatement (hW : Between W) (hc : c.Stands o) (hin : Inside W c.tokens) :
    Ends .safe finishStatement o c fun _ c' => Follows o c c' ∧ Amid W c'.tokens := by
  simp only [finishStatement, ends_bind, ends_accept, ends_ite, ends_pure, ↓reduceIte,
    Bool.false_eq_true]
  refine ⟨fun hsemicolon => ?_, fun _ => amid_passStatement hW hc hin⟩
  have hpass := hc.onLine_advance hsemicolon rfl
  refine ⟨fun hnewline => ?_, fun _ => ⟨hpass.toFollows, .inr (hpass.inside hin)⟩⟩
  have hpast := hpass.pastLine (hpass.stands.pastLine_newline hnewline)
  exact ⟨hpast.toFollows, .inl (hpast.behind hin).1⟩

/-- A binding of a class body ends at a place of the same tree. -/
theorem keepsTree_classBinding : KeepsTree o classBinding := by
  intro W c hW hc hin
  refine (ends_classBinding hc fun bound c₁ h₁ _ => ?_).of_safe trivial
  exact (amid_finishStatement hW h₁.stands (h₁.onLine.inside hin)).mono
    fun _ c' h => ⟨h₁.toFollows.trans h.1, h.2⟩

section Nested

variable {inner : List Decorator → Reading ClassOutline} {found : ClassBody}
  (hinner : ∀ ds, KeepsTree o (inner ds))

include hinner

/-- A member of a class body ends at a place of the same tree, if the classes in it do. -/
theorem keepsTree_memberDefinition {ds : List Decorator} :
    KeepsTree o (memberDefinition inner found ds) := fun W c hW hc hin =>
  ends_definitionOf.2 ⟨fun _ => hinner ds W c hW hc hin,
    fun _ => keepsTree_functionDefinition W c hW hc hin⟩

/-- A statement of a class body, wherever it begins, ends at a place of the tree. -/
theorem amid_classStatement (hW : Between W) (hc : c.Stands o) (h : Amid W c.tokens)
    (hnext : c.next? = some t) (ht : t ≠ .dedent) :
    Ends .any (classStatement inner found) o c fun _ c' => Follows o c c' ∧ Amid W c'.tokens := by
  rw [classStatement_eq]
  refine ends_statementOf.2 ⟨fun hnewline => ?_, fun _ => trivial, fun _ => ?_, fun hstart => ?_,
    fun hsimple => ?_⟩
  · have hpast := hc.pastLine_newline hnewline
    exact ⟨hpast.toFollows, .inl (hpast.behind (h.inside_of_next hW hnewline rfl)).1⟩
  · refine (amid_decorators hW hc h).mono fun ds c₁ h₁ => ?_
    exact (keepsTree_memberDefinition hinner W c₁ hW h₁.1.stands h₁.2).mono
      fun _ c' h' => ⟨h₁.1.trans h'.1, h'.2⟩
  · exact keepsTree_memberDefinition hinner W c hW hc (h.inside_of_definition hW hstart)
  · have hin := h.inside_of_next hW hnext
      (isShift_eq_false (fun h => hsimple.indent (h ▸ hnext)) ht)
    simp only [memberSimple, ends_bind, ends_ahead, ends_ite, ends_pure]
    split
    · exact keepsTree_classBinding W c hW hc hin
    · exact (amid_passStatement hW hc hin).of_safe trivial

/-- **An indented class body is read to the end of its block.** -/
theorem ends_indentedBody_within (hc : c.Stands o) (h : Amid (Within ts 1) c.tokens) :
    Ends .any (indentedBody inner found) o c fun _ c' => Follows o c c' ∧ c'.tokens = ts := by
  refine ends_repeatRounds_any (I := fun _ c' => Follows o c c' ∧ Amid (Within ts 1) c'.tokens) ?_
    ⟨Follows.refl hc, h⟩
  rintro found c₁ ⟨h₁, hamid⟩
  refine ends_indentedRound.2 ⟨fun hrest => ?_, fun hdedent => ?_, fun t hnext ht => ?_⟩
  · have hnil : c₁.tokens = [] := by rw [Cursor.tokens, hrest, List.map_nil]
    exact absurd (hnil ▸ hamid) not_amid_nil
  · refine ⟨h₁.trans h₁.stands.advance, ?_⟩
    exact Amid.of_dedent (tokens_eq_cons hdedent ▸ hamid)
  · exact (amid_classStatement hinner between_within h₁.stands hamid hnext ht).mono
      fun _ c' h' => ⟨h₁.trans h'.1, h'.2⟩

/-- A body on the line of its header ends at a place of the same tree. -/
theorem amid_inlineBody (hW : Between W) (hc : c.Stands o) (h : Amid W c.tokens) :
    Ends .any (inlineBody inner found) o c fun _ c' => Follows o c c' ∧ Amid W c'.tokens := by
  refine ends_repeatRounds_any (I := fun _ c' => Follows o c c' ∧ Amid W c'.tokens) ?_
    ⟨Follows.refl hc, h⟩
  rintro found c₁ ⟨h₁, hamid⟩
  exact ends_inlineRound.2 ⟨fun _ => ⟨h₁, hamid⟩, fun t _ hnext ht =>
    (amid_classStatement hinner hW h₁.stands hamid hnext ht).mono
      fun _ c' h' => ⟨h₁.trans h'.1, h'.2⟩⟩

/-- **An indented class body is read to the end of its block**, from behind the colon. -/
theorem ends_classSuite (hc : c.Stands o) (hnewline : c.next? = some .newline) (hW : Between W)
    (hin : Inside W c.tokens) :
    Ends .any (classBody inner) o c fun _ c' => Follows o c c' ∧ W c'.tokens ∧
      ∃ us, c.tokens = .newline :: .indent :: us ∧ Within c'.tokens 1 us := by
  refine (ends_classBody_block hnewline).2 ⟨fun hindent => ?_, fun _ => trivial⟩
  have hpast := (hc.pastLine_newline hnewline).behind hin
  have hpass := hc.advance.trans hc.advance.stands.advance
  obtain ⟨us, rest, htokens, hwithin, hrest⟩ :=
    exists_within hpast.1 hW.unopened (head?_tokens.trans hindent)
  have hus : c.advance.advance.tokens = us := tokens_advance htokens
  have hamid : Amid (Within rest 1) c.advance.advance.tokens := .inl (hus ▸ behind_of hwithin)
  refine (amid_docstring between_within hpass.stands hamid).mono fun doc c₁ h₁ => ?_
  refine (ends_indentedBody_within hinner h₁.1.stands h₁.2).mono fun found c₂ h₂ => ?_
  rw [h₂.2]
  have hsuite : c.tokens = .newline :: .indent :: us := by rw [tokens_eq_cons hnewline, htokens]
  exact ⟨(hpass.trans h₁.1).trans h₂.1, hrest, us, hsuite, hwithin⟩

/-- A class body ends at a place of the same tree. -/
theorem keepsTree_classBody : KeepsTree o (classBody inner) := by
  intro W c hW hc hin
  by_cases hnewline : c.next? = some .newline
  · exact (ends_classSuite hinner hc hnewline hW hin).mono fun r c' h =>
      ⟨h.1, .inl (behind_of h.2.1)⟩
  refine (ends_classBody_line hnewline).2 ?_
  refine (amid_docstring hW hc (.inr hin)).mono fun doc c₁ h₁ => ?_
  exact (amid_inlineBody hinner hW h₁.1.stands h₁.2).mono fun found c' h' => ⟨h₁.1.trans h'.1, h'.2⟩

/-- A class ends at a place of the same tree, if the classes in it do. -/
theorem keepsTree_classOver {ds : List Decorator} : KeepsTree o (classOver inner ds) := by
  intro W c hW hc hin
  refine ends_classOver hc trivial fun name c₁ _ _ h₁ hcolon => ?_
  have hpass := h₁.onLine.trans (h₁.stands.onLine_advance hcolon rfl)
  exact (keepsTree_classBody hinner W _ hW hpass.stands (hpass.inside hin)).mono
    fun r c' h k made _ _ _ => ⟨follows_made.2 (hpass.toFollows.trans h.1), h.2⟩

end Nested

/-- Classes nested up to any depth end at places of the same tree. -/
theorem keepsTree_classWithin (n : Nat) (ds : List Decorator) : KeepsTree o (classWithin n ds) := by
  induction n generalizing ds with
  | zero => exact fun _ _ _ _ _ => trivial
  | succ n ih => exact keepsTree_classOver ih

/-! ### Blocks -/

/-- Behind a colon at the place `c` stands an indented block, with the lexemes `body` in it and
its `dedent` just before the place `c'`. -/
structure HasBlock (c : Cursor) (body : List Lexeme) (c' : Cursor) : Prop where
  rest_eq : ∃ newline indent dedent, c.rest = newline :: indent :: (body ++ dedent :: c'.rest) ∧
    newline.token = .newline ∧ indent.token = .indent ∧ dedent.token = .dedent
  balanced : Balanced (body.map (·.token))

/-- What is read from an `indent` to the end of its block has the block between. -/
theorem exists_hasBlock (h : Follows o c c') (htokens : c.tokens = .newline :: .indent :: us)
    (hwithin : Within c'.tokens 1 us) : ∃ body, HasBlock c body c' := by
  obtain ⟨block, _, rfl, hblock, rfl⟩ := hwithin
  obtain ⟨newline, ls, hrest, hnewline, hls⟩ := List.map_eq_cons_iff.1 htokens
  obtain ⟨indent, ls, rfl, hindent, hls⟩ := List.map_eq_cons_iff.1 hls
  obtain ⟨body, ls, rfl, hbody, hls⟩ := List.map_eq_append_iff.1 hls
  obtain ⟨dedent, ls, rfl, hdedent, hls⟩ := List.map_eq_cons_iff.1 hls
  have hsame : ls = c'.rest := by
    have hlength := congrArg List.length hls
    rw [List.length_map, length_tokens] at hlength
    have hbehind : ls <:+ c.rest := ⟨newline :: indent :: (body ++ [dedent]), by simp [hrest]⟩
    have hsuffix := List.suffix_of_suffix_length_le hbehind h.rest (Nat.le_of_eq hlength)
    exact hsuffix.eq_of_length hlength
  refine ⟨body, ⟨newline, indent, dedent, by rw [hrest, hsame], hnewline, hindent, hdedent⟩, ?_⟩
  rw [hbody]
  exact balancedFrom_tokensAll block hblock

/-! ### Readings that are never refused -/

section Accepts

variable {β σ : Type} {x : Reading α} {f : α → Reading β}

/-- The reading is never refused, wherever it begins. -/
def Accepts (x : Reading α) : Prop := ∀ o c, Ends .accepted x o c fun _ _ => True

/-- A sequence is never refused if its parts never are. -/
theorem Accepts.bind (hx : Accepts x) (hf : ∀ a, Accepts (f a)) : Accepts (x >>= f) := by
  intro o c
  rw [ends_bind]
  exact (hx o c).mono fun a c' _ => hf a o c'

/-- A choice is never refused if neither of its readings is. -/
theorem Accepts.ite {p : Prop} [Decidable p] {y : Reading α} (hx : Accepts x) (hy : Accepts y) :
    Accepts (if p then x else y) := by
  split
  · exact hx
  · exact hy

/-- A value that is there at once is not refused. -/
theorem accepts_pure (a : α) : Accepts (pure a) := fun _ _ => trivial

/-- A value that must be there is a defect where it is missing, and no refusal. -/
theorem accepts_orFault (d : Defect) (a : Option α) : Accepts (orFault d a) := fun _ _ =>
  ends_orFault.2 ⟨fun _ _ => trivial, fun _ => trivial⟩

/-- A token that may be there is not refused. -/
theorem accepts_accept (t : Token) : Accepts (accept t) := fun _ _ =>
  ends_accept.2 ⟨fun _ => trivial, fun _ => trivial⟩

/-- A loop is never refused if its rounds never are. -/
theorem accepts_repeatRounds {step : σ → Reading (Round σ α)} (h : ∀ s, Accepts (step s)) (s : σ) :
    Accepts (repeatRounds step s) := fun o c =>
  ends_rounds (I := fun _ _ _ => True) (fun _ _ _ => trivial)
    (fun _ s c _ => (h s o c).mono fun r _ _ => by cases r <;> trivial) trivial

/-- A tentative reading is never refused: it goes back instead. -/
theorem accepts_tentative (x : Reading (Option α)) : Accepts (tentative x) := fun _ _ =>
  ends_tentative (fun _ => trivial) (ends_any fun _ _ _ _ => trivial)

/-- Passing a statement is never refused. -/
theorem accepts_passStatement : Accepts passStatement := by
  have hblock : Accepts passBlock :=
    .bind (fun _ _ => trivial) fun _ => .bind (accepts_orFault _ _) fun _ _ _ => trivial
  refine .bind (fun _ _ => trivial) fun ls => .bind (fun _ _ => trivial) fun _ => .ite ?_ ?_
  · exact .bind (fun _ _ => trivial) fun _ => .ite hblock (accepts_pure _)
  · exact accepts_pure _

/-- Passing string literals is never refused. -/
theorem accepts_passStrings (n : Nat) : Accepts (passStrings n) :=
  .bind (fun _ _ => trivial) fun _ => .bind (accepts_orFault _ _) fun _ =>
    .bind (fun _ _ => trivial) fun _ => accepts_pure _

/-- A docstring is never refused. -/
theorem accepts_docstring : Accepts docstring := by
  have hfound : ∀ n, Accepts (do
      let value ← passStrings n
      let _ ← accept .newline
      return some value) := fun n =>
    .bind (accepts_passStrings n) fun _ => .bind (accepts_accept _) fun _ => accepts_pure _
  intro o c
  simp only [docstring, ends_bind (x := ahead), ends_bind (x := peekAt _), ends_ahead, ends_peekAt]
  split <;> exact Accepts.ite (accepts_pure _) (hfound _) o c

/-- A binding in a line of a function body is never refused. -/
theorem accepts_lineBinding (receiver : Option String) (s : LineState) :
    Accepts (lineBinding receiver s) := by
  unfold lineBinding
  split
  · exact .ite (accepts_tentative _) (accepts_pure _)
  · exact accepts_pure _

/-- A round over a line is never refused. -/
theorem accepts_lineRound (receiver : Option String) (s : LineState) :
    Accepts (lineRound receiver s) := fun o c =>
  ends_lineRound.2 ⟨fun _ => trivial, fun _ => trivial, fun _ _ _ =>
    (accepts_lineBinding receiver s o c).mono fun _ _ _ => ⟨fun _ _ => trivial, fun _ => trivial⟩⟩

/-- The bindings of a line are never refused. -/
theorem accepts_lineBindings (receiver : Option String) : Accepts (lineBindings receiver) :=
  accepts_repeatRounds (accepts_lineRound receiver) _

/-- A round over a function body is never refused. -/
theorem accepts_bodyRound (receiver : Option String) (s : BodyState) :
    Accepts (bodyRound receiver s) := fun o c =>
  ends_bodyRound.2 ⟨fun _ => trivial, fun _ => trivial,
    fun _ => ⟨fun _ => trivial, fun _ => trivial, fun _ _ => trivial⟩, fun _ _ _ =>
      ⟨fun _ => (accepts_passStatement o c).mono fun _ _ _ => trivial,
        fun _ => (accepts_lineBindings receiver o c).mono fun _ _ _ => trivial⟩⟩

/-- **An indented function body is never refused**, whatever its tokens are. -/
theorem accepts_bodyBindings (receiver : Option String) : Accepts (bodyBindings receiver) :=
  accepts_repeatRounds (accepts_bodyRound receiver) _

end Accepts

/-- On the line of its header, or from the `indent` of its block on, a function is read. -/
theorem exists_functionBody (receiver : Option String) (hc : c.Stands o)
    (hindent : c.next? = some .newline → c.advance.next? = some .indent) :
    ∃ body c', functionBody receiver o c = .done body c' := by
  refine (settles_functionBody c hc (Nat.lt_succ_self _)).exists_done ?_
  by_cases hnewline : c.next? = some .newline
  · refine (ends_functionBody_block hnewline).2
      ⟨fun _ => ?_, fun hnot => absurd (hindent hnewline) hnot⟩
    exact (accepts_docstring o _).mono fun _ c₁ _ => (accepts_bodyBindings receiver o c₁).mono
      fun _ _ _ => trivial
  · refine (ends_functionBody_line hnewline).2 ?_
    refine (accepts_docstring o c).mono fun _ c₁ _ => ?_
    split
    · trivial
    · exact (accepts_lineBindings receiver o c₁).mono fun _ _ _ => trivial

/-- **Once its body is entered a function is read.** -/
theorem exists_functionDefinition (ds : List Decorator) {c₁ : Cursor}
    {header : Bool × String × List Parameter × Option Expression} (hc : c.Stands o)
    (hheader : functionHeader o c = .done header c₁)
    (hindent : c₁.next? = some .newline → c₁.advance.next? = some .indent) :
    ∃ f c', functionDefinition ds o c = .done f c' := by
  have h₁ := (ends_iff_of_done hheader).1 (ends_functionHeader hc)
  obtain ⟨body, c₂, hbody⟩ := exists_functionBody (receiverName? header.2.2.1) h₁.2.1.stands hindent
  refine (settles_functionDefinition c hc (Nat.lt_succ_self _)).exists_done ?_
  simp only [functionDefinition_eq, ends_bind, ends_peekStart, ends_iff_of_done hheader,
    ends_iff_of_done hbody, ends_spanFrom, ends_pure]

end Outline
end Lineage
