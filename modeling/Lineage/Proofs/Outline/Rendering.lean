/-
# What is read is faithful

Where tokens stand in the source and are spelled by it (`Cursor.At`), a reading renders a
value between its start and its end (`Renders`): the offsets are those of the next token at
the start, or any one before it, and of the last token that has been passed at the end.
What has been read before ends before what is read next starts, so the parts of an outline
lie in their places.  A loop renders a value if its rounds keep what they have found
(`ends_rendersLoop`).
-/

import Lineage.Proofs.Outline.Spans
import Lineage.Proofs.Outline.Definitions

namespace Lineage
namespace Outline

open Source Reading Text Cursor

variable {α σ : Type} {o : Origin} {c c' : Cursor} {t : Token} {lo lo' n start : Nat}

/-! ### Places -/

namespace Cursor

/-- The tokens ahead stand in the source, behind the offset, and are spelled by it. -/
structure At (o : Origin) (lo : Nat) (c : Cursor) : Prop where
  stands : c.Stands o
  spelled : ∀ l ∈ c.rest, Spelled o.text l
  le_place : lo ≤ (c.place o).start

/-- The next token of a place that follows is no earlier in the source. -/
theorem Follows.place_le (hc : c.Stands o) (h : Follows o c c') :
    (c.place o).start ≤ (c'.place o).start := by
  obtain ⟨passed, hpassed⟩ := h.rest
  cases passed with
  | nil =>
    have hsame : c'.place o = c.place o := by
      rw [place, place, ← hpassed, List.nil_append]
    exact Nat.le_of_eq (congrArg Extent.start hsame.symm)
  | cons l passed =>
    have hrest : c.rest = l :: (passed ++ c'.rest) := hpassed.symm
    have hplace : c.place o = l.extent := by rw [place, hrest]
    have hstop := hc.place.2.2.2
    rw [hplace] at hstop ⊢
    cases hrest' : c'.rest with
    | nil =>
      have hend : (c'.place o).start = o.size := by
        rw [place, hrest']
        rfl
      have hcut := hc.place.1
      rw [hplace] at hcut
      rw [hend]
      exact hcut.le_byteLength
    | cons l' rest =>
      have hplace' : c'.place o = l'.extent := by rw [place, hrest']
      have hnext : c.rest[passed.length + 1]? = some l' := by
        rw [hrest, hrest', List.getElem?_cons_succ, List.getElem?_append_right (Nat.le_refl _),
          Nat.sub_self]
        rfl
      have hbehind := (hc.getElem?_rest hnext).1
      rw [hplace] at hbehind
      rw [hplace']
      exact Nat.le_trans hstop hbehind

namespace At

/-- A place that follows one behind the offset is behind it as well. -/
theorem follows (hc : c.At o lo) (h : Follows o c c') : c'.At o lo :=
  ⟨h.stands, fun l hl => hc.spelled l (h.rest.subset hl),
    Nat.le_trans hc.le_place (h.place_le hc.stands)⟩

/-- Behind what has been passed, before what is ahead. -/
theorem of_le (hc : c.At o lo) (h : lo' ≤ c.lastStop) : c.At o lo' :=
  ⟨hc.stands, hc.spelled, Nat.le_trans h hc.stands.place.2.2.1⟩

/-- A place is behind the start of its own next token. -/
theorem self (hc : c.At o lo) : c.At o (c.place o).start := ⟨hc.stands, hc.spelled, Nat.le_refl _⟩

/-- A span from the next token to the last one that is passed. -/
theorem within (hc : c.At o lo) (h : Follows o c c') (hle : (c.place o).start ≤ c'.lastStop)
    (id : String) : Span.Within o.text lo c'.lastStop ⟨(c.place o).start, c'.lastStop, id⟩ :=
  ⟨hc.le_place, hle, Nat.le_refl _, hc.stands.place.1, h.stands.1⟩

/-- Passing a token that is no layout, its end is passed. -/
theorem place_start_le (hc : c.At o lo) (hnext : c.next? = some t) (ht : t.isLayout = false)
    (h : Follows o c.advance c') : (c.place o).start ≤ c'.lastStop :=
  Nat.le_trans (hc.stands.place.2.2.2)
    (Nat.le_trans (hc.stands.place_stop_le (n := 0) hnext ht) h.lastStop_le)

/-- The token ahead is spelled by the source up to its end. -/
theorem exists_slice (hc : c.At o lo) (hnext : c.next? = some t) (ht : t.isLayout = false) :
    ∃ cs, slice? o.text (c.place o).start c.advance.lastStop = some cs ∧ SpelledBy t cs := by
  obtain ⟨l, ls, hrest, rfl⟩ := next?_eq_some_iff.1 hnext
  obtain ⟨hstart, hstop, _, hle⟩ := hc.stands.place
  have hplace : c.place o = l.extent := by rw [place, hrest]
  rw [hplace] at hstart hstop hle ⊢
  rw [lastStop_advance hrest ht]
  obtain ⟨cs, hcs⟩ := Text.exists_slice? hstart hstop hle
  exact ⟨cs, hcs, hc.spelled l (hrest ▸ List.mem_cons_self) cs hcs⟩

end At
end Cursor

/-! ### Contracts -/

/-- The reading renders a value between its start and its end. -/
def Renders (o : Origin) (x : Reading α) (G : Nat → Nat → α → Prop) : Prop :=
  ∀ lo c, c.At o lo → Ends .any x o c fun a c' => Follows o c c' ∧ G lo c'.lastStop a

/-- The rounds of a loop keep what they have found, and render what they stop with. -/
def RendersRound (o : Origin) (step : σ → Reading (Round σ α)) (I : Nat → Nat → σ → Prop)
    (G : Nat → Nat → α → Prop) : Prop :=
  ∀ s lo c, c.At o lo → I lo c.lastStop s → Ends .any (step s) o c
    (AfterRound (fun s' c' => Follows o c c' ∧ I lo c'.lastStop s')
      fun a c' => Follows o c c' ∧ G lo c'.lastStop a)

/-- All of them are rendered. -/
def Each (G : Nat → Nat → α → Prop) (lo hi : Nat) (as : List α) : Prop := ∀ a ∈ as, G lo hi a

/-- What is rendered stays so when more is passed. -/
def Widens (G : Nat → Nat → α → Prop) : Prop :=
  ∀ {lo hi hi' a}, G lo hi a → hi ≤ hi' → G lo hi' a

variable {step : σ → Reading (Round σ α)} {I : Nat → Nat → σ → Prop} {G : Nat → Nat → α → Prop}
  {s : σ}

/-- **A loop renders a value if its rounds do.** -/
theorem ends_rendersLoop (h : RendersRound o step I G) (hc : c.At o lo)
    (hs : I lo c.lastStop s) :
    Ends .any (repeatRounds step s) o c fun a c' => Follows o c c' ∧ G lo c'.lastStop a := by
  refine ends_repeatRounds_any (I := fun s c' => Follows o c c' ∧ I lo c'.lastStop s)
    (fun s c' hI => ?_) ⟨Follows.refl hc.stands, hs⟩
  refine (h s lo c' (hc.follows hI.1) hI.2).mono fun r c'' hr => ?_
  cases r with
  | again s' => exact ⟨hI.1.trans hr.1, hr.2⟩
  | stop a => exact ⟨hI.1.trans hr.1, hr.2⟩

/-! ### Primary expressions -/

/-- What starts an expression is part of it. -/
theorem exists_looseLength?_succ {l : Lexeme} {ls : List Lexeme}
    (h : endsExpression l.token = false) (hn : looseLength? 0 false (l :: ls) = some n) :
    ∃ k, n = k + 1 := by
  have hline : l.token.isLayout = false := by
    cases ht : l.token <;> first | rfl | (rw [ht] at h; cases h)
  have hgrown : ∀ {k : Option Nat}, k.map (· + 1) = some n → ∃ k, n = k + 1 := by
    intro k hk
    obtain ⟨m, _, rfl⟩ := Option.map_eq_some_iff.1 hk
    exact ⟨m, rfl⟩
  unfold looseLength? at hn
  rw [if_neg (by simp [hline])] at hn
  simp only [h, Bool.false_eq_true, if_false] at hn
  split at hn
  · exact hgrown hn
  · split at hn
    · exact hgrown hn
    · split at hn
      · cases hn
      · exact hgrown hn

/-- An expression that is kept as text reads as the source does, from a start that is passed
or that is the start of its first token. -/
theorem renders_looseExpression (hc : c.At o lo) (hlo : lo ≤ start) (hcut : IsCut o.text start)
    (hstart : start ≤ c.lastStop ∨
      start = (c.place o).start ∧ ∃ t, c.next? = some t ∧ endsExpression t = false) :
    Ends .any (looseExpression start) o c fun e c' =>
      Follows o c c' ∧ e.Faithful o.text lo c'.lastStop := by
  simp only [looseExpression, ends_bind, ends_ahead, ends_orFault_any, ends_pass, ends_lastStop,
    ends_sourceText_any, ends_makeSpan, ends_pure, follows_made]
  intro n hn cs hcs
  have hfollows := hc.stands.advanceBy n
  have hle : start ≤ (c.advanceBy n).lastStop := by
    rcases hstart with hle | ⟨rfl, t, hnext, ht⟩
    · exact Nat.le_trans hle hfollows.lastStop_le
    · obtain ⟨l, ls, hrest, rfl⟩ := next?_eq_some_iff.1 hnext
      rw [hrest] at hn
      obtain ⟨k, rfl⟩ := exists_looseLength?_succ ht hn
      have hline : l.token.isLayout = false := by
        cases h : l.token <;> first | rfl | (rw [h] at ht; cases ht)
      exact hc.place_start_le hnext hline (hc.stands.advance.stands.advanceBy k)
  rw [Nat.max_eq_left hle] at hcs ⊢
  refine ⟨hfollows, Expression.faithful_leaf rfl
    ⟨hlo, hle, Nat.le_refl _, hcut, hfollows.stands.1⟩ ?_⟩
  rw [Expression.Quotes, String.toList_ofList]
  exact hcs

section Lists

variable {G : Nat → Nat → α → Prop} {as bs : List α} {a : α} {hi hi' : Nat}

/-- In an empty list all elements are rendered. -/
theorem each_nil : Each G lo hi [] := fun _ ha => nomatch ha

/-- Elements that are rendered stay so when more is passed. -/
theorem Each.widen (h : Each G lo hi as) (hG : Widens G) (hle : hi ≤ hi') : Each G lo hi' as :=
  fun a ha => hG (h a ha) hle

/-- Elements are rendered with those behind them. -/
theorem Each.append (h : Each G lo hi as) (hG : Widens G) (hle : hi ≤ hi')
    (hbs : Each G lo hi' bs) : Each G lo hi' (as ++ bs) := by
  intro a ha
  rcases List.mem_append.1 ha with ha | ha
  · exact hG (h a ha) hle
  · exact hbs a ha

/-- Elements are rendered with one more behind them. -/
theorem Each.concat (h : Each G lo hi as) (hG : Widens G) (hle : hi ≤ hi') (ha : G lo hi' a) :
    Each G lo hi' (as ++ [a]) :=
  h.append hG hle fun _ hb => List.mem_singleton.1 hb ▸ ha

/-- The rounds over items with commas between them render the items that they add. -/
theorem rendersRound_commaRound {item : Reading α} {ended : Reading Bool} (hG : Widens G)
    (hitem : Renders o item G) (hended : Looks ended) :
    RendersRound o (commaRound item ended) (Each G) (Each G) := by
  intro found lo c hc hfound
  simp only [commaRound, ends_bind, ends_accept, ends_ite, ends_pure, afterRound_stop,
    afterRound_again, ↓reduceIte, Bool.false_eq_true]
  refine ⟨fun _ => hended.ends fun last => ?_, fun _ => ⟨Follows.refl hc.stands, hfound⟩⟩
  have hpass := hc.stands.advance
  split
  · exact ⟨hpass, hfound.widen hG hpass.lastStop_le⟩
  · refine (hitem lo _ (hc.follows hpass)).mono ?_
    rintro a c' ⟨h, ha⟩
    exact ⟨hpass.trans h, hfound.concat hG (hpass.trans h).lastStop_le ha⟩

end Lists

/-- A faithful expression stays so when more is passed. -/
theorem widens_expression (text : List Char) : Widens (Expression.Faithful text) :=
  fun h hle => h.mono (Nat.le_refl _) hle

/-- The value of an argument is faithful. -/
def Argument.Faithful (text : List Char) (lo hi : Nat) (a : Argument Expression) : Prop :=
  a.value.Faithful text lo hi

/-- A faithful argument stays so when more is passed. -/
theorem widens_argument (text : List Char) : Widens (Argument.Faithful text) :=
  fun h hle => h.mono (Nat.le_refl _) hle

section Nested

variable {inner : Reading Expression} (hinner : Renders o inner (Expression.Faithful o.text))

include hinner

/-- The rounds over a tuple render the elements that they add. -/
theorem rendersRound_tupleRound : RendersRound o (tupleRound inner)
    (Each (Expression.Faithful o.text)) (Each (Expression.Faithful o.text)) := by
  rw [tupleRound_eq]
  exact rendersRound_commaRound (widens_expression _) hinner (looks_check _)

/-- What stands in round brackets is rendered, with the brackets. -/
theorem renders_parenthesized (hc : c.At o lo) (hnext : c.next? = some .openParen) :
    Ends .any (parenthesized inner (c.place o).start) o c fun e c' =>
      Follows o c c' ∧ e.Faithful o.text lo c'.lastStop := by
  have hopen := hc.stands.advance
  have hc₁ := hc.follows hopen
  simp only [parenthesized, ends_bind, ends_pass, advanceBy_one, ends_accept, ends_ite, ends_check,
    ends_spanFrom, ends_expect, ends_pure, Endings.refused_any, follows_made, implies_true,
    and_true, ↓reduceIte, Bool.false_eq_true]
  refine ⟨fun _ => ?_, fun _ => ?_⟩
  · have hclose := hopen.stands.advance
    have hstart := hc.place_start_le hnext rfl hclose
    exact ⟨hopen.trans hclose, Expression.faithful_display rfl
      (hc.within (hopen.trans hclose) hstart _) trivial (List.forall_mem_nil _)⟩
  · refine (hinner lo _ hc₁).mono ?_
    rintro first c' ⟨h, hfirst⟩
    have hclosed : ∀ {c''}, Follows o c.advance c'' → Follows o c c''.advance :=
      fun h => hopen.trans (h.trans h.stands.advance)
    split
    · have hone : Each (Expression.Faithful o.text) lo c'.lastStop [first] :=
        fun e he => List.mem_singleton.1 he ▸ hfirst
      refine (ends_rendersLoop (rendersRound_tupleRound hinner) (hc₁.follows h) hone).mono ?_
      rintro elements c'' ⟨h', helements⟩ _
      have hall := h.trans h'
      have hclose := hall.stands.advance
      have hstart := hc.place_start_le hnext rfl (hall.trans hclose)
      exact ⟨hclosed hall, Expression.faithful_display rfl (hc.within (hclosed hall) hstart _)
        trivial (helements.widen (widens_expression _) hclose.lastStop_le)⟩
    · exact fun _ => ⟨hclosed h, hfirst.mono (Nat.le_refl _) h.stands.advance.lastStop_le⟩

/-- The rounds over a list render the elements that they add. -/
theorem rendersRound_listRound : RendersRound o (listRound inner)
    (Each (Expression.Faithful o.text)) (Each (Expression.Faithful o.text)) := by
  intro elements lo c hc helements
  simp only [listRound, ends_bind, ends_accept, ends_ite, ends_check, ends_pure, afterRound_stop,
    afterRound_again, ↓reduceIte, Bool.false_eq_true]
  split
  · exact ⟨Follows.refl hc.stands, helements⟩
  · refine (hinner lo c hc).mono ?_
    rintro e c' ⟨h, he⟩
    have hmore := helements.concat (widens_expression _) h.lastStop_le he
    have hpass := h.stands.advance
    exact ⟨fun _ => ⟨h.trans hpass, hmore.widen (widens_expression _) hpass.lastStop_le⟩,
      fun _ => ⟨h, hmore⟩⟩

/-- What stands in square brackets is rendered, with the brackets. -/
theorem renders_bracketed (hc : c.At o lo) (hnext : c.next? = some .openBracket) :
    Ends .any (bracketed inner (c.place o).start) o c fun e c' =>
      Follows o c c' ∧ e.Faithful o.text lo c'.lastStop := by
  have hopen := hc.stands.advance
  simp only [bracketed, ends_bind, ends_pass, advanceBy_one, ends_spanFrom, ends_expect, ends_pure,
    Endings.refused_any, follows_made, implies_true, and_true]
  refine (ends_rendersLoop (rendersRound_listRound hinner) (hc.follows hopen) each_nil).mono ?_
  rintro elements c' ⟨h, helements⟩ _
  have hclose := h.stands.advance
  have hstart := hc.place_start_le hnext rfl (h.trans hclose)
  have hall := hopen.trans (h.trans hclose)
  exact ⟨hall, Expression.faithful_display rfl (hc.within hall hstart _) trivial
    (helements.widen (widens_expression _) hclose.lastStop_le)⟩

omit hinner in
/-- What stands in braces is rendered as its text, with the braces. -/
theorem renders_braced (hc : c.At o lo) (hnext : c.next? = some .openBrace) :
    Ends .any (braced (c.place o).start) o c fun e c' =>
      Follows o c c' ∧ e.Faithful o.text lo c'.lastStop := by
  simp only [braced, ends_bind]
  refine ((ends_passGroup hc.stands hnext rfl).of_safe trivial).mono
    fun between c' ⟨hreads, _, hstop, _⟩ => ?_
  simp only [ends_lastStop, ends_sourceText_any, ends_makeSpan, ends_pure, follows_made]
  intro cs hcs
  have hstart := Nat.le_trans hc.stands.place.2.2.2 hstop
  refine ⟨hreads.toFollows, Expression.faithful_leaf rfl (hc.within hreads.toFollows hstart _) ?_⟩
  rw [Expression.Quotes, String.toList_ofList]
  exact hcs

/-- A primary expression is faithful from its first token on. -/
theorem renders_primary : Renders o (primary inner) (Expression.Faithful o.text) := by
  intro lo c hc
  have hpass := hc.stands.advance
  simp only [primary, ends_bind, ends_peekStart, ends_peek]
  split
  · rename_i id hid
    simp only [ends_bind, ends_pass, advanceBy_one, ends_spanFrom, ends_pure, follows_made]
    have hstart := hc.place_start_le hid rfl (Follows.refl hpass.stands)
    obtain ⟨cs, hcs, rfl, hword⟩ := hc.exists_slice hid rfl
    refine ⟨hpass, Expression.faithful_leaf rfl (hc.within hpass hstart _) ?_⟩
    rw [Expression.Quotes, String.toList_ofList]
    exact ⟨hcs, hword⟩
  · rename_i literal hliteral
    simp only [ends_bind, ends_ahead, ends_spanFrom, ends_pure, follows_made]
    refine ((ends_passStrings hc.stands (Nat.le_refl _)).of_safe trivial).mono ?_
    rintro value c' ⟨hreads, hc'⟩
    obtain ⟨k, hk⟩ : ∃ k, stringCount c.rest = k + 1 := by
      obtain ⟨l, ls, hrest, hl⟩ := next?_eq_some_iff.1 hliteral
      exact ⟨stringCount ls, by simp [stringCount, hrest, hl, Token.isString]⟩
    have hstart : (c.place o).start ≤ c'.lastStop := by
      rw [hc', hk]
      exact hc.place_start_le hliteral rfl (hpass.stands.advanceBy k)
    exact ⟨hreads.toFollows,
      Expression.faithful_leaf rfl (hc.within hreads.toFollows hstart _) trivial⟩
  · rename_i value hvalue
    simp only [ends_bind, ends_pass, advanceBy_one, ends_spanFrom, ends_pure, follows_made]
    have hstart := hc.place_start_le hvalue rfl (Follows.refl hpass.stands)
    obtain ⟨cs, hcs, rfl⟩ := hc.exists_slice hvalue rfl
    refine ⟨hpass, Expression.faithful_leaf rfl (hc.within hpass hstart _) ?_⟩
    rw [Expression.Quotes, String.toList_ofList]
    exact hcs
  · exact renders_parenthesized hinner hc ‹_›
  · exact renders_bracketed hinner hc ‹_›
  · exact renders_braced hc ‹_›
  · trivial
  · rw [ends_ite]
    split
    · rw [ends_refuseNext]
      trivial
    · rename_i hends
      exact renders_looseExpression hc hc.le_place hc.stands.place.1
        (.inr ⟨rfl, _, ‹c.next? = some _›, by simpa using hends⟩)

/-! ### Chains -/

/-- An argument is rendered, with its name if it has one. -/
theorem renders_argument : Renders o (argument inner) (Argument.Faithful o.text) := by
  intro lo c hc
  simp only [argument, ends_bind]
  have hstars : Ends .any argumentStars o c fun _ c' => Follows o c c' := by
    simp only [argumentStars, ends_bind, ends_peek]
    split
    · exact hc.stands.advance
    · exact hc.stands.advance
    · exact Follows.refl hc.stands
  refine hstars.mono fun unpacking c₁ h₁ => ?_
  have hkeyword : Ends .any (argumentKeyword unpacking) o c₁ fun _ c' => Follows o c c' := by
    simp only [argumentKeyword, ends_bind, ends_peek, ends_peekAt, advanceBy_one]
    split
    · exact h₁.trans (h₁.stands.advanceBy 2)
    · exact h₁
  refine hkeyword.mono fun name c₂ h₂ => ?_
  refine (hinner lo c₂ (hc.follows h₂)).mono ?_
  rintro value c₃ ⟨h₃, hvalue⟩
  exact ⟨h₂.trans h₃, hvalue⟩

/-- The rounds over arguments render those that they add. -/
theorem rendersRound_argumentRound : RendersRound o (argumentRound inner)
    (Each (Argument.Faithful o.text)) (Each (Argument.Faithful o.text)) := by
  intro found lo c hc hfound
  simp only [argumentRound, ends_bind, ends_accept, ends_ite, ends_check, ends_pure, ends_atEnd,
    ends_peekStart, ends_refuse, Endings.refused_any, afterRound_stop, afterRound_again,
    ↓reduceIte, Bool.false_eq_true]
  split
  · exact ⟨Follows.refl hc.stands, hfound⟩
  · split
    · trivial
    · refine (renders_argument hinner lo c hc).mono ?_
      rintro a c' ⟨h, ha⟩
      have hmore := hfound.concat (widens_argument _) h.lastStop_le ha
      have hpass := h.stands.advance
      exact ⟨fun _ => ⟨h.trans hpass, hmore.widen (widens_argument _) hpass.lastStop_le⟩,
        fun _ => ⟨h, hmore⟩⟩

/-- Arguments are rendered. -/
theorem renders_arguments : Renders o (arguments inner) (Each (Argument.Faithful o.text)) := by
  intro lo c hc
  simp only [arguments, ends_bind, ends_expect, ends_pure, Endings.refused_any, implies_true,
    and_true]
  refine (ends_rendersLoop (rendersRound_argumentRound hinner) hc each_nil).mono ?_
  rintro found c' ⟨h, hfound⟩ _
  have hclose := h.stands.advance
  exact ⟨h.trans hclose, hfound.widen (widens_argument _) hclose.lastStop_le⟩

/-- A chain is faithful from its start on, with one more member, call or subscript too. -/
theorem rendersRound_postfixRound (hcut : IsCut o.text start) :
    RendersRound o (postfixRound inner start) (fun _ hi e => e.Faithful o.text start hi)
      fun _ hi e => e.Faithful o.text start hi := by
  intro e lo c hc he
  have hstart : start ≤ c.lastStop := he.within.le
  have hspan : ∀ {c'}, Follows o c c' → ∀ id,
      Span.Within o.text start c'.lastStop ⟨start, c'.lastStop, id⟩ := fun h _ =>
    ⟨Nat.le_refl _, Nat.le_trans hstart h.lastStop_le, Nat.le_refl _, hcut, h.stands.1⟩
  have hkept : ∀ {c'}, Follows o c c' → e.Faithful o.text start c'.lastStop :=
    fun h => he.mono (Nat.le_refl _) h.lastStop_le
  simp only [postfixRound, ends_bind, ends_peek]
  split
  · simp only [ends_bind, ends_peekAt, advanceBy_one]
    split
    · simp only [ends_bind, ends_pass, ends_spanFrom, ends_pure, afterRound_again, follows_made]
      have hpass := hc.stands.advanceBy 2
      exact ⟨hpass, Expression.faithful_member (hspan hpass _) (hkept hpass)⟩
    · exact ⟨Follows.refl hc.stands, he⟩
  · simp only [ends_bind, ends_pass, advanceBy_one, ends_spanFrom, ends_pure, afterRound_again,
      follows_made]
    have hpass := hc.stands.advance
    refine (renders_arguments hinner start _ ((hc.of_le hstart).follows hpass)).mono ?_
    rintro found c' ⟨h, hfound⟩
    have hall := hpass.trans h
    exact ⟨hall, Expression.faithful_call (hspan hall _) (hkept hall) hfound⟩
  · rename_i hopen
    simp only [ends_bind]
    refine ((ends_passGroup hc.stands hopen rfl).of_safe trivial).mono ?_
    rintro between c' ⟨hreads, _⟩
    simp only [ends_lastStop, ends_sourceText_any, ends_makeSpan, ends_pure, afterRound_again,
      follows_made]
    have hall := hreads.toFollows
    exact fun cs _ => ⟨hall, Expression.faithful_subscript (hspan hall _) (hkept hall)⟩
  · exact ⟨Follows.refl hc.stands, he⟩

/-- A chain is faithful from its first token on. -/
theorem renders_chain (hc : c.At o lo) : Ends .any (chain inner) o c fun e c' =>
    Follows o c c' ∧ e.Faithful o.text (c.place o).start c'.lastStop := by
  simp only [chain, ends_bind, ends_peekStart]
  refine (renders_primary hinner _ c hc.self).mono ?_
  rintro e c' ⟨h, he⟩
  refine (ends_rendersLoop (rendersRound_postfixRound hinner hc.stands.place.1) (hc.follows h)
    he).mono ?_
  rintro e' c'' ⟨h', he'⟩
  exact ⟨h.trans h', he'⟩

/-- An expression is rendered if those nested in it are. -/
theorem renders_expressionOver :
    Renders o (expressionOver inner) (Expression.Faithful o.text) := by
  intro lo c hc
  simp only [expressionOver, ends_bind, ends_peekStart, ends_check, ends_ite, ends_atExpressionEnd]
  split
  · rename_i hlambda
    exact renders_looseExpression hc hc.le_place hc.stands.place.1
      (.inr ⟨rfl, .lambdaKeyword, by simpa using hlambda, rfl⟩)
  · refine (renders_chain hinner hc).mono ?_
    rintro e c' ⟨h, he⟩
    split
    · exact ⟨h, he.mono hc.le_place (Nat.le_refl _)⟩
    · refine (renders_looseExpression (hc.follows h) hc.le_place hc.stands.place.1
        (.inl he.within.le)).mono ?_
      rintro e' c'' ⟨h', he'⟩
      exact ⟨h.trans h', he'⟩

end Nested

/-! ### Expressions -/

/-- Expressions nested up to any depth are rendered. -/
theorem renders_expressionWithin (n : Nat) :
    Renders o (expressionWithin n) (Expression.Faithful o.text) := by
  induction n with
  | zero => exact fun _ _ _ => trivial
  | succ n ih => exact renders_expressionOver ih

/-- **An expression is faithful.** -/
theorem renders_expression : Renders o expression (Expression.Faithful o.text) := fun lo c hc =>
  renders_expressionWithin (c.rest.length + 1) lo c hc

/-- The rounds over an expression list render the expressions that they add. -/
theorem rendersRound_expressionRound : RendersRound o expressionRound
    (Each (Expression.Faithful o.text)) (Each (Expression.Faithful o.text)) := by
  rw [expressionRound_eq]
  exact rendersRound_commaRound (widens_expression _) renders_expression looks_atExpressionEnd

/-- An expression list is rendered. -/
theorem renders_expressionList : Renders o expressionList (Expression.Faithful o.text) := by
  intro lo c hc
  simp only [expressionList, ends_bind, ends_peekStart, ends_check, ends_ite, ends_spanFrom,
    ends_pure, follows_made]
  refine (renders_expression _ c hc.self).mono ?_
  rintro first c' ⟨h, hfirst⟩
  have hstart : (c.place o).start ≤ c'.lastStop := hfirst.within.le
  have hlo : first.Faithful o.text lo c'.lastStop := hfirst.mono hc.le_place (Nat.le_refl _)
  split
  · have hone : Each (Expression.Faithful o.text) lo c'.lastStop [first] :=
      fun e he => List.mem_singleton.1 he ▸ hlo
    refine (ends_rendersLoop rendersRound_expressionRound (hc.follows h) hone).mono ?_
    rintro elements c'' ⟨h', helements⟩
    have hall := h.trans h'
    exact ⟨hall, Expression.faithful_display rfl
      (hc.within hall (Nat.le_trans hstart h'.lastStop_le) _) trivial helements⟩
  · exact ⟨h, hlo⟩

end Outline
end Lineage
