/-
# A line broken in two

Of two sources the second one has a line break where the first one has a semicolon
(`LineBreak`).  What is in front of it is the same stretch in both, and what is behind it is
another one (`Parallel`).  Two places with as many tokens ahead are abreast (`Abreast`): in front
of the break and behind it they are twins.

A reading that stays on its line keeps pace (`Abreast.keeps_line`), and so does one that passes a
statement, a block or a function (`keeps_passStatement`, `keeps_functionDefinition`): none of them
ends inside the line that is broken if it begins outside of it.
-/

import Lineage.Proofs.Outline.Attributes
import Lineage.Proofs.Outline.Scopes
import Mathlib.Data.List.DropRight

namespace Lineage
namespace Outline

open Source Reading Text Parallel Cursor

variable {α β γ σ τ : Type} {o o' : Origin} {c c' d d' : Cursor} {t : Token} {n k : Nat}
  {l l' : Lexeme} {ls ls' a a' : List Lexeme} {ts ts' : List Token}

/-! ### Tokens of both sources -/

/-- The same token, or a semicolon in the one source and a `newline` in the other. -/
def TwinToken (t t' : Token) : Prop := t' = t ∨ t = .semicolon ∧ t' = .newline

/-- The tokens of both sources ahead. -/
abbrev TwinTokens (ls ls' : List Lexeme) : Prop :=
  List.Forall₂ (fun l l' => TwinToken l.token l'.token) ls ls'

/-- Names up to an equals sign have no semicolon among them. -/
theorem listsTargets_twins : ∀ {ts ts' : List Token}, List.Forall₂ TwinToken ts ts' →
    listsTargets ts' = listsTargets ts
  | _, _, .nil => rfl
  | _, _, .cons (.inr ⟨rfl, rfl⟩) _ => rfl
  | [_], _, .cons (.inl rfl) .nil => rfl
  | t :: _, _, .cons (.inl rfl) (.cons (.inr ⟨rfl, rfl⟩) _) => by cases t <;> rfl
  | t :: u :: ts, _, .cons (.inl rfl) (.cons (.inl rfl) h) => by
    have ih := listsTargets_twins h
    cases t <;> try rfl
    cases u <;> first | rfl | exact ih

/-- Twin tokens start a binding in both sources or in neither. -/
theorem startsBinding_twins : ∀ {ts ts' : List Token}, List.Forall₂ TwinToken ts ts' →
    startsBinding ts' = startsBinding ts
  | _, _, .nil => rfl
  | _, _, .cons (.inr ⟨rfl, rfl⟩) _ => rfl
  | [_], _, .cons (.inl rfl) .nil => rfl
  | t :: _, _, .cons (.inl rfl) (.cons (.inr ⟨rfl, rfl⟩) _) => by cases t <;> rfl
  | t :: u :: ts, _, .cons (.inl rfl) (.cons (.inl rfl) h) => by
    have ih := listsTargets_twins h
    cases t <;> try rfl
    cases u <;> first | rfl | exact congrArg (_ && ·) ih

/-- A block is as long in both sources. -/
theorem blockLength?_twins (level : Nat) (h : TwinTokens ls ls') :
    blockLength? level ls' = blockLength? level ls := by
  induction h generalizing level with
  | nil => rfl
  | cons hl _ ih =>
    unfold blockLength?
    rcases hl with hl | ⟨hl, hl'⟩
    · simp only [hl, ih]
    · simp only [hl, hl', ih]
      rfl

/-- Behind a line that does not end with a `newline` nothing is left of it. -/
theorem Cursor.PastLine.pastLine (h : PastLine o c d) (hafter : d.afterNewline = false) {e : Cursor}
    (h' : PastLine o d e) : PastLine o c e := by
  refine ⟨h.toFollows.trans h'.toFollows, ?_⟩
  rcases h.past with ⟨_, htrue⟩ | ⟨hline, hnext⟩
  · rw [htrue] at hafter
    cases hafter
  · have hsame : d.lineEnd = d.tokens := by
      rw [lineEnd, ← hline]
      exact List.dropWhile_idempotent _ _
    rcases h'.past with ⟨hline', _⟩ | ⟨hline', hnext'⟩
    · exact absurd (next?_of_tokens (hsame.symm.trans hline')) hnext
    · exact .inr ⟨hline.trans (hsame.symm.trans hline'), hnext'⟩

/-- The end of a line is one place. -/
theorem Cursor.PastLine.length_eq (h : PastLine o c d) {e : Cursor} (h' : PastLine o c e) :
    d.rest.length = e.rest.length := by
  rw [← length_tokens, ← length_tokens]
  rcases h.past with ⟨hline, _⟩ | ⟨hline, hnext⟩ <;>
    rcases h'.past with ⟨hline', _⟩ | ⟨hline', hnext'⟩
  · rw [(List.cons.inj (hline.symm.trans hline')).2]
  · exact absurd (next?_of_tokens (hline'.symm.trans hline)) hnext'
  · exact absurd (next?_of_tokens (hline.symm.trans hline')) hnext
  · rw [hline.symm.trans hline']

/-! ### The break -/

/-- Two sources that are the same in front of a semicolon in the one and a `newline` in the other,
and the same behind them.  The semicolon stands in the line that begins with `line`. -/
structure LineBreak (o o' : Origin) where
  before : List Lexeme
  line : List Lexeme
  mark : Lexeme
  newline : Lexeme
  next : Lexeme
  next' : Lexeme
  after : List Lexeme
  after' : List Lexeme
  front : Parallel o o'
  back : Parallel o o'
  front_behind : front.behind = mark :: next :: after
  front_behind' : front.behind' = newline :: next' :: after'
  back_behind : back.behind = []
  back_behind' : back.behind' = []
  matched : List.Forall₂ front.Matched (before ++ line) (before ++ line)
  matched_behind : List.Forall₂ back.Matched (next :: after) (next' :: after')
  semicolon : mark.token = .semicolon
  newline_token : newline.token = .newline
  mark_stop : mark.extent.stop ≤ back.n
  front_stop : front.n' + front.width ≤ back.n'
  begins : LineBegins before
  line_ne : line ≠ []
  inLine : ∀ l ∈ line, l.token.isLayout = false
  next_line : next.token.isLayout = false
  opens : opensScope ((line ++ mark :: next :: after).map (·.token)) = false
  opens_next : opensScope ((next :: after).map (·.token)) = false
  read : tokenizeChars o.text = .ok (before ++ (line ++ mark :: next :: after))
  read' : tokenizeChars o'.text = .ok (before ++ (line ++ newline :: next' :: after'))

namespace LineBreak

variable (B : LineBreak o o')

/-- The tokens of the one source from the line on. -/
def fromLine : List Lexeme := B.line ++ B.mark :: B.next :: B.after

/-- The tokens of the one source. -/
def tokens : List Lexeme := B.before ++ B.fromLine

/-- The tokens of the other source. -/
def tokens' : List Lexeme := B.before ++ (B.line ++ B.newline :: B.next' :: B.after')

/-- Two places are abreast if as many tokens are ahead of the one as of the other. -/
structure Abreast (c c' : Cursor) : Prop where
  reaches : Reaches (.first B.tokens) c
  reaches' : Reaches (.first B.tokens') c'
  length_eq : c.rest.length = c'.rest.length

variable {B}

/-- The line, with what stands behind the break. -/
theorem length_fromLine (B : LineBreak o o') :
    B.fromLine.length = B.line.length + (B.after.length + 2) := by
  rw [fromLine, List.length_append, List.length_cons, List.length_cons]

/-- The line has tokens in front of the semicolon. -/
theorem line_pos (B : LineBreak o o') : 0 < B.line.length := List.length_pos_iff.2 B.line_ne

/-- At first the same stretch is ahead of both. -/
theorem twins_first (B : LineBreak o o') :
    B.front.Twins (.first B.tokens) (.first B.tokens') where
  ahead := ⟨B.before ++ B.line, B.before ++ B.line, by
    rw [B.front_behind, List.append_assoc]
    rfl, by
    rw [B.front_behind', List.append_assoc]
    rfl, B.matched⟩
  lastStop := .inr ⟨Nat.zero_le _, Nat.zero_le _⟩

/-- Behind the break another stretch is ahead of both. -/
theorem twins_back (h : B.front.Twins c c') (hrest : c.rest = B.front.behind) :
    B.back.Twins c.advance c'.advance := by
  obtain ⟨a, a', ha, ha', hmatched⟩ := h.ahead
  obtain rfl : a = [] := List.append_left_eq_self.1 (ha.symm.trans hrest)
  cases hmatched
  rw [List.nil_append, B.front_behind] at ha
  rw [List.nil_append, B.front_behind'] at ha'
  refine ⟨⟨B.next :: B.after, B.next' :: B.after', ?_, ?_, B.matched_behind⟩, .inr ⟨?_, ?_⟩⟩
  · rw [rest_advance, ha, B.back_behind, List.append_nil]
    rfl
  · rw [rest_advance, ha', B.back_behind', List.append_nil]
    rfl
  · rw [lastStop_advance ha (by rw [B.semicolon]; rfl)]
    exact B.mark_stop
  · have hstop : c'.advance.lastStop = c'.lastStop := by
      rw [Cursor.advance, ha']
      exact if_pos (by rw [B.newline_token]; rfl)
    rw [hstop]
    refine Nat.le_trans ?_ B.front_stop
    rcases h.lastStop with ⟨m, hm, _, hm'⟩ | ⟨_, hle⟩ <;> omega

end LineBreak

/-! ### Places abreast -/

/-- Where no token is ahead, none is passed. -/
theorem advanceBy_nil (h : c.rest = []) (n : Nat) : c.advanceBy n = c := by
  induction n with
  | zero => rfl
  | succ n ih =>
    have hadvance : c.advance = c := by rw [Cursor.advance, h]
    rw [advanceBy, hadvance, ih]

/-- No more tokens are passed than there are. -/
theorem Reaches.exists_le (h : Reaches c c') :
    ∃ n ≤ c.rest.length, ∃ m, c' = { c.advanceBy n with made := m } := by
  obtain ⟨n, m, rfl⟩ := h
  rcases Nat.le_total n c.rest.length with hle | hle
  · exact ⟨n, hle, m, rfl⟩
  · refine ⟨c.rest.length, Nat.le_refl _, m, ?_⟩
    have hend : (c.advanceBy c.rest.length).rest = [] := by
      rw [rest_advanceBy, List.drop_length]
    obtain ⟨j, rfl⟩ := Nat.exists_eq_add_of_le hle
    rw [advanceBy_add, advanceBy_nil hend]

/-- A place that is reached and has fewer tokens ahead is behind the next token. -/
theorem Reaches.exists_succ (h : Reaches c c') (hlt : c'.rest.length < c.rest.length) :
    ∃ n m, c' = { c.advanceBy (n + 1) with made := m } := by
  obtain ⟨n, m, rfl⟩ := h
  cases n with
  | zero => exact absurd hlt (Nat.lt_irrefl _)
  | succ n => exact ⟨n, m, rfl⟩

/-- A place that is reached by passing tokens follows. -/
theorem Reaches.follows (h : Reaches c c') (hc : c.Stands o) : Follows o c c' := by
  obtain ⟨n, m, rfl⟩ := h
  exact follows_made.2 (hc.advanceBy n)

namespace LineBreak

variable {B : LineBreak o o'}

/-- The sources begin abreast. -/
theorem abreast_first (B : LineBreak o o') : B.Abreast (.first B.tokens) (.first B.tokens') :=
  ⟨.refl _, .refl _, B.twins_first.length_eq⟩

/-- At the beginning of the line, the line is ahead. -/
theorem rest_eq_fromLine (h : Reaches (.first B.tokens) c)
    (hlength : c.rest.length = B.fromLine.length) : c.rest = B.fromLine :=
  (List.suffix_of_suffix_length_le h.suffix (List.suffix_append B.before B.fromLine)
    (Nat.le_of_eq hlength)).eq_of_length hlength

/-- The line begins no definition, nor the decorators of one. -/
theorem opensScope_eq_false (h : Reaches (.first B.tokens) c)
    (hlength : c.rest.length = B.fromLine.length) : opensScope c.tokens = false := by
  rw [Cursor.tokens, rest_eq_fromLine h hlength]
  exact B.opens

/-- A place in front of the break is on the stretch in front of it. -/
theorem behind_suffix (h : Reaches (.first B.tokens) c)
    (hlength : B.after.length + 1 < c.rest.length) : B.front.behind <:+ c.rest := by
  have hbehind : B.front.behind <:+ B.tokens := by
    rw [B.front_behind]
    exact (List.suffix_append _ _).trans (List.suffix_append _ _)
  refine List.suffix_of_suffix_length_le hbehind h.suffix ?_
  rw [B.front_behind, List.length_cons, List.length_cons]
  exact hlength

namespace Abreast

/-- A place abreast follows the start of its source. -/
theorem follows (h : B.Abreast c c') : Follows o (.first B.tokens) c :=
  h.reaches.follows (stands_first o.module B.read)

/-- The other place follows the start of the other source. -/
theorem follows' (h : B.Abreast c c') : Follows o' (.first B.tokens') c' :=
  h.reaches'.follows (stands_first o'.module B.read')

/-- A place abreast stands in its source. -/
theorem stands (h : B.Abreast c c') : c.Stands o := h.follows.stands

/-- The other place stands in the other source. -/
theorem stands' (h : B.Abreast c c') : c'.Stands o' := h.follows'.stands

/-- Places abreast stay so if as many tokens are ahead of the ones reached from them. -/
theorem trans (h : B.Abreast c c') (hd : Reaches c d) (hd' : Reaches c' d')
    (hlength : d.rest.length = d'.rest.length) : B.Abreast d d' :=
  ⟨h.reaches.trans hd, h.reaches'.trans hd', hlength⟩

/-- Places abreast stay so when both pass as many tokens. -/
theorem advanceBy (h : B.Abreast c c') (n : Nat) : B.Abreast (c.advanceBy n) (c'.advanceBy n) := by
  refine h.trans (reaches_advanceBy n c) (reaches_advanceBy n c') ?_
  rw [rest_advanceBy, rest_advanceBy, List.length_drop, List.length_drop, h.length_eq]

/-- Places abreast stay so when both pass a token. -/
theorem advance (h : B.Abreast c c') : B.Abreast c.advance c'.advance := h.advanceBy 1

/-- The counters of the spans do not matter for being abreast. -/
theorem made (h : B.Abreast c c') (m m' : Nat) :
    B.Abreast { c with made := m } { c' with made := m' } :=
  h.trans ⟨0, m, rfl⟩ ⟨0, m', rfl⟩ h.length_eq

/-- Places abreast are as many tokens behind the first one. -/
theorem exists_advanceBy (h : B.Abreast c c') : ∃ n ≤ B.tokens.length, ∃ m m',
    c = { (Cursor.first B.tokens).advanceBy n with made := m } ∧
      c' = { (Cursor.first B.tokens').advanceBy n with made := m' } := by
  obtain ⟨n, hn, m, rfl⟩ := h.reaches.exists_le
  obtain ⟨n', hn', m', rfl⟩ := h.reaches'.exists_le
  have hlength : B.tokens.length = B.tokens'.length := B.abreast_first.length_eq
  have heq := h.length_eq
  dsimp only at heq
  rw [rest_advanceBy, rest_advanceBy, List.length_drop, List.length_drop] at heq
  change n ≤ B.tokens.length at hn
  change n' ≤ B.tokens'.length at hn'
  change B.tokens.length - n = B.tokens'.length - n' at heq
  obtain rfl : n = n' := by omega
  exact ⟨n, hn, m, m', rfl, rfl⟩

/-- In front of the break, the places are twins. -/
theorem front (h : B.Abreast c c') (hlength : B.after.length + 1 < c.rest.length) :
    B.front.Twins c c' := by
  obtain ⟨n, hn, m, m', rfl, rfl⟩ := h.exists_advanceBy
  exact (B.twins_first.advanceBy (behind_suffix (reaches_advanceBy n _) hlength)).made m m'

/-- Behind the break, the places are twins. -/
theorem back (h : B.Abreast c c') (hlength : c.rest.length ≤ B.after.length + 1) :
    B.back.Twins c c' := by
  obtain ⟨n, hn, m, m', rfl, rfl⟩ := h.exists_advanceBy
  have htokens : B.tokens = (B.before ++ B.line) ++ B.front.behind := by
    rw [B.front_behind, List.append_assoc]
    rfl
  have hbreak : ((Cursor.first B.tokens).advanceBy (B.before ++ B.line).length).rest =
      B.front.behind := by
    rw [rest_advanceBy]
    exact htokens ▸ List.drop_left
  have hpassed : (B.before ++ B.line).length < n := by
    have hcount := congrArg List.length htokens
    rw [List.length_append, B.front_behind, List.length_cons, List.length_cons] at hcount
    dsimp only at hlength
    rw [rest_advanceBy, List.length_drop] at hlength
    change B.tokens.length - n ≤ _ at hlength
    omega
  obtain ⟨j, rfl⟩ := Nat.exists_eq_add_of_lt hpassed
  have htwins := twins_back (B.twins_first.advanceBy (hbreak ▸ List.suffix_refl _)) hbreak
  have hsplit : ∀ e : Cursor, e.advanceBy ((B.before ++ B.line).length + j + 1) =
      (e.advanceBy (B.before ++ B.line).length).advance.advanceBy j := fun e =>
    advanceBy_add _ (j + 1) e
  rw [hsplit, hsplit]
  refine (htwins.advanceBy (m := j) ?_).made m m'
  rw [B.back_behind]
  exact List.nil_suffix

/-- The tokens ahead are the same but for the semicolon. -/
theorem twinTokens (h : B.Abreast c c') : TwinTokens c.rest c'.rest := by
  have hstretch : ∀ {W : Parallel o o'} {a a'}, List.Forall₂ W.Matched a a' → TwinTokens a a' :=
    fun hmatched => hmatched.imp fun _ _ hl => .inl hl.token
  rcases Nat.lt_or_ge (B.after.length + 1) c.rest.length with hlength | hlength
  · obtain ⟨a, a', hrest, hrest', hmatched⟩ := (h.front hlength).ahead
    rw [hrest, hrest', B.front_behind, B.front_behind']
    exact List.rel_append (hstretch hmatched)
      (.cons (.inr ⟨B.semicolon, B.newline_token⟩) (hstretch B.matched_behind))
  · obtain ⟨a, a', hrest, hrest', hmatched⟩ := (h.back hlength).ahead
    rw [hrest, hrest', B.back_behind, B.back_behind', List.append_nil, List.append_nil]
    exact hstretch hmatched

/-- Places abreast are in front of the same token, or of the semicolon and the `newline`. -/
theorem next (h : B.Abreast c c') : TwinNext c.next? c'.next? := by
  rcases Nat.lt_or_ge (B.after.length + 1) c.rest.length with hlength | hlength
  · exact (h.front hlength).next
  · exact (h.back hlength).next

/-- The token ahead is the same, but at the semicolon. -/
theorem next_eq (h : B.Abreast c c') (hne : c.rest.length ≠ B.after.length + 2) :
    c'.next? = c.next? := by
  have hmatched : ∀ {W : Parallel o o'}, (∃ l l', c.rest.head? = some l ∧ c'.rest.head? = some l' ∧
      W.Matched l l' ∧ W.Twins c.advance c'.advance) → c'.next? = c.next? := by
    rintro W ⟨l, l', hl, hl', hmatched, _⟩
    rw [next?, next?, hl, hl', Option.map_some, Option.map_some, hmatched.token]
  rcases Nat.lt_or_ge (B.after.length + 1) c.rest.length with hlength | hlength
  · refine hmatched ((h.front hlength).cases.resolve_right fun hend => hne ?_)
    rw [hend.1, B.front_behind, List.length_cons, List.length_cons]
  · rcases (h.back hlength).cases with hcases | ⟨hrest, hrest'⟩
    · exact hmatched hcases
    · rw [next?, next?, hrest, hrest', B.back_behind, B.back_behind']

/-- A line has ended at both places, or at neither, but behind the break. -/
theorem afterNewline_eq (h : B.Abreast c c') (hne : c.rest.length ≠ B.after.length + 1) :
    c'.afterNewline = c.afterNewline := by
  obtain ⟨n, hn, m, m', rfl, rfl⟩ := h.exists_advanceBy
  cases n with
  | zero => rfl
  | succ n =>
    have h := B.abreast_first.advanceBy n
    have hsplit : ∀ e : Cursor, e.advanceBy (n + 1) = (e.advanceBy n).advance := fun e =>
      advanceBy_add n 1 e
    dsimp only at hne ⊢
    rw [hsplit] at hne
    rw [hsplit, hsplit]
    generalize hd : (first B.tokens).advanceBy n = d at h hne ⊢
    generalize (first B.tokens').advanceBy n = d' at h ⊢
    have hlength : d.rest.length = B.tokens.length - n := by
      rw [← hd, rest_advanceBy, List.length_drop]
      rfl
    obtain ⟨t, hnext⟩ := exists_next? (c := d) (by
      rw [List.isEmpty_iff_length_eq_zero]
      omega)
    have hnext' := h.next_eq (by
      rw [rest_advance, List.length_drop] at hne
      omega)
    rw [afterNewline_advance hnext, afterNewline_advance (hnext'.trans hnext)]

/-- In front of the line, or at its beginning, the same tokens lead up to it. -/
theorem exists_before (h : B.Abreast c c') (hlength : B.fromLine.length ≤ c.rest.length) :
    ∃ b, b <:+ B.before ∧ c.rest = b ++ B.fromLine ∧
      c'.rest = b ++ (B.line ++ B.newline :: B.next' :: B.after') := by
  obtain ⟨n, hn, m, m', rfl, rfl⟩ := h.exists_advanceBy
  dsimp only at hlength ⊢
  rw [rest_advanceBy] at hlength ⊢
  rw [rest_advanceBy]
  change B.fromLine.length ≤ (B.tokens.drop n).length at hlength
  have hle : n ≤ B.before.length := by
    rw [List.length_drop, tokens, List.length_append] at hlength
    rw [tokens, List.length_append] at hn
    omega
  exact ⟨B.before.drop n, List.drop_suffix _ _, List.drop_append_of_le_length hle,
    List.drop_append_of_le_length hle⟩

/-- In front of the line, the tokens that lead up to it end with a line. -/
theorem exists_lines (h : B.Abreast c c') (hfront : B.fromLine.length < c.rest.length) :
    ∃ b, b ≠ [] ∧ LineBegins b ∧ c.rest = b ++ B.fromLine ∧
      c'.rest = b ++ (B.line ++ B.newline :: B.next' :: B.after') := by
  obtain ⟨b, hb, hrest, hrest'⟩ := h.exists_before (Nat.le_of_lt hfront)
  refine ⟨b, ?_, B.begins.of_suffix hb, hrest, hrest'⟩
  rintro rfl
  rw [hrest] at hfront
  exact Nat.lt_irrefl _ hfront

end Abreast

/-! ### Readings of both sources -/

section Keeps

variable {x : Reading α} {y : Reading β} {R : α → β → Prop} {f : α → Reading σ} {g : β → Reading τ}
  {Q : α → β → Cursor → Prop} {S : σ → τ → Cursor → Prop}

variable (B) in
/-- From places abreast, the reading `y` of the other source finds something if `x` does, and ends
abreast of it. -/
def Keeps (c c' : Cursor) (x : Reading α) (y : Reading β) (Q : α → β → Cursor → Prop) : Prop :=
  Ends .any x o c fun a d => Ends ⟨False, False⟩ y o' c' fun a' d' => B.Abreast d d' ∧ Q a a' d

/-- A sequence keeps pace if its parts do. -/
theorem Keeps.bind (hx : B.Keeps c c' x y Q)
    (hf : ∀ a a' d d', B.Abreast d d' → Q a a' d → B.Keeps d d' (f a) (g a') S) :
    B.Keeps c c' (x >>= f) (y >>= g) S := by
  rw [Keeps, ends_bind]
  refine hx.mono fun a d hd => ?_
  -- what the first part finds does not depend on what comes of the second one
  obtain ⟨a', d', hdone, habreast, hQ⟩ := exists_done_of_ends hd
  refine (hf a a' d d' habreast hQ).mono fun b e he => ?_
  rw [ends_bind]
  exact (ends_iff_of_done hdone).2 he

/-- What is kept may say less. -/
theorem Keeps.mono {Q' : α → β → Cursor → Prop} (h : B.Keeps c c' x y Q)
    (himp : ∀ a a' d, Q a a' d → Q' a a' d) : B.Keeps c c' x y Q' :=
  Ends.mono h fun _ _ hd => hd.mono fun _ _ ⟨habreast, hQ⟩ => ⟨habreast, himp _ _ _ hQ⟩

/-- A value that is there at once keeps pace. -/
theorem keeps_pure {a : α} {a' : β} (h : B.Abreast c c') (hQ : Q a a' c) :
    B.Keeps c c' (pure a) (pure a') Q := ⟨h, hQ⟩

/-- A choice that both sources make alike keeps pace. -/
theorem Keeps.ite {p : Prop} [Decidable p] {x' : Reading α} {y' : Reading β}
    (h : p → B.Keeps c c' x y Q) (h' : ¬p → B.Keeps c c' x' y' Q) :
    B.Keeps c c' (if p then x else x') (if p then y else y') Q := by
  split
  · exact h ‹_›
  · exact h' ‹_›

/-- What holds of everything that a reading finds can be added to how it ends. -/
theorem ends_and_any {w : Endings} {Q Q' : α → Cursor → Prop} (h : Ends w x o c Q)
    (h' : Ends .any x o c Q') : Ends w x o c fun a d => Q a d ∧ Q' a d :=
  h.found.mono fun _ _ ⟨hdone, hQ⟩ => ⟨hQ, (ends_iff_of_done hdone).1 h'⟩

/-- A reading that follows another one ends abreast of it. -/
theorem Abreast.keeps_of_sim {W : Parallel o o'} [Onward x] [Onward y] (h : B.Abreast c c')
    (hsim : W.Sim x y R) (htwins : W.Twins c c') :
    Ends .any x o c fun a d => W.behind <:+ d.rest →
      Ends ⟨False, False⟩ y o' c' fun a' d' => B.Abreast d d' ∧ R a a' :=
  ((hsim htwins).and (Onward.reaches o c)).mono fun _ _ ⟨hd, hreaches⟩ hon =>
    (ends_and_any (hd hon) (Onward.reaches o' c')).mono fun _ _ ⟨⟨hR, htwins⟩, hreaches'⟩ =>
      ⟨h.trans hreaches hreaches' htwins.length_eq, hR⟩

/-- Where a reading ends in front of the break, the one that follows it ends abreast of it. -/
theorem Abreast.keeps_front [Onward x] [Onward y] (h : B.Abreast c c')
    (hsim : B.front.Sim x y R) :
    Ends .any x o c fun a d => B.after.length + 1 < d.rest.length →
      Ends ⟨False, False⟩ y o' c' fun a' d' => B.Abreast d d' ∧ R a a' := by
  rcases Nat.lt_or_ge (B.after.length + 1) c.rest.length with hlength | hlength
  · exact ((h.keeps_of_sim hsim (h.front hlength)).and (Onward.reaches o c)).mono
      fun _ _ ⟨hd, hreaches⟩ hfront => hd (behind_suffix (h.reaches.trans hreaches) hfront)
  · exact (Onward.suffix ‹_› o c).mono fun _ _ hsuffix hfront =>
      absurd (Nat.lt_of_lt_of_le hfront hsuffix.length_le) (Nat.not_lt.2 hlength)

/-- Behind the break, a reading that follows another one keeps pace. -/
theorem Abreast.keeps_back [Onward x] [Onward y] (h : B.Abreast c c')
    (hsim : B.back.Sim x y R) (hlength : c.rest.length ≤ B.after.length + 1) :
    B.Keeps c c' x y fun a a' _ => R a a' :=
  (h.keeps_of_sim hsim (h.back hlength)).mono fun _ _ hd => hd (B.back_behind ▸ List.nil_suffix)

end Keeps

/-! ### Outside of the line -/

variable (B)

/-- The place is in front of the line, or no more than `k` tokens are ahead. -/
def Inner (k : Nat) (c : Cursor) : Prop := B.fromLine.length < c.rest.length ∨ c.rest.length ≤ k

/-- The place is not behind the beginning of the line, or no more than `k` tokens are ahead. -/
def Apart (k : Nat) (c : Cursor) : Prop := B.fromLine.length ≤ c.rest.length ∨ c.rest.length ≤ k

variable {B}

/-- A place in front of the line is apart from what is in it. -/
theorem Inner.apart (h : B.Inner k c) : B.Apart k c := h.imp_left Nat.le_of_lt

/-- One token further, a place in front of the line is at most at its beginning. -/
theorem Inner.advance (h : B.Inner k c) (hnext : c.next? = some t) : B.Apart k c.advance := by
  have hlength := length_advance_lt hnext
  rw [rest_advance, List.length_drop] at hlength
  unfold Inner at h
  unfold Apart
  rw [rest_advance, List.length_drop]
  omega

/-- A place that is reached on the same line is in front of the line that is broken as well. -/
theorem Abreast.front_onLine (h : B.Abreast c c') (hfront : B.fromLine.length < c.rest.length)
    (hline : OnLine o c d) : B.fromLine.length < d.rest.length := by
  obtain ⟨b, hne, hbegins, hrest, _⟩ := h.exists_lines hfront
  have hend := length_lt_lineEnd hrest hbegins hne
  rw [← hline.lineEnd] at hend
  refine Nat.lt_of_lt_of_le hend ?_
  rw [← length_tokens]
  exact (List.dropWhile_suffix _).length_le

/-- The rest of a line that begins in front of the broken one ends in front of it. -/
theorem Inner.onLine (h : B.Abreast c c') (hin : B.Inner k c) (hline : OnLine o c d) :
    B.Inner k d :=
  hin.imp (fun hfront => h.front_onLine hfront hline) (Nat.le_trans hline.length_le)

/-- A line that begins in front of the line that is broken ends there. -/
theorem Abreast.front_pastLine (h : B.Abreast c c') (hfront : B.fromLine.length < c.rest.length)
    (hpast : PastLine o c d) : B.fromLine.length ≤ d.rest.length := by
  obtain ⟨b, hne, hbegins, hrest, _⟩ := h.exists_lines hfront
  obtain ⟨b', _, hrest'⟩ := hpast.exists_suffix hrest hbegins hne
  rw [hrest', List.length_append]
  exact Nat.le_add_left _ _

/-- Behind a line that begins outside of the line that is broken, the place is outside of it. -/
theorem Inner.pastLine (h : B.Abreast c c') (hin : B.Inner k c) (hpast : PastLine o c d) :
    B.Apart k d :=
  hin.imp (fun hfront => h.front_pastLine hfront hpast) (Nat.le_trans hpast.length_le)

/-- Where the token ahead is the same in both sources. -/
theorem Apart.next_eq (hapart : B.Apart k c) (hk : k ≤ B.after.length + 1) (h : B.Abreast c c') :
    c'.next? = c.next? := by
  refine h.next_eq ?_
  have hline := B.line_pos
  have hahead := B.length_fromLine
  unfold Apart at hapart
  omega

/-- **A reading that stays on its line keeps pace**, outside of the line that is broken. -/
theorem Abreast.keeps_line {x : Reading α} {y : Reading β} {R : α → β → Prop} [Onward x] [Onward y]
    (h : B.Abreast c c') (hin : B.Inner k c) (hk : k ≤ B.after.length + 1)
    (hsim : ∀ W : Parallel o o', W.Sim x y R) (hline : Ends .any x o c fun _ d => OnLine o c d) :
    B.Keeps c c' x y fun a a' d => R a a' ∧ B.Inner k d := by
  have hahead := B.length_fromLine
  rcases hin with hfront | hback
  · refine ((h.keeps_front (hsim _)).and hline).mono fun _ d ⟨hd, hline⟩ => ?_
    have hfront' := h.front_onLine hfront hline
    exact (hd (by omega)).mono fun _ _ ⟨habreast, hR⟩ => ⟨habreast, hR, .inl hfront'⟩
  · refine (Ends.and (h.keeps_back (hsim _) (Nat.le_trans hback hk)) hline).mono
      fun _ d ⟨hd, hline⟩ => ?_
    exact hd.mono fun _ _ ⟨habreast, hR⟩ =>
      ⟨habreast, hR, .inr (Nat.le_trans hline.length_le hback)⟩

/-- A statement depends on nothing behind the first layout token. -/
theorem statement_congr {colon : Bool} (h : ∃ l ∈ a, l.token.isLayout = true) :
    statement colon (a ++ ls) = statement colon (a ++ ls') := by
  induction a generalizing colon with
  | nil =>
    obtain ⟨_, hl, _⟩ := h
    cases hl
  | cons l a ih =>
    rw [List.cons_append, List.cons_append, statement, statement]
    by_cases hnewline : l.token = .newline
    · rw [if_pos hnewline, if_pos hnewline]
    · rw [if_neg hnewline, if_neg hnewline]
      by_cases hshift : l.token.isShift = true
      · rw [if_pos hshift, if_pos hshift]
      · rw [if_neg hshift, if_neg hshift, ih]
        obtain ⟨l', hl', hlayout⟩ := h
        rcases List.mem_cons.1 hl' with rfl | hl'
        · simp [Token.isLayout, hnewline, hshift] at hlayout
        · exact ⟨l', hl', hlayout⟩

/-- Matched stretches have the same tokens. -/
theorem tokens_matched {W : Parallel o o'} (h : List.Forall₂ W.Matched a a') :
    a'.map (·.token) = a.map (·.token) := by
  induction h with
  | nil => rfl
  | cons hl _ ih => exact congrArg₂ List.cons hl.token ih

/-- Matched stretches begin with the same statement. -/
theorem statement_matched {W : Parallel o o'} {colon : Bool} (h : List.Forall₂ W.Matched a a') :
    statement colon a' = statement colon a := by
  induction h generalizing colon with
  | nil => rfl
  | cons hl _ ih => rw [statement, statement, hl.token, ih]

namespace Abreast

/-- Outside of the line, a statement is as long in both sources. -/
theorem statement_eq (h : B.Abreast c c') (hin : B.Inner k c) (hk : k ≤ B.after.length + 1) :
    statement false c'.rest = statement false c.rest := by
  rcases hin with hfront | hback
  · obtain ⟨b, hne, hbegins, hrest, hrest'⟩ := h.exists_lines hfront
    obtain ⟨l, hl⟩ := Option.isSome_iff_exists.1 (List.getLast?_isSome.2 hne)
    rw [hrest, hrest']
    exact statement_congr ⟨l, List.mem_of_getLast? hl, hbegins l hl⟩
  · obtain ⟨a, a', hrest, hrest', hmatched⟩ := (h.back (Nat.le_trans hback hk)).ahead
    rw [hrest, hrest', B.back_behind, B.back_behind', List.append_nil, List.append_nil]
    exact statement_matched hmatched

end Abreast

/-- A block that begins outside of the line ends outside of it. -/
theorem Apart.block (h : B.Abreast c c') (hapart : B.Apart k c) (hk : B.after.length ≤ k)
    (hnext : c.next? = some .indent) (hn : blockLength? 0 c.rest = some n) :
    B.Apart k (c.advanceBy n) := by
  unfold Apart
  rw [rest_advanceBy, List.length_drop]
  refine hapart.elim (fun hfront => ?_) fun hback => .inr (Nat.le_trans (Nat.sub_le _ _) hback)
  obtain ⟨b, _, hrest, _⟩ := h.exists_before hfront
  have hahead : B.fromLine = (B.line ++ [B.mark, B.next]) ++ B.after := by
    rw [fromLine, List.append_assoc]
    rfl
  have hline : ∀ l ∈ B.line ++ [B.mark, B.next], l.token.isLayout = false := by
    intro l hl
    rcases List.mem_append.1 hl with hl | hl
    · exact B.inLine l hl
    · rcases List.mem_pair.1 hl with rfl | rfl
      · rw [B.semicolon]
        rfl
      · exact B.next_line
  have hbalanced : BalancedFrom 0 ((B.line ++ [B.mark, B.next]).map (·.token)) := by
    rw [← List.append_nil (List.map _ _)]
    refine balancedFrom_nil.append fun t ht => ?_
    obtain ⟨l, hl, rfl⟩ := List.mem_map.1 ht
    exact (Bool.or_eq_false_iff.1 (hline l hl)).2
  cases b with
  | nil =>
    -- the line begins with no `indent`
    obtain ⟨first, line, hcons⟩ := List.exists_cons_of_ne_nil B.line_ne
    rw [next?, hrest, fromLine, hcons] at hnext
    have hindent : first.token = .indent := Option.some.inj hnext
    have hfirst := B.inLine first (hcons ▸ List.mem_cons_self)
    rw [hindent] at hfirst
    cases hfirst
  | cons l b =>
    rw [List.cons_append] at hrest
    have hindent : l.token = .indent := by
      rw [next?, hrest] at hnext
      exact Option.some.inj hnext
    rw [hrest, blockLength?_indent hindent] at hn
    obtain ⟨m, hm, rfl⟩ := Option.map_eq_some_iff.1 hn
    rw [hahead] at hm
    have hcases := blockLength?_cases hbalanced hm
    rw [hrest, hahead]
    simp only [List.length_append, List.length_cons, List.length_nil] at hcases ⊢
    omega

section Statements

variable (h : B.Abreast c c') (hin : B.Inner k c) (hk : B.after.length ≤ k)
  (hk' : k ≤ B.after.length + 1)

include h hin hk'

/-- A token that is passed in both sources, or in neither. -/
theorem keeps_accept (t : Token) : B.Keeps c c' (accept t) (accept t) fun b b' d =>
    b' = b ∧ B.Apart k d ∧ (b = true ∧ t.isLayout = true ∨ B.Inner k d) := by
  have hnext := hin.apart.next_eq hk' h
  simp only [Keeps, ends_accept, hnext]
  refine ⟨fun hsame => ⟨fun _ => ⟨h.advance, trivial, hin.advance hsame, ?_⟩,
    fun hnot => absurd hsame hnot⟩, fun hother => ⟨fun hsame => absurd hsame hother,
      fun _ => ⟨h, trivial, hin.apart, .inr hin⟩⟩⟩
  cases hlayout : t.isLayout with
  | true => exact .inl ⟨trivial, rfl⟩
  | false => exact .inr (hin.onLine h (h.stands.onLine_advance hsame hlayout))

include hk in
/-- **A statement that is passed keeps pace**, with the block that it opens. -/
theorem keeps_passStatement : B.Keeps c c' passStatement passStatement fun _ _ => B.Apart k := by
  simp only [Keeps, ends_passStatement_iff, h.statement_eq hin hk']
  have hpast := hin.pastLine h (h.stands.pastLine_statement false)
  have h₁ := h.advanceBy (statement false c.rest).length
  generalize (statement false c.rest).length = m at hpast h₁
  rw [hpast.next_eq hk' h₁]
  split_ifs with hopens
  · obtain ⟨l, ls, hls, hindent⟩ := next?_eq_some_iff.1 hopens.2
    obtain ⟨n, hn⟩ : ∃ n, blockLength? 0 (c.advanceBy m).rest = some n := by
      obtain ⟨n, _, hn⟩ := exists_blockLength?_cons hindent ls
      exact ⟨n + 1, hls ▸ hn⟩
    have hn' := (blockLength?_twins _ h₁.twinTokens).trans hn
    rw [ends_passBlock_of_length hn, ends_passBlock_of_length hn']
    exact ⟨h₁.advanceBy n, hpast.block h₁ hk hopens.2 hn⟩
  · exact ⟨h₁, hpast⟩

include hk in
/-- The end of a statement keeps pace and goes apart. -/
theorem keeps_finishStatement :
    B.Keeps c c' finishStatement finishStatement fun _ _ => B.Apart k := by
  refine (keeps_accept h hin hk' .semicolon).bind fun b _ d d' hd ⟨hb, _, hin'⟩ => ?_
  subst hb
  have hin' := hin'.resolve_left fun hnot => (nomatch hnot.2)
  refine Keeps.ite (fun _ => ?_) fun _ => keeps_passStatement hd hin' hk hk'
  exact (keeps_accept hd hin' hk' .newline).bind fun _ _ _ _ he ⟨_, hapart, _⟩ =>
    keeps_pure he hapart

/-- Documentation is passed in both sources, or in neither. -/
theorem keeps_docstring : B.Keeps c c' docstring docstring fun _ _ => B.Apart k := by
  have hcount : stringCount c'.rest = stringCount c.rest := by
    rcases Nat.lt_or_ge (B.after.length + 1) c.rest.length with hlength | hlength
    · obtain ⟨a, a', hrest, hrest', hmatched⟩ := (h.front hlength).ahead
      rw [hrest, hrest', stringCount_matched hmatched]
    · obtain ⟨a, a', hrest, hrest', hmatched⟩ := (h.back hlength).ahead
      rw [hrest, hrest', stringCount_matched hmatched]
  have hstrings := (isBracketPath_reads o).strings h.stands (Nat.le_refl (stringCount c.rest))
  have hnext := (hin.onLine h hstrings.onLine).apart.next_eq hk' (h.advanceBy _)
  have hpass : B.Keeps c c' (passStrings (stringCount c.rest)) (passStrings (stringCount c.rest))
      fun _ _ => B.Inner k :=
    (h.keeps_line hin hk' (fun _ => sim_passStrings _)
      (((ends_passStrings h.stands (Nat.le_refl _)).of_safe trivial).mono
        fun _ _ hreads => hreads.1.onLine)).mono fun _ _ _ => And.right
  have hfound : B.Keeps c c'
      (do
        let value ← passStrings (stringCount c.rest)
        let _ ← accept .newline
        return some value)
      (do
        let value ← passStrings (stringCount c.rest)
        let _ ← accept .newline
        return some value) fun _ _ => B.Apart k :=
    hpass.bind fun _ _ _ _ hd hin' => (keeps_accept hd hin' hk' .newline).bind
      fun _ _ _ _ he ⟨_, hapart, _⟩ => keeps_pure he hapart
  simp only [Keeps, docstring, ends_bind (x := ahead), ends_bind (x := peekAt _), ends_ahead,
    ends_peekAt, hcount, hnext]
  exact Keeps.ite (fun _ => keeps_pure h hin.apart) fun _ => hfound

/-- A line that is passed in both sources. -/
theorem Inner.abreast_pastLine (hpast : PastLine o c d) (hpast' : PastLine o' c' d') :
    d.rest.length = d'.rest.length ∧ B.Apart k d := by
  refine ⟨?_, hin.pastLine h hpast⟩
  rw [hpast.length_eq (h.stands.pastLine_statement false),
    hpast'.length_eq (h.stands'.pastLine_statement false), h.statement_eq hin hk']
  exact (h.advanceBy _).length_eq

end Statements

end LineBreak

/-! ### Functions -/

section Functions

-- a reading of many steps goes on because each of its steps does
set_option synthInstance.maxSize 400

variable {receiver : Option String}

/-- The reading of a docstring never goes back. -/
instance : Onward docstring := by
  refine .seq inferInstance fun _ => .seq inferInstance fun _ => ?_
  dsimp only
  infer_instance

/-- Passing a block never goes back. -/
instance : Onward passBlock := by
  unfold passBlock
  infer_instance

/-- Passing a statement never goes back. -/
instance : Onward passStatement := by
  unfold passStatement
  infer_instance

/-- Passing the end of a statement never goes back. -/
instance : Onward finishStatement := by
  unfold finishStatement
  infer_instance

/-- The reading of a binding in a class body never goes back. -/
instance : Onward classBinding := by
  rw [classBinding_eq]
  infer_instance

/-- A tentative reading goes on, or ends where it began. -/
instance (x : Reading (Option α)) [hx : Onward x] : Onward (tentative x) := by
  refine ⟨fun o c => ends_tentative (fun made => ⟨0, made, rfl⟩) ?_⟩
  exact (hx.reaches o c).mono fun _ _ h _ _ => h

/-- A round over the targets of a receiver never goes back. -/
instance (name : String) (targets : List String) : Onward (receiverRound name targets) := by
  refine .seq inferInstance fun _ => .seq inferInstance fun _ => .seq inferInstance fun _ => ?_
  split <;> infer_instance

/-- The reading of a binding of the receiver never goes back. -/
instance (name : String) : Onward (receiverBinding name) := by
  refine .seq inferInstance fun _ => .seq (x := receiverTargets name) ?_ fun found => ?_
  · unfold receiverTargets
    infer_instance
  · cases found with
    | none => exact inferInstanceAs (Onward (pure none))
    | some targets =>
      show Onward (receiverValues name _ targets)
      unfold receiverValues
      infer_instance

/-- The reading of a binding of a line never goes back. -/
instance (s : LineState) : Onward (lineBinding receiver s) := by
  unfold lineBinding
  cases receiver <;> infer_instance

/-- A round over a line never goes back. -/
instance (s : LineState) : Onward (lineRound receiver s) := by
  refine .seq inferInstance fun t => ?_
  cases t with
  | none => exact inferInstanceAs (Onward (pure _))
  | some t =>
    dsimp only
    split
    · infer_instance
    · split
      · infer_instance
      · exact .seq inferInstance fun _ => by split <;> infer_instance

/-- The reading of the bindings of a line never goes back. -/
instance : Onward (lineBindings receiver) := by
  unfold lineBindings
  infer_instance

/-- A round over a function body never goes back. -/
instance (s : BodyState) : Onward (bodyRound receiver s) := by
  refine .seq inferInstance fun t => ?_
  split
  · infer_instance
  · infer_instance
  · refine .seq inferInstance fun _ => ?_
    split <;> infer_instance
  · infer_instance

/-- The reading of a function body never goes back. -/
instance : Onward (functionBody receiver) := by
  unfold functionBody bodyBindings
  infer_instance

/-- The reading of a function never goes back. -/
instance (ds : List Decorator) : Onward (functionDefinition ds) := by
  rw [functionDefinition_eq]
  infer_instance

/-- The body of a function on the line of its header ends with that line. -/
theorem pastLine_functionBody (hc : c.Stands o) (hafter : c.afterNewline = false)
    (hnext : c.next? ≠ some .newline) :
    Ends .any (functionBody receiver) o c fun _ d => PastLine o c d := by
  have hlines : ∀ {e : Cursor}, e.Stands o → Ends .any (lineBindings receiver) o e fun _ d =>
      PastLine o e d := fun he => (ends_lineBindings he).of_safe trivial
  refine (ends_functionBody_line hnext).2 ?_
  refine ((ends_docstring hc).of_safe trivial).mono fun doc e he => ?_
  rcases he with rfl | ⟨hpast, _⟩
  · rw [if_neg (by simp [hafter])]
    exact hlines hc
  · split
    · exact hpast
    · rename_i hafter'
      exact (hlines hpast.stands).mono fun _ _ hd => hpast.pastLine (by simpa using hafter') hd

/-- A function with its body on the line of its header ends behind that line. -/
theorem pastLine_functionDefinition (ds : List Decorator) {c₁ : Cursor}
    {header : Bool × String × List Parameter × Option Expression} (hc : c.Stands o)
    (hheader : functionHeader o c = .done header c₁) (hnext : c₁.next? ≠ some .newline) :
    Ends .any (functionDefinition ds) o c fun _ d => PastLine o c₁ d := by
  have h₁ := (ends_iff_of_done hheader).1 (ends_functionHeader hc)
  simp only [functionDefinition_eq, ends_bind, ends_peekStart, ends_iff_of_done hheader,
    ends_spanFrom, ends_pure, pastLine_made]
  exact pastLine_functionBody h₁.2.1.stands h₁.2.2.2 hnext

end Functions

namespace LineBreak

variable {B : LineBreak o o'}

/-- Of every place of the one source there is one of the other source abreast. -/
theorem exists_abreast (h : Reaches (.first B.tokens) c) : ∃ c', B.Abreast c c' := by
  obtain ⟨n, m, rfl⟩ := h
  exact ⟨_, (B.abreast_first.advanceBy n).made m 0⟩

/-- Decorators in front of the line are those of a definition in front of it. -/
theorem Abreast.front_decorators (h : B.Abreast c c')
    (hfront : B.fromLine.length < c.rest.length) :
    Ends .any decorators o c fun _ d => B.fromLine.length < d.rest.length := by
  have hstrict : ∀ {d : Cursor}, Reaches (.first B.tokens) d → B.fromLine.length ≤ d.rest.length →
      d.startsScope = true → B.fromLine.length < d.rest.length := by
    refine fun hd hle hopens => Nat.lt_of_le_of_ne hle fun heq => ?_
    rw [← opensScope_tokens, opensScope_eq_false hd heq.symm] at hopens
    cases hopens
  have hrounds : Ends .any (repeatRounds decoratorRound []) o c fun _ d =>
      Reaches (.first B.tokens) d ∧ B.fromLine.length ≤ d.rest.length := by
    refine ends_repeatRounds_any (I := fun _ d =>
      Reaches (.first B.tokens) d ∧ B.fromLine.length ≤ d.rest.length)
      (fun found d ⟨hd, hle⟩ => ?_) ⟨h.reaches, Nat.le_of_lt hfront⟩
    obtain ⟨d', habreast⟩ := exists_abreast hd
    refine (((ends_decoratorRound habreast.stands).of_safe trivial).and
      (Onward.reaches o d)).mono fun r e ⟨hr, hreaches⟩ => ?_
    cases r with
    | again found =>
      refine ⟨hd.trans hreaches, habreast.front_pastLine (hstrict hd hle ?_) hr.2⟩
      simp [startsScope, hr.1]
    | stop found => exact hr.2 ▸ ⟨hd, hle⟩
  simp only [decorators, ends_bind, ends_check, ends_ite, ends_pure, ends_atFunction,
    ends_refuseNext]
  refine hrounds.mono fun found d ⟨hd, hle⟩ => ?_
  split
  · rename_i hclass
    exact hstrict hd hle (by simp [startsScope, hclass])
  · split
    · rename_i hfunction
      exact hstrict hd hle (by simp [startsScope, hfunction])
    · trivial

/-- A block behind a header that is passed in both sources. -/
theorem Inner.abreast_block {body body' : List Lexeme} (h : B.Abreast c c') (hin : B.Inner k c)
    (hk : B.after.length ≤ k) (hblock : HasBlock c body d) (hblock' : HasBlock c' body' d') :
    d.rest.length = d'.rest.length ∧ B.Apart k d := by
  have hends : ∀ {o : Origin} {c d : Cursor} {body : List Lexeme}, HasBlock c body d →
      c.next? = some .newline ∧ c.advance.next? = some .indent ∧
        blockLength? 0 c.advance.rest = some (body.length + 2) ∧
          (c.advance.advanceBy (body.length + 2)).rest.length = d.rest.length := by
    intro o c d body hblock
    obtain ⟨newline, indent, dedent, hrest, hnewline, hindent, hdedent⟩ := hblock.rest_eq
    have hadvance : c.advance.rest = indent :: (body ++ dedent :: d.rest) := by
      rw [rest_advance, hrest]
      rfl
    refine ⟨next?_eq_some_iff.2 ⟨_, _, hrest, hnewline⟩,
      next?_eq_some_iff.2 ⟨_, _, hadvance, hindent⟩, ?_, ?_⟩
    · rw [hadvance]
      exact blockLength?_block hindent hblock.balanced hdedent
    · rw [rest_advanceBy, hadvance, List.length_drop]
      simp only [List.length_cons, List.length_append]
      omega
  obtain ⟨hnewline, hindent, hn, hd⟩ := hends (o := o) hblock
  obtain ⟨_, _, hn', hd'⟩ := hends (o := o') hblock'
  have hsame := blockLength?_twins 0 h.advance.twinTokens
  rw [hn, hn'] at hsame
  have hlength := (h.advance.advanceBy (body.length + 2)).length_eq
  rw [← Option.some.inj hsame, hd', Option.some.inj hsame, hd] at hlength
  have hapart := (hin.advance hnewline).block h.advance hk hindent hn
  unfold Apart at hapart ⊢
  rw [hd] at hapart
  exact ⟨hlength, hapart⟩

section Definitions

variable (h : B.Abreast c c') (hin : B.Inner k c) (hk : B.after.length ≤ k)
  (hk' : k ≤ B.after.length + 1)

include h hin hk'

/-- Decorators keep pace, and those that begin in front of the line end there. -/
theorem keeps_decorators : B.Keeps c c' decorators decorators fun _ _ d =>
    B.Inner k d ∧ d.rest.length ≤ c.rest.length := by
  rcases hin with hfront | hback
  · have hahead := B.length_fromLine
    refine (((h.keeps_front sim_decorators).and (h.front_decorators hfront)).and
      (Onward.suffix inferInstance o c)).mono fun _ d ⟨⟨hd, hfront'⟩, hsuffix⟩ => ?_
    exact (hd (by omega)).mono fun _ _ ⟨habreast, _⟩ =>
      ⟨habreast, .inl hfront', hsuffix.length_le⟩
  · refine ((h.keeps_back sim_decorators (Nat.le_trans hback hk')).and
      (Onward.suffix inferInstance o c)).mono fun _ d ⟨hd, hsuffix⟩ => ?_
    exact hd.mono fun _ _ ⟨habreast, _⟩ =>
      ⟨habreast, .inr (Nat.le_trans hsuffix.length_le hback), hsuffix.length_le⟩

include hk in
/-- **A function keeps pace.**  Its body ends with its line or with its block. -/
theorem keeps_functionDefinition (ds ds' : List Decorator) :
    B.Keeps c c' (functionDefinition ds) (functionDefinition ds') fun _ _ => B.Apart k := by
  have hheader : B.Keeps c c' functionHeader functionHeader fun _ _ => B.Inner k :=
    (h.keeps_line hin hk' (fun _ => sim_functionHeader)
      (((ends_functionHeader h.stands).of_safe trivial).mono fun _ _ hd => hd.2.1)).mono
        fun _ _ _ => And.right
  refine ((ends_functionDefinition_block B.read h.follows ds).and
    (Onward.reaches o c)).found.mono fun f d ⟨hdone, ⟨header, c₁, hheader₁, hblock⟩, hreaches⟩ => ?_
  obtain ⟨header', c₁', hheader₁', h₁, hin₁⟩ :=
    exists_done_of_ends ((ends_iff_of_done hheader₁).1 hheader)
  have hnext := hin₁.apart.next_eq hk' h₁
  have hindent : c₁'.next? = some .newline → c₁'.advance.next? = some .indent := by
    intro hnewline
    rw [hnext] at hnewline
    obtain ⟨body, hblock, _⟩ := hblock hnewline
    obtain ⟨newline, indent, dedent, hrest, _, htoken, _⟩ := hblock.rest_eq
    rw [(hin₁.advance hnewline).next_eq hk' h₁.advance, next?, rest_advance, hrest]
    exact congrArg some htoken
  obtain ⟨f', d', hdone'⟩ := exists_functionDefinition ds' h.stands' hheader₁' hindent
  have hreaches' := (ends_iff_of_done hdone').1 (Onward.reaches o' c')
  rw [ends_iff_of_done hdone']
  by_cases hnewline : c₁.next? = some .newline
  · obtain ⟨body, hbody, _⟩ := hblock hnewline
    obtain ⟨header'', c₁'', hheader₁'', hblock'⟩ :=
      (ends_iff_of_done hdone').1 (ends_functionDefinition_block B.read' h.follows' ds')
    obtain ⟨rfl, rfl⟩ := Reply.done.inj (hheader₁'.symm.trans hheader₁'')
    obtain ⟨body', hbody', _⟩ := hblock' (hnext.trans hnewline)
    obtain ⟨hlength, hapart⟩ := hin₁.abreast_block h₁ hk hbody hbody'
    exact ⟨h.trans hreaches hreaches' hlength, hapart⟩
  · have hpast := (ends_iff_of_done hdone).1
      (pastLine_functionDefinition ds h.stands hheader₁ hnewline)
    have hpast' := (ends_iff_of_done hdone').1
      (pastLine_functionDefinition ds' h.stands' hheader₁' (hnext ▸ hnewline))
    obtain ⟨hlength, hapart⟩ := hin₁.abreast_pastLine h₁ hk' hpast hpast'
    exact ⟨h.trans hreaches hreaches' hlength, hapart⟩

end Definitions

end LineBreak

end Outline
end Lineage
