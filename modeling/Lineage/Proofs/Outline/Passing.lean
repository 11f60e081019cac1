/-
# What a reading passes

A reading that starts where tokens stand in the source (`Cursor.Stands`) ends where they
do, with a part of the tokens ahead of it still ahead (`Cursor.Follows`).  A reading of
an expression moreover stays on its line and closes the brackets that it opens
(`Cursor.Reads`): `Lowers a b` says of tokens that brackets open before them, `a` or more,
are `b` or more afterwards.  Two things are outside of that: a line that ends inside an
expression, where the reading halts, and a lambda with brackets between its parameters,
as the first colon ends its header wherever it stands (`flatLambdas`).

The second half is about the runs of tokens that are passed without being read.
-/

import Lineage.Proofs.Outline.Reading
import Lineage.Proofs.Source.Placement

namespace Lineage
namespace Outline

open Source Reading Text

variable {α σ : Type} {o : Origin} {c c' c'' : Cursor} {t : Token} {n a b d : Nat}
  {p q ts : List Token} {l : Lexeme} {ls : List Lexeme}

/-! ### Kinds of tokens -/

/-- A token that neither opens nor closes a block. -/
theorem isShift_eq_false (hindent : t ≠ .indent) (hdedent : t ≠ .dedent) : t.isShift = false := by
  cases t with
  | indent => exact absurd rfl hindent
  | dedent => exact absurd rfl hdedent
  | _ => rfl

/-- Where the token ahead is no layout, no layout is ahead. -/
theorem Cursor.next?_ne_of_isLayout {u : Token} (hnext : c.next? = some t)
    (ht : t.isLayout = false) (hu : u.isLayout = true) : c.next? ≠ some u := by
  intro heq
  rw [← Option.some.inj (hnext.symm.trans heq), ht] at hu
  cases hu

/-- An opening bracket is no layout. -/
theorem isLayout_of_isOpener (h : t.isOpener = true) : t.isLayout = false := by
  cases t <;> first | rfl | cases h

/-- A closing bracket is no layout. -/
theorem isLayout_of_isCloser (h : t.isCloser = true) : t.isLayout = false := by
  cases t <;> first | rfl | cases h

/-- A closing bracket opens nothing. -/
theorem isOpener_of_isCloser (h : t.isCloser = true) : t.isOpener = false := by
  cases hopener : t.isOpener with
  | true =>
    rw [Token.isCloser_eq_false_of_isOpener hopener] at h
    cases h
  | false => rfl

/-- An expression ends at a closing bracket. -/
theorem isCloser_of_not_endsExpression (h : ¬endsExpression t = true) : t.isCloser = false := by
  cases t <;> first | rfl | exact absurd rfl h

/-! ### Brackets -/

/-- The brackets open after the tokens. -/
def depthFrom (depth : Nat) (ts : List Token) : Nat := ts.foldl Layout.depthAfter depth

/-- Behind the empty stretch the same brackets are open. -/
@[simp] theorem depthFrom_nil : depthFrom d [] = d := rfl

/-- The first token opens or closes, then the others do. -/
@[simp] theorem depthFrom_cons : depthFrom d (t :: ts) = depthFrom (Layout.depthAfter d t) ts := rfl

/-- The brackets open behind two stretches are counted one stretch after the other. -/
theorem depthFrom_append : depthFrom d (p ++ q) = depthFrom (depthFrom d p) q := List.foldl_append

/-- If more brackets are open before a token, no fewer are behind it. -/
theorem depthAfter_mono (h : a ≤ b) : Layout.depthAfter a t ≤ Layout.depthAfter b t := by
  unfold Layout.depthAfter
  split
  · omega
  · split <;> omega

/-- If more brackets are open before some tokens, no fewer are behind them. -/
theorem depthFrom_mono (h : a ≤ b) : depthFrom a ts ≤ depthFrom b ts := by
  induction ts generalizing a b with
  | nil => exact h
  | cons t ts ih => exact ih (depthAfter_mono h)

/-- Of the brackets open before the tokens, `a` are closed if all but `b` of them are. -/
def Lowers (a b : Nat) (ts : List Token) : Prop := ∀ d, depthFrom (d + a) ts ≤ d + b

/-- The empty stretch closes no bracket and opens none. -/
theorem lowers_nil : Lowers a a [] := fun _ => Nat.le_refl _

/-- What is left open by the first tokens is closed by those behind them. -/
theorem Lowers.append {k : Nat} (hp : Lowers a b p) (hq : Lowers b k q) : Lowers a k (p ++ q) := by
  intro d
  rw [depthFrom_append]
  exact Nat.le_trans (depthFrom_mono (hp d)) (hq d)

/-- Tokens that leave no bracket of their own open do so inside others as well. -/
theorem Lowers.shift (h : Lowers 0 0 p) (k : Nat) : Lowers k k p := fun d => h (d + k)

/-- An opening bracket leaves one more open. -/
theorem lowers_opener (h : t.isOpener = true) : Lowers a (a + 1) [t] := by
  intro d
  simp [Layout.depthAfter, h, Nat.add_assoc]

/-- A closing bracket leaves one fewer open. -/
theorem lowers_closer (h : t.isCloser = true) : Lowers (a + 1) a [t] := by
  intro d
  simp only [depthFrom_cons, depthFrom_nil, Layout.depthAfter, isOpener_of_isCloser h, h, if_true]
  simp only [Bool.false_eq_true, if_false]
  omega

/-- A token that opens nothing leaves no more open. -/
theorem lowers_other (h : t.isOpener = false) : Lowers a a [t] := by
  intro d
  simp only [depthFrom_cons, depthFrom_nil, Layout.depthAfter, h]
  simp only [Bool.false_eq_true, if_false]
  split <;> omega

/-! ### Lambdas -/

/-- Between a `lambda` and the next colon no bracket opens; `header` says whether the
tokens begin between the two. -/
def flatLambdas (header : Bool) : List Token → Bool
  | [] => true
  | t :: ts =>
    !(header && t.isOpener) && flatLambdas (t == .lambdaKeyword || (header && t != .colon)) ts

/-- Tokens that are flat from inside a lambda header are so from outside of one. -/
theorem flatLambdas_of_true (h : flatLambdas true ts = true) : flatLambdas false ts = true := by
  induction ts with
  | nil => rfl
  | cons t ts ih =>
    simp only [flatLambdas, Bool.true_and, Bool.false_and, Bool.not_false, Bool.or_false,
      Bool.and_eq_true] at h ⊢
    cases hlambda : t == .lambdaKeyword with
    | true => simpa [hlambda] using h.2
    | false =>
      by_cases hcolon : t = .colon
      · subst hcolon
        exact h.2
      · have hheader : (t == .lambdaKeyword || t != .colon) = true := by simp [hcolon]
        rw [hheader] at h
        exact ih h.2

/-- Both parts of flat tokens are flat, the second one from outside of a header. -/
theorem flatLambdas_of_append {header : Bool} (h : flatLambdas header (p ++ q) = true) :
    flatLambdas header p = true ∧ flatLambdas false q = true := by
  induction p generalizing header with
  | nil =>
    refine ⟨rfl, ?_⟩
    cases header with
    | true => exact flatLambdas_of_true h
    | false => exact h
  | cons t p ih =>
    rw [List.cons_append, flatLambdas, Bool.and_eq_true] at h
    obtain ⟨hp, hq⟩ := ih h.2
    exact ⟨by rw [flatLambdas, h.1, hp]; rfl, hq⟩

/-! ### Places that follow each other -/

namespace Cursor

/-- The tokens ahead stand in the source behind those passed. -/
def Stands (o : Origin) (c : Cursor) : Prop :=
  IsCut o.text c.lastStop ∧ Placed o.text c.lastStop c.rest

/-- The tokens ahead. -/
def tokens (c : Cursor) : List Token := c.rest.map (·.token)

/-- The tokens ahead from the end of the line on. -/
def lineEnd (c : Cursor) : List Token := c.tokens.dropWhile (!·.isLayout)

/-- A line ends, or the source. -/
def Halts (c : Cursor) : Prop := ∀ t, c.next? = some t → t.isLayout = true

/-- A place that can be reached from another one. -/
structure Follows (o : Origin) (c c' : Cursor) : Prop where
  stands : c'.Stands o
  lastStop_le : c.lastStop ≤ c'.lastStop
  rest : c'.rest <:+ c.rest

/-- A later place with fewer tokens ahead. -/
structure Passes (o : Origin) (c c' : Cursor) : Prop extends Follows o c c' where
  length_lt : c'.rest.length < c.rest.length

/-- A place on the same line. -/
structure OnLine (o : Origin) (c c' : Cursor) : Prop extends Follows o c c' where
  lineEnd : c'.lineEnd = c.lineEnd

/-- A place behind the line; a line that no `newline` ends is passed to its last token. -/
structure PastLine (o : Origin) (c c' : Cursor) : Prop extends Follows o c c' where
  past : (c.lineEnd = .newline :: c'.tokens ∧ c'.afterNewline = true) ∨
    (c.lineEnd = c'.tokens ∧ c'.next? ≠ some .newline)

/-- A place on the same line, where `b` brackets may be open if `a` were. -/
structure Reads (o : Origin) (a b : Nat) (c c' : Cursor) : Prop extends Follows o c c' where
  exists_passed : ∃ passed, c.tokens = passed ++ c'.tokens ∧ (∀ t ∈ passed, t.isLayout = false) ∧
    (flatLambdas false passed = true → Lowers a b passed ∨ c'.Halts)

/-- The counter of the spans does not matter for what follows. -/
@[simp] theorem follows_made : Follows o c { c' with made := n } ↔ Follows o c c' :=
  ⟨fun h => ⟨h.stands, h.lastStop_le, h.rest⟩, fun h => ⟨h.stands, h.lastStop_le, h.rest⟩⟩

/-- The counter of the spans does not matter for passing tokens. -/
@[simp] theorem passes_made : Passes o c { c' with made := n } ↔ Passes o c c' :=
  ⟨fun h => ⟨follows_made.1 h.toFollows, h.length_lt⟩,
    fun h => ⟨follows_made.2 h.toFollows, h.length_lt⟩⟩

/-- The counter of the spans does not matter for keeping to the line. -/
@[simp] theorem onLine_made : OnLine o c { c' with made := n } ↔ OnLine o c c' :=
  ⟨fun h => ⟨follows_made.1 h.toFollows, h.lineEnd⟩,
    fun h => ⟨follows_made.2 h.toFollows, h.lineEnd⟩⟩

/-- The counter of the spans does not matter for passing the line. -/
@[simp] theorem pastLine_made : PastLine o c { c' with made := n } ↔ PastLine o c c' :=
  ⟨fun h => ⟨follows_made.1 h.toFollows, h.past⟩, fun h => ⟨follows_made.2 h.toFollows, h.past⟩⟩

/-- The counter of the spans does not matter for what is read on the line. -/
@[simp] theorem reads_made : Reads o a b c { c' with made := n } ↔ Reads o a b c c' :=
  ⟨fun h => ⟨follows_made.1 h.toFollows, h.exists_passed⟩,
    fun h => ⟨follows_made.2 h.toFollows, h.exists_passed⟩⟩

/-- The next token is the first one ahead. -/
theorem tokens_eq_cons (h : c.next? = some t) : c.tokens = t :: c.advance.tokens := by
  obtain ⟨l, ls, hrest, rfl⟩ := next?_eq_some_iff.1 h
  simp [tokens, hrest]

/-- The first token ahead is the next one. -/
theorem head?_tokens : c.tokens.head? = c.next? := by
  rw [tokens, List.head?_map, next?]

/-- Where tokens are ahead, the first of them is next. -/
theorem next?_of_tokens (h : c.tokens = t :: ts) : c.next? = some t := by
  rw [← head?_tokens, h]
  rfl

/-- Behind the first token, the others are ahead. -/
theorem tokens_advance (h : c.tokens = t :: ts) : c.advance.tokens = ts :=
  (List.cons.inj ((tokens_eq_cons (next?_of_tokens h)).symm.trans h)).2

/-- Behind a token that is no layout, what has been passed ends with it. -/
theorem lastStop_advance (hrest : c.rest = l :: ls) (h : l.token.isLayout = false) :
    c.advance.lastStop = l.extent.stop := by
  unfold advance
  rw [hrest]
  simp [h]

/-- The place behind the next token follows. -/
theorem Stands.advance (hc : c.Stands o) : Follows o c c.advance := by
  obtain ⟨hcut, hplaced⟩ := hc
  cases hrest : c.rest with
  | nil =>
    have hsame : c.advance = c := by
      unfold Cursor.advance
      rw [hrest]
    rw [hsame]
    exact ⟨⟨hcut, hplaced⟩, Nat.le_refl _, List.suffix_refl _⟩
  | cons l ls =>
    rw [hrest] at hplaced
    obtain ⟨hstart, hle, _, hstop, _, hbehind⟩ := hplaced
    have hadvance : c.advance.rest = ls := by simp [hrest]
    have hsuffix : c.advance.rest <:+ c.rest := by
      rw [hadvance, hrest]
      exact List.suffix_cons l ls
    cases hlayout : l.token.isLayout with
    | true =>
      have hlast : c.advance.lastStop = c.lastStop := by
        unfold Cursor.advance
        rw [hrest]
        simp [hlayout]
      refine ⟨?_, Nat.le_of_eq hlast.symm, hsuffix⟩
      rw [Stands, hlast, hadvance]
      exact ⟨hcut, hbehind.of_le (Nat.le_trans hstart hle)⟩
    | false =>
      have hlast := lastStop_advance hrest hlayout
      refine ⟨?_, hlast ▸ Nat.le_trans hstart hle, hsuffix⟩
      rw [Stands, hlast, hadvance]
      exact ⟨hstop, hbehind⟩

/-- A place follows itself. -/
theorem Follows.refl (hc : c.Stands o) : Follows o c c := ⟨hc, Nat.le_refl _, List.suffix_refl _⟩

/-- What follows a later place follows. -/
theorem Follows.trans (h : Follows o c c') (h' : Follows o c' c'') : Follows o c c'' :=
  ⟨h'.stands, Nat.le_trans h.lastStop_le h'.lastStop_le, h'.rest.trans h.rest⟩

/-- No more tokens are ahead of a place that follows. -/
theorem Follows.length_le (h : Follows o c c') : c'.rest.length ≤ c.rest.length :=
  h.rest.length_le

/-- The place behind some of the tokens ahead follows. -/
theorem Stands.advanceBy (hc : c.Stands o) (n : Nat) : Follows o c (c.advanceBy n) := by
  induction n generalizing c with
  | zero => exact Follows.refl hc
  | succ n ih =>
    have h := hc.advance
    exact h.trans (ih h.stands)

/-- The token ahead starts on a border of characters, not before the last one passed ends. -/
theorem Stands.place (hc : c.Stands o) :
    IsCut o.text (c.place o).start ∧ IsCut o.text (c.place o).stop ∧
      c.lastStop ≤ (c.place o).start ∧ (c.place o).start ≤ (c.place o).stop := by
  obtain ⟨hcut, hplaced⟩ := hc
  unfold Cursor.place
  cases hrest : c.rest with
  | nil =>
    exact ⟨isCut_byteLength _, isCut_byteLength _, hcut.le_byteLength, Nat.le_refl _⟩
  | cons l ls =>
    rw [hrest] at hplaced
    exact ⟨hplaced.2.2.1, hplaced.2.2.2.1, hplaced.1, hplaced.2.1⟩

/-- Behind the token ahead, no place is before the end of that token. -/
theorem Stands.place_stop_le (hc : c.Stands o) (h : c.next? = some t) (hline : t.isLayout = false) :
    (c.place o).stop ≤ (c.advanceBy (n + 1)).lastStop := by
  obtain ⟨l, ls, hrest, rfl⟩ := next?_eq_some_iff.1 h
  have hplace : c.place o = l.extent := by
    unfold Cursor.place
    rw [hrest]
  rw [hplace, ← lastStop_advance hrest hline]
  exact (hc.advance.stands.advanceBy n).lastStop_le

/-- Where a token is ahead, passing at least one leaves fewer. -/
theorem length_advanceBy_lt (h : c.next? = some t) :
    (c.advanceBy (n + 1)).rest.length < c.rest.length := by
  obtain ⟨l, ls, hrest, _⟩ := next?_eq_some_iff.1 h
  rw [rest_advanceBy, hrest, List.length_drop, List.length_cons]
  omega

/-- The token behind the next ones stands behind the first of them. -/
theorem Stands.getElem?_rest (hc : c.Stands o) (h : c.rest[n + 1]? = some l) :
    (c.place o).stop ≤ l.extent.start ∧ IsCut o.text l.extent.start := by
  obtain ⟨_, hplaced⟩ := hc
  unfold Cursor.place
  cases hrest : c.rest with
  | nil => rw [hrest] at h; cases h
  | cons l' ls =>
    rw [hrest] at h hplaced
    obtain ⟨hfrom, _, hcut, _⟩ := hplaced.2.2.2.2.2.getElem? h
    exact ⟨hfrom, hcut⟩

/-- To go on and then pass a token passes one. -/
theorem Follows.passes (h : Follows o c c') (h' : Passes o c' c'') : Passes o c c'' :=
  ⟨h.trans h'.toFollows, Nat.lt_of_lt_of_le h'.length_lt h.length_le⟩

/-- To pass a token and then go on passes one. -/
theorem Passes.trans (h : Passes o c c') (h' : Follows o c' c'') : Passes o c c'' :=
  ⟨h.toFollows.trans h', Nat.lt_of_le_of_lt h'.length_le h.length_lt⟩

/-- The place behind a token passes it. -/
theorem Stands.passes_advance (hc : c.Stands o) (h : c.next? = some t) : Passes o c c.advance :=
  ⟨hc.advance, length_advance_lt h⟩

/-! ### Lines -/

/-- There are as many tokens ahead as lexemes. -/
@[simp] theorem length_tokens : c.tokens.length = c.rest.length := List.length_map _

/-- Where no token is ahead, the source ends. -/
theorem halts_of_none (h : c.next? = none) : c.Halts := fun t ht => by simp [h] at ht

/-- Where a layout token is next, the line ends. -/
theorem halts_of_isLayout (h : c.next? = some t) (ht : t.isLayout = true) : c.Halts := by
  intro u hu
  obtain rfl := Option.some.inj (h.symm.trans hu)
  exact ht

/-- Where the line ends, everything ahead stands from its end on. -/
theorem lineEnd_of_halts (h : c.Halts) : c.lineEnd = c.tokens := by
  rw [lineEnd]
  cases htokens : c.tokens with
  | nil => rfl
  | cons t ts =>
    have hlayout := h t (next?_of_tokens htokens)
    rw [List.dropWhile_cons_of_neg (by simp [hlayout])]

/-- Passing tokens that are no layout keeps to the line. -/
theorem lineEnd_of_tokens_eq_append (h : c.tokens = p ++ c'.tokens)
    (hline : ∀ t ∈ p, t.isLayout = false) : c'.lineEnd = c.lineEnd := by
  rw [lineEnd, lineEnd, h, List.dropWhile_append_of_pos fun t ht => by simp [hline t ht]]

/-- In front of a token of the line, more is ahead than the end of the line. -/
theorem length_lineEnd_lt (h : c.next? = some t) (hline : t.isLayout = false) :
    c.lineEnd.length < c.rest.length := by
  have hle := (List.dropWhile_suffix (!·.isLayout) (l := c.advance.tokens)).length_le
  rw [lineEnd, ← length_tokens, tokens_eq_cons h, List.dropWhile_cons_of_pos (by simp [hline])]
  exact Nat.lt_succ_of_le hle

/-- A place is on its own line. -/
theorem OnLine.refl (hc : c.Stands o) : OnLine o c c := ⟨Follows.refl hc, rfl⟩

/-- A place on the line of a later place of the line is on it. -/
theorem OnLine.trans (h : OnLine o c c') (h' : OnLine o c' c'') : OnLine o c c'' :=
  ⟨h.toFollows.trans h'.toFollows, h'.lineEnd.trans h.lineEnd⟩

/-- The line of a later place of it ends at the same place. -/
theorem OnLine.pastLine (h : OnLine o c c') (h' : PastLine o c' c'') : PastLine o c c'' :=
  ⟨h.toFollows.trans h'.toFollows, h.lineEnd ▸ h'.past⟩

/-- What is read with brackets counted keeps to the line. -/
theorem Reads.onLine (h : Reads o a b c c') : OnLine o c c' := by
  obtain ⟨p, hp, hline, _⟩ := h.exists_passed
  exact ⟨h.toFollows, lineEnd_of_tokens_eq_append hp hline⟩

/-- The place behind a token that is no layout is on the line. -/
theorem Stands.onLine_advance (hc : c.Stands o) (h : c.next? = some t)
    (hline : t.isLayout = false) : OnLine o c c.advance := by
  refine ⟨hc.advance, lineEnd_of_tokens_eq_append (p := [t]) (tokens_eq_cons h) ?_⟩
  simpa using hline

/-- A line end stands in front of a place if it is what has just been passed. -/
theorem afterNewline_advance (h : c.next? = some t) : c.advance.afterNewline = (t == .newline) := by
  obtain ⟨l, ls, hrest, rfl⟩ := next?_eq_some_iff.1 h
  unfold advance
  rw [hrest]

/-- The place behind a `newline` is past the line. -/
theorem Stands.pastLine_newline (hc : c.Stands o) (h : c.next? = some .newline) :
    PastLine o c c.advance := by
  refine ⟨hc.advance, .inl ⟨?_, afterNewline_advance h⟩⟩
  rw [lineEnd_of_halts (halts_of_isLayout h rfl), tokens_eq_cons h]

/-- Where the line ends without a `newline`, the place is past it already. -/
theorem Stands.pastLine_of_halts (hc : c.Stands o) (h : c.Halts) (hnext : c.next? ≠ some .newline) :
    PastLine o c c :=
  ⟨Follows.refl hc, .inr ⟨lineEnd_of_halts h, hnext⟩⟩

/-- A line with a token on it is not passed without passing a token. -/
theorem PastLine.passes (h : PastLine o c c') (hnext : c.next? = some t)
    (ht : t.isShift = false) : Passes o c c' := by
  refine ⟨h.toFollows, ?_⟩
  have hle := (List.dropWhile_suffix (!·.isLayout) (l := c.tokens)).length_le
  rcases h.past with ⟨hend, _⟩ | ⟨hend, hnewline⟩
  · have hlength := congrArg List.length hend
    rw [lineEnd, List.length_cons, length_tokens] at hlength
    rw [length_tokens] at hle
    omega
  · cases hline : t.isLayout with
    | true =>
      -- the line is empty, so nothing is passed, and a `newline` would be ahead
      obtain rfl : t = .newline := by simpa [Token.isLayout, ht] using hline
      rw [lineEnd_of_halts (halts_of_isLayout hnext rfl)] at hend
      rw [← head?_tokens, ← hend, head?_tokens] at hnewline
      exact absurd hnext hnewline
    | false =>
      have hlength := congrArg List.length hend
      rw [length_tokens] at hlength
      rw [← hlength]
      exact length_lineEnd_lt hnext hline

/-- To read nothing leaves as many brackets open. -/
theorem Reads.refl (hc : c.Stands o) : Reads o a a c c :=
  ⟨Follows.refl hc, [], rfl, by simp, fun _ => .inl lowers_nil⟩

/-- What is left open by a first stretch may be closed by a second one. -/
theorem Reads.trans {k : Nat} (h : Reads o a b c c') (h' : Reads o b k c' c'') :
    Reads o a k c c'' := by
  obtain ⟨p, hp, hline, hlowers⟩ := h.exists_passed
  obtain ⟨q, hq, hline', hlowers'⟩ := h'.exists_passed
  refine ⟨h.toFollows.trans h'.toFollows, p ++ q, by rw [hp, hq, List.append_assoc], ?_, ?_⟩
  · intro t ht
    exact (List.mem_append.1 ht).elim (hline t) (hline' t)
  · intro hflat
    obtain ⟨hflatp, hflatq⟩ := flatLambdas_of_append hflat
    rcases hlowers hflatp with hlow | hhalts
    · exact (hlowers' hflatq).imp_left hlow.append
    · -- nothing is passed behind the end of a line
      right
      have hnil : q = [] := by
        cases q with
        | nil => rfl
        | cons t q =>
          exact absurd (hhalts t (next?_of_tokens hq)) (by simp [hline' t List.mem_cons_self])
      intro t ht
      refine hhalts t ?_
      rw [← head?_tokens, hq, hnil, List.nil_append, head?_tokens, ht]

/-- What opens nothing of its own does so inside other brackets as well. -/
theorem Reads.shift (h : Reads o 0 0 c c') (k : Nat) : Reads o k k c c' := by
  obtain ⟨p, hp, hline, hlowers⟩ := h.exists_passed
  exact ⟨h.toFollows, p, hp, hline, fun hflat => (hlowers hflat).imp_left fun h => h.shift k⟩

/-- One token of a line is passed. -/
theorem Stands.reads_advance (hc : c.Stands o) (h : c.next? = some t) (hline : t.isLayout = false)
    (hlowers : Lowers a b [t]) : Reads o a b c c.advance :=
  ⟨hc.advance, [t], by rw [tokens_eq_cons h]; rfl, by simpa using hline, fun _ => .inl hlowers⟩

/-- A token of a line that opens no bracket is passed. -/
theorem Stands.reads_other (hc : c.Stands o) (h : c.next? = some t) (hline : t.isLayout = false)
    (hopener : t.isOpener = false) : Reads o a a c c.advance :=
  hc.reads_advance h hline (lowers_other hopener)

/-- Some tokens of a line are passed. -/
theorem Stands.reads_advanceBy (hc : c.Stands o)
    (hline : ∀ t ∈ c.tokens.take n, t.isLayout = false)
    (hlowers : flatLambdas false (c.tokens.take n) = true →
      Lowers a b (c.tokens.take n) ∨ (c.advanceBy n).Halts) : Reads o a b c (c.advanceBy n) := by
  refine ⟨hc.advanceBy n, c.tokens.take n, ?_, hline, hlowers⟩
  rw [tokens, tokens, rest_advanceBy, List.map_drop, List.take_append_drop]

end Cursor

/-! ### Runs -/

/-- Flat tokens are flat behind the first of them, wherever the reader takes the header to go on. -/
theorem flatLambdas_tail {header header' : Bool} (h : flatLambdas header (t :: ts) = true)
    (hheader : header' = true → (t == .lambdaKeyword || (header && t != .colon)) = true) :
    flatLambdas header' ts = true := by
  rw [flatLambdas, Bool.and_eq_true] at h
  cases header' with
  | true => exact hheader rfl ▸ h.2
  | false =>
    cases hnext : (t == .lambdaKeyword || (header && t != .colon)) with
    | true => exact flatLambdas_of_true (hnext ▸ h.2)
    | false => exact hnext ▸ h.2

/-- The next `n` tokens are on one line, and of `a` brackets they leave `b` open, unless
the line ends behind them. -/
structure Run (header : Bool) (a b n : Nat) (ls : List Lexeme) : Prop where
  line : ∀ t ∈ (ls.map (·.token)).take n, t.isLayout = false
  lowers : flatLambdas header ((ls.map (·.token)).take n) = true →
    Lowers a b ((ls.map (·.token)).take n) ∨
      ∀ t, (ls.map (·.token))[n]? = some t → t.isLayout = true

/-- The empty stretch is a run. -/
theorem run_zero {header : Bool} : Run header a a 0 ls := ⟨by simp, fun _ => .inl lowers_nil⟩

/-- At the end of a line the empty stretch is a run, whatever is left open. -/
theorem run_zero_of_halt {header : Bool} (h : ∀ l ∈ ls.head?, l.token.isLayout = true) :
    Run header a b 0 ls := by
  refine ⟨by simp, fun _ => .inr fun t ht => ?_⟩
  cases ls with
  | nil => cases ht
  | cons l ls => exact Option.some.inj ht ▸ h l rfl

/-- One more token in front of a run, that changes the brackets as the run expects. -/
theorem Run.cons {header header' : Bool} {k : Nat} (h : Run header' k b n ls)
    (hline : l.token.isLayout = false)
    (hlowers : (header && l.token.isOpener) = false → Lowers a k [l.token])
    (hheader : header' = true →
      (l.token == .lambdaKeyword || (header && l.token != .colon)) = true) :
    Run header a b (n + 1) (l :: ls) := by
  refine ⟨?_, fun hflat => ?_⟩
  · rintro t (_ | ⟨_, ht⟩)
    · exact hline
    · exact h.line t ht
  · rw [List.map_cons, List.take_succ_cons] at hflat ⊢
    have hfirst : (header && l.token.isOpener) = false := by
      rw [flatLambdas, Bool.and_eq_true, Bool.not_eq_true'] at hflat
      exact hflat.1
    exact (h.lowers (flatLambdas_tail hflat hheader)).imp_left (hlowers hfirst).append

/-- A run of the tokens ahead is read. -/
theorem Cursor.Stands.reads_run (hc : c.Stands o) (h : Run false a b n c.rest) :
    c.Reads o a b (c.advanceBy n) := by
  refine hc.reads_advanceBy h.line fun hflat => (h.lowers hflat).imp_right fun hhalt t ht => ?_
  rw [← Cursor.head?_tokens, Cursor.tokens, Cursor.rest_advanceBy, List.map_drop,
    List.head?_drop] at ht
  exact hhalt t ht

/-- The group behind an opening bracket is always found. -/
theorem exists_group? (d : Nat) (ls : List Lexeme) :
    ∃ g, group? (d + 1) ls = some g ∧ Run false (d + 1) 0 g.length ls ∧
      (g.closed = true → 0 < g.length ∧ g.length ≤ ls.length) := by
  induction ls generalizing d with
  | nil => exact ⟨⟨0, false⟩, rfl, run_zero_of_halt (by simp), by simp⟩
  | cons l ls ih =>
    have hgrow : ∀ {k}, l.token.isLayout = false → Lowers (d + 1) (k + 1) [l.token] →
        ∃ g, (group? (k + 1) ls).map Group.grow = some g ∧ Run false (d + 1) 0 g.length (l :: ls) ∧
          (g.closed = true → 0 < g.length ∧ g.length ≤ (l :: ls).length) := by
      intro k hline hlowers
      obtain ⟨g, hg, hrun, hclosed⟩ := ih k
      refine ⟨g.grow, by rw [hg]; rfl, hrun.cons hline (fun _ => hlowers) (by simp), fun h => ?_⟩
      exact ⟨Nat.succ_pos _, Nat.succ_le_succ (hclosed h).2⟩
    unfold group?
    split
    · rename_i hopener
      exact hgrow (isLayout_of_isOpener hopener) (lowers_opener hopener)
    · rename_i hopener
      split
      · rename_i hcloser
        have hline := isLayout_of_isCloser hcloser
        cases d with
        | zero =>
          refine ⟨⟨1, true⟩, rfl, ?_, fun _ => ⟨Nat.one_pos, by simp⟩⟩
          have hrun : Run false 0 0 0 ls := run_zero
          exact hrun.cons hline (fun _ => lowers_closer hcloser) (by simp)
        | succ d => exact hgrow hline (lowers_closer hcloser)
      · split
        · rename_i hlayout
          exact ⟨⟨0, false⟩, rfl, run_zero_of_halt (by simpa using hlayout), by simp⟩
        · rename_i hlayout
          exact hgrow (by simpa using hlayout) (lowers_other (by simpa using hopener))

/-- An expression of no modelled shape has a length, and leaves no bracket open; `header` says
whether it begins in the header of a lambda. -/
def HasLooseLength (header : Bool) (d : Nat) (ls : List Lexeme) : Prop :=
  ∃ n, looseLength? d header ls = some n ∧ Run header d 0 n ls

/-- One more token in front. -/
theorem HasLooseLength.grow {header next : Bool} {k : Nat} (h : HasLooseLength next k ls)
    (hline : l.token.isLayout = false)
    (hlowers : (header && l.token.isOpener) = false → Lowers d k [l.token])
    (hnext : next = true → (l.token == .lambdaKeyword || (header && l.token != .colon)) = true) :
    ∃ n, (looseLength? k next ls).map (· + 1) = some n ∧ Run header d 0 n (l :: ls) := by
  obtain ⟨n, hn, hrun⟩ := h
  exact ⟨n + 1, by rw [hn]; rfl, hrun.cons hline hlowers hnext⟩

/-- Inside brackets, one more token goes to the length of what is behind it. -/
theorem hasLooseLength_inside (hline : l.token.isLayout = false)
    (ih : ∀ k, HasLooseLength false k ls) : HasLooseLength false (d + 1) (l :: ls) := by
  unfold HasLooseLength looseLength?
  rw [if_neg (by simp [hline])]
  dsimp only
  split
  · rename_i hopener
    exact (ih _).grow hline (fun _ => lowers_opener hopener) (by simp)
  · rename_i hopener
    split
    · rename_i hcloser
      exact (ih _).grow hline (fun _ => lowers_closer hcloser) (by simp)
    · exact (ih _).grow hline (fun _ => lowers_other (by simpa using hopener)) (by simp)

/-- Outside of brackets, one more token goes to the length of what is behind it, or the expression
ends. -/
theorem hasLooseLength_outside {header : Bool} (hline : l.token.isLayout = false)
    (ih : ∀ k, HasLooseLength false k ls) (ih' : HasLooseLength true 0 ls) :
    HasLooseLength header 0 (l :: ls) := by
  have ih₀ : ∀ next, HasLooseLength next 0 ls := fun next => by
    cases next with
    | true => exact ih'
    | false => exact ih 0
  unfold HasLooseLength looseLength?
  rw [if_neg (by simp [hline])]
  dsimp only
  split
  · rename_i hlambda
    exact ih'.grow hline (fun _ => lowers_other (by rw [hlambda]; rfl)) (fun _ => by simp [hlambda])
  · split
    · rename_i hinside
      subst hinside
      exact (ih₀ _).grow hline (fun h => lowers_other (by simpa using h))
        (fun h => by simpa using Or.inr (of_decide_eq_true h))
    · rename_i hinside
      obtain rfl : header = false := by simpa using hinside
      split
      · exact ⟨0, rfl, run_zero⟩
      · rename_i hends
        split
        · rename_i hopener
          exact (ih 1).grow hline (fun _ => lowers_opener hopener) (by simp)
        · rename_i hopener
          rw [if_neg (by simp [isCloser_of_not_endsExpression hends])]
          exact (ih 0).grow hline (fun _ => lowers_other (by simpa using hopener)) (by simp)

/-- There is a length, except from inside brackets in a header. -/
theorem hasLooseLength {header : Bool} (hheader : header = true → d = 0) (ls : List Lexeme) :
    HasLooseLength header d ls := by
  induction ls generalizing d header with
  | nil => exact ⟨0, rfl, run_zero_of_halt (by simp)⟩
  | cons l ls ih =>
    have hfalse : ∀ k, HasLooseLength false k ls := fun _ => ih (by simp)
    cases hlayout : l.token.isLayout with
    | true =>
      unfold HasLooseLength looseLength?
      exact ⟨0, if_pos hlayout, run_zero_of_halt (by simpa using hlayout)⟩
    | false =>
      cases d with
      | zero => exact hasLooseLength_outside hlayout hfalse (ih fun _ => rfl)
      | succ d =>
        obtain rfl : header = false := by
          cases header with
          | true => cases hheader rfl
          | false => rfl
        exact hasLooseLength_inside hlayout hfalse

/-- A block in a block is one level further in. -/
theorem blockLength?_indent {level : Nat} (h : l.token = .indent) :
    blockLength? level (l :: ls) = (blockLength? (level + 1) ls).map (· + 1) := by
  conv => lhs; unfold blockLength?
  exact if_pos h

/-- The last `dedent` ends the block. -/
theorem blockLength?_last (h : l.token = .dedent) : blockLength? 1 (l :: ls) = some 1 := by
  rw [blockLength?, if_neg (by simp [h]), if_pos h]

/-- A `dedent` of an inner block leads one level out. -/
theorem blockLength?_dedent {level : Nat} (h : l.token = .dedent) :
    blockLength? (level + 2) (l :: ls) = (blockLength? (level + 1) ls).map (· + 1) := by
  rw [blockLength?, if_neg (by simp [h]), if_pos h]

/-- Any other token stands on the same level. -/
theorem blockLength?_other {level : Nat} (h : l.token.isShift = false) :
    blockLength? level (l :: ls) = (blockLength? level ls).map (· + 1) := by
  have hindent : l.token ≠ .indent := fun heq => by simp [heq, Token.isShift] at h
  have hdedent : l.token ≠ .dedent := fun heq => by simp [heq, Token.isShift] at h
  conv => lhs; unfold blockLength?
  rw [if_neg hindent, if_neg hdedent]

/-- The block behind an `indent` always has a length. -/
theorem exists_blockLength? (level : Nat) (ls : List Lexeme) :
    ∃ n, blockLength? (level + 1) ls = some n := by
  induction ls generalizing level with
  | nil => exact ⟨0, rfl⟩
  | cons l ls ih =>
    by_cases hindent : l.token = .indent
    · obtain ⟨n, hn⟩ := ih (level + 1)
      exact ⟨n + 1, by rw [blockLength?_indent hindent, hn]; rfl⟩
    · by_cases hdedent : l.token = .dedent
      · cases level with
        | zero => exact ⟨1, blockLength?_last hdedent⟩
        | succ level =>
          obtain ⟨n, hn⟩ := ih level
          exact ⟨n + 1, by rw [blockLength?_dedent hdedent, hn]; rfl⟩
      · obtain ⟨n, hn⟩ := ih level
        exact ⟨n + 1, by rw [blockLength?_other (isShift_eq_false hindent hdedent), hn]; rfl⟩

/-- The block that an `indent` opens always has a length. -/
theorem exists_blockLength?_cons (hl : l.token = .indent) (ls : List Lexeme) :
    ∃ n, blockLength? 1 ls = some n ∧ blockLength? 0 (l :: ls) = some (n + 1) := by
  obtain ⟨n, hn⟩ := exists_blockLength? 0 ls
  exact ⟨n, hn, by rw [blockLength?_indent hl, hn]; rfl⟩

/-- The rest of a statement reaches to the end of its line. -/
theorem Cursor.Stands.pastLine_statement (hc : c.Stands o) (colon : Bool) :
    c.PastLine o (c.advanceBy (statement colon c.rest).length) := by
  generalize hls : c.rest = ls
  induction ls generalizing c colon with
  | nil =>
    have hnext : c.next? = none := Cursor.next?_eq_none_iff.2 hls
    exact hc.pastLine_of_halts (Cursor.halts_of_none hnext) (by simp [hnext])
  | cons l ls ih =>
    have hnext : c.next? = some l.token := Cursor.next?_eq_some_iff.2 ⟨l, ls, hls, rfl⟩
    unfold statement
    split
    · rename_i hnewline
      exact hc.pastLine_newline (hnewline ▸ hnext)
    · rename_i hnewline
      split
      · rename_i hshift
        have hlayout : l.token.isLayout = true := by simp [Token.isLayout, hshift]
        exact hc.pastLine_of_halts (Cursor.halts_of_isLayout hnext hlayout)
          (by simp [hnext, hnewline])
      · rename_i hshift
        have hline : l.token.isLayout = false := by simp [Token.isLayout, hshift, hnewline]
        have hadvance := hc.onLine_advance hnext hline
        exact hadvance.pastLine (ih hadvance.stands _ (by simp [hls]))

/-- String literals that stand in a source have values. -/
theorem exists_joinLiterals? {text : List Char} {m : Nat} (h : Placed text m ls)
    (hn : n ≤ stringCount ls) : ∃ value, joinLiterals? (ls.take n) = some value := by
  induction n generalizing ls m with
  | zero => exact ⟨"", by rw [List.take_zero]; rfl⟩
  | succ n ih =>
    cases ls with
    | nil => exact absurd hn (by simp [stringCount])
    | cons l ls =>
      cases hl : l.token.isString with
      | false => exact absurd hn (by simp [stringCount, hl])
      | true =>
        obtain ⟨_, _, _, _, hreadable, hrest⟩ := h
        obtain ⟨literal, hliteral⟩ : ∃ literal, l.token = .string literal := by
          cases h : l.token <;> simp_all [Token.isString]
        obtain ⟨rest, hjoined⟩ := ih hrest (by simpa [stringCount, hl] using hn)
        rw [hliteral, Readable] at hreadable
        obtain ⟨value, hvalue⟩ := Option.isSome_iff_exists.1 hreadable
        refine ⟨value ++ rest, ?_⟩
        rw [List.take_succ_cons, joinLiterals?, hliteral]
        simp [hvalue, hjoined]

end Outline
end Lineage
