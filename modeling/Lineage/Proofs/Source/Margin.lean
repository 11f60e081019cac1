/-
# A common margin is invisible

`indentLines` puts the same blanks at the start of every line.  What a text begins with stays
what it is (`scan_indent`), so the lexemes follow the ones from before, all of them so many
columns further to the right (`follows_indent`), and the layout reads the same tokens or
fails alike (`tokenize_margin`).
-/

import Lineage.Proofs.Source.Pieces

namespace Lineage
namespace Source

open Text

variable {cs x y v rest : List Char} {c quote : Char} {s : Scan} {t : Token} {n k : Nat}
  {last : Bool} {p p' : Position}

/-! ### The indented text -/

/-- The blanks before a line; an empty last line may do without them. -/
def margin (k : Nat) (last : Bool) (line : List Char) : List Char :=
  if line = [] ∧ last = false then [] else List.replicate k ' '

/-- The text with blanks before every line but the first. -/
def indentFrom (k : Nat) (last : Bool) : List Char → List Char
  | [] => []
  | c :: cs =>
    if c = '\n' then '\n' :: (margin k last cs ++ indentFrom k last cs)
    else c :: indentFrom k last cs

/-- The text with `k` blanks at the start of every line; `last` says whether an empty last
line has them too. -/
def indentLines (k : Nat) (last : Bool) (cs : List Char) : List Char :=
  margin k last cs ++ indentFrom k last cs

/-- A margin is made of spaces. -/
theorem eq_space_of_mem_margin (h : c ∈ margin k last cs) : c = ' ' := by
  unfold margin at h
  split at h
  · cases h
  · exact List.eq_of_mem_replicate h

/-- Within a line nothing is put. -/
theorem indentFrom_append (h : '\n' ∉ y) (rest : List Char) :
    indentFrom k last (y ++ rest) = y ++ indentFrom k last rest := by
  induction y with
  | nil => rfl
  | cons c y ih =>
    rw [List.mem_cons, not_or] at h
    rw [List.cons_append, indentFrom, if_neg (Ne.symm h.1), ih h.2, List.cons_append]

/-- Behind a line break the next line has its margin. -/
theorem indentFrom_newline (cs : List Char) :
    indentFrom k last ('\n' :: cs) = '\n' :: indentLines k last cs := by
  rw [indentFrom, if_pos rfl, indentLines]

/-! ### What the lines begin with -/

/-- Blanks before a text that is not closed do not close it. -/
theorem tripleLength?_margin (hquote : quote ≠ ' ') (h : tripleLength? quote cs = none)
    (line : List Char) : tripleLength? quote (margin k last line ++ cs) = none := by
  have hblank : ∀ c ∈ margin k last line, c = ' ' := fun c hc => eq_space_of_mem_margin hc
  generalize margin k last line = blanks at hblank
  induction blanks with
  | nil => exact h
  | cons c blanks ih =>
    obtain rfl := hblank c List.mem_cons_self
    rw [List.cons_append, tripleLength?_cons (by decide), if_neg fun heq => hquote heq.1.symm,
      ih fun d hd => hblank d (List.mem_cons_of_mem _ hd), Option.map_none]

/-- The text keeps its first character. -/
theorem head?_indentFrom (cs : List Char) : (indentFrom k last cs).head? = cs.head? := by
  cases cs with
  | nil => rfl
  | cons c cs =>
    rw [indentFrom]
    split
    · rename_i hc
      rw [hc, List.head?_cons, List.head?_cons]
    · rw [List.head?_cons, List.head?_cons]

/-- Two quotes that begin the text with its margins begin the text. -/
theorem take_indentFrom (hquote : quote ≠ '\n')
    (h : (indentFrom k last cs).take 2 = [quote, quote]) : cs.take 2 = [quote, quote] := by
  rw [take_two_eq_iff, head?_indentFrom] at h
  obtain ⟨hhead, htail⟩ := h
  obtain ⟨ds, rfl⟩ := List.head?_eq_some_iff.1 hhead
  rw [indentFrom, if_neg hquote, List.tail_cons, head?_indentFrom] at htail
  exact take_two_eq_iff.2 ⟨hhead, htail⟩

/-- **A text that is not closed is not closed by a margin.** -/
theorem tripleLength?_indentFrom (hquote : isQuote quote = true) (cs : List Char) :
    tripleLength? quote cs = none → tripleLength? quote (indentFrom k last cs) = none := by
  have hblank : quote ≠ ' ' := ne_of_isQuote hquote rfl
  have hbreak : quote ≠ '\n' := ne_of_isQuote hquote rfl
  induction cs using escape_induction with
  | nil => exact fun h => h
  | last => exact fun h => h
  | escape b y ih =>
    rw [tripleLength?_escape, Option.map_eq_none_iff]
    intro h
    rw [indentFrom, if_neg (by decide), indentFrom]
    split
    · rw [tripleLength?_escape, tripleLength?_margin hblank (ih h), Option.map_none]
    · rw [tripleLength?_escape, ih h, Option.map_none]
  | cons a y ha ih =>
    rw [tripleLength?_cons ha]
    split
    · exact fun h => nomatch h
    · rename_i hopen
      rw [Option.map_eq_none_iff]
      intro h
      rw [indentFrom]
      split
      · rw [tripleLength?_cons (by decide), if_neg fun heq => hbreak heq.1.symm,
          tripleLength?_margin hblank (ih h), Option.map_none]
      · rw [tripleLength?_cons ha, if_neg fun heq => hopen ⟨heq.1, take_indentFrom hbreak heq.2⟩,
          ih h, Option.map_none]

/-- The token is no literal of several lines. -/
def Token.isOneLine : Token → Bool
  | .string text => !text.toList.contains '\n'
  | _ => true

/-- A character behind a part is among any more characters than the part has. -/
theorem mem_take_append_cons (h : x.length < n) : c ∈ (x ++ c :: v).take n := by
  obtain ⟨m, rfl⟩ := Nat.exists_eq_add_of_lt h
  rw [Nat.add_assoc, List.take_length_add_append, List.take_succ_cons]
  exact List.mem_append_right x List.mem_cons_self

/-- A literal of one line that three quotes open is closed in its line. -/
theorem tripleLength?_le_of_isOneLine {p : List Char} (hp : IsStringPrefix p)
    (hquote : isQuote quote = true) (htwo : y.take 2 = [quote, quote])
    (h : ∀ t n, scan (p ++ quote :: (y ++ '\n' :: v)) = .token t n → t.isOneLine = true)
    (hclosed : tripleLength? quote (y.drop 2 ++ '\n' :: v) = some n) : n ≤ (y.drop 2).length := by
  have hlength := two_le_length_of_take htwo
  have hstring := scanString?_quoted (r := y ++ '\n' :: v) hp hquote
  rw [List.take_append_of_le_length hlength, if_pos htwo,
    List.drop_append_of_le_length hlength, hclosed] at hstring
  have hline := h _ _ (scan_of_scanString? hstring)
  rw [Token.isOneLine, String.toList_ofList, Bool.not_eq_true', List.contains_eq_mem,
    decide_eq_false_iff_not] at hline
  refine Nat.le_of_not_lt fun hlt => hline ?_
  rw [List.length_drop] at hlt
  have hin : (p ++ quote :: y).length < p.length + 3 + n := by
    rw [List.length_append, List.length_cons]
    omega
  rw [← List.cons_append, ← List.append_assoc]
  exact mem_take_append_cons hin

/-- A line of a text without literals of several lines closes what it opens, whether the lines
behind it have a margin or not. -/
theorem closesInLine_indentLines
    (h : ∀ t n, scan (x ++ '\n' :: v) = .token t n → t.isOneLine = true) (hx : '\n' ∉ x) :
    ClosesInLine x v (indentLines k last v) := by
  rintro p quote y rfl hp hquote htwo
  have hy : '\n' ∉ y.drop 2 := fun hmem =>
    hx (List.mem_append_right p (List.mem_cons_of_mem _ (List.mem_of_mem_drop hmem)))
  rw [List.append_assoc, List.cons_append] at h
  cases hclosed : tripleLength? quote (y.drop 2 ++ '\n' :: v) with
  | none =>
    have hopen := @tripleLength?_indentFrom _ k last hquote _ hclosed
    rw [indentFrom_append hy, indentFrom_newline] at hopen
    exact ⟨hopen, fun n hn => nomatch hn⟩
  | some n =>
    have hle := tripleLength?_le_of_isOneLine hp hquote htwo h hclosed
    refine ⟨tripleLength?_append (tripleLength?_of_append hclosed hle) _, fun m hm => ?_⟩
    rw [← Option.some.inj hm]
    exact hle

/-- **What a text begins with stays what it is**, unless it is a literal of several lines. -/
theorem scan_indent (h : ∀ t n, scan cs = .token t n → t.isOneLine = true) :
    scan (indentFrom k last cs) = scan cs := by
  by_cases hbreak : '\n' ∈ cs
  · obtain ⟨x, v, rfl, hx⟩ := List.eq_append_cons_of_mem hbreak
    rw [indentFrom_append hx, indentFrom_newline]
    exact scan_line (closesInLine_indentLines h hx)
  · rw [← List.append_nil cs, indentFrom_append hbreak]
    rfl

/-! ### The lexemes of the indented text -/

/-- The characters of a run are those that it takes. -/
theorem take_runLength (q : Char → Bool) (cs : List Char) :
    cs.take (runLength q cs) = cs.takeWhile q :=
  (List.prefix_iff_eq_take.1 (List.takeWhile_prefix q)).symm

/-- What ends a run is not in it. -/
theorem not_mem_of_takeWhile {q : Char → Bool} (h : q c = false) : c ∉ cs.takeWhile q := by
  intro hmem
  rw [List.all_eq_true.1 List.all_takeWhile c hmem] at h
  cases h

/-- A line break ends what it is in. -/
theorem exists_of_isBreak {ending : List Char} (h : IsBreak ending) (y : List Char)
    (hy : '\n' ∉ y) : ∃ z, y ++ ending = z ++ ['\n'] ∧ '\n' ∉ z := by
  rcases h with rfl | rfl
  · exact ⟨y, rfl, hy⟩
  · exact ⟨y ++ ['\r'], by simp, by simpa using hy⟩

/-- A piece is within a line or ends one. -/
theorem Begins.line_cases (h : Begins cs s) (hgood : ∀ n, s ≠ .bad n)
    (hline : ∀ t n, s = .token t n → t.isOneLine = true) :
    '\n' ∉ cs.take s.length ∨ ∃ z, cs.take s.length = z ++ ['\n'] ∧ '\n' ∉ z := by
  cases h with
  | @blanks c hc cs =>
    have hne : '\n' ≠ c := fun heq => by
      rw [← heq] at hc
      cases hc
    rw [Scan.length, List.take_succ_cons, blanksLength, take_runLength, List.mem_cons, not_or]
    exact .inl ⟨hne, not_mem_of_takeWhile rfl⟩
  | comment cs =>
    rw [Scan.length, List.take_succ_cons, take_runLength, List.mem_cons, not_or]
    exact .inl ⟨by decide, not_mem_of_takeWhile rfl⟩
  | joined hending cs =>
    rw [Scan.length, List.take_succ_cons, List.take_left]
    exact .inr (exists_of_isBreak hending ['\\'] (by decide))
  | newline hending cs =>
    rw [Scan.length, List.take_left]
    exact .inr (exists_of_isBreak hending [] (by simp))
  | literal hc h =>
    cases s with
    | token t n =>
      obtain ⟨p, quote, r, heq, hp, hquote⟩ := exists_quoted h
      have hone := hline t n rfl
      rw [heq] at h ⊢
      rw [(quoted_cases hp hquote h).1, Token.isOneLine, String.toList_ofList] at hone
      exact .inl (by simpa [Scan.length] using hone)
    | skip n => exact absurd rfl (ne_skip_of_scanString? h n)
    | bad n => exact absurd rfl (hgood n)
  | @lexical c ds _ hc h hmem =>
    refine .inl fun hbreak => ?_
    obtain ⟨_, f, hf, hlength⟩ := exists_confined hmem
    have hwhole : s.length ≤ (c :: ds).length := hlength ▸ hf.le_length _
    obtain ⟨u, v, hsplit⟩ := List.append_of_mem hbreak
    have hle : s.length ≤ u.length := by
      have htext := List.take_append_drop s.length (c :: ds)
      rw [hsplit, List.append_assoc] at htext
      rw [hlength, ← htext]
      exact hf.within u _ (headIn_cons (by decide))
    have hlen := congrArg List.length hsplit
    rw [List.length_take_of_le hwhole, List.length_append, List.length_cons] at hlen
    omega
  | bad => exact absurd rfl (hgood 1)

/-- Characters that are no tabs and no line breaks take one column. -/
theorem column_after_apart (htab : '\t' ∉ y) (hbreak : '\n' ∉ y)
    (h : p'.column = p.column + k) : (p'.after y).column = (p.after y).column + k := by
  induction y generalizing p p' with
  | nil => exact h
  | cons c y ih =>
    rw [List.mem_cons, not_or] at htab hbreak
    refine ih htab.2 hbreak.2 ?_
    simp only [Position.advance, Position.nextColumn, if_neg (Ne.symm htab.1),
      if_neg (Ne.symm hbreak.1), h]
    omega

/-- Behind `k` spaces the column is `k` further. -/
theorem column_after_replicate (k : Nat) (p : Position) :
    (p.after (List.replicate k ' ')).column = p.column + k := by
  induction k generalizing p with
  | zero => rfl
  | succ k ih =>
    rw [List.replicate_succ, Position.after_cons, ih, Position.advance]
    exact Nat.add_right_comm p.column 1 k

/-- The lexemes of the second text follow those of the first one, so many columns further. -/
def LinesFollow (k : Nat) (p : Position) (cs : List Char) (p' : Position) (ds : List Char) : Prop :=
  (∀ f ∈ (flatFrom 0 p cs).lexemes, f.token.isOneLine = true) →
    Follows k true (flatFrom 0 p cs).lexemes (flatFrom 0 p' ds).lexemes ∧
      (flatFrom 0 p' ds).fault.isSome = (flatFrom 0 p cs).fault.isSome

/-- The lexemes of the indented text follow those of the text. -/
def Indents (k : Nat) (last : Bool) (cs : List Char) : Prop :=
  ∀ p p' : Position, p'.column = p.column + k → LinesFollow k p cs p' (indentFrom k last cs)

/-- At the start of a line they follow behind its margin. -/
theorem Indents.lines (h : Indents k last cs) (hp : p.column = 0) (hp' : p'.column = 0) :
    LinesFollow k p cs p' (indentLines k last cs) := by
  have hblanks : ∀ c ∈ margin k last cs, isBlank c = true := fun c hc => by
    rw [eq_space_of_mem_margin hc]
    rfl
  intro hline
  rw [indentLines, flatFrom_blanks hblanks]
  by_cases hempty : cs = []
  · subst hempty
    exact ⟨.nil true, rfl⟩
  · refine h p _ ?_ hline
    rw [margin, if_neg fun hno => hempty hno.1, column_after_replicate, hp, hp']

/-- Behind a piece the rest is indented, or the lines of the rest are. -/
theorem Indents.behind (h : Indents k last rest) (htab : '\t' ∉ y)
    (hy : '\n' ∉ y ∨ ∃ z, y = z ++ ['\n'] ∧ '\n' ∉ z) :
    ∃ tail, indentFrom k last (y ++ rest) = y ++ tail ∧
      ∀ p p' : Position, p'.column = p.column + k →
        LinesFollow k (p.after y) rest (p'.after y) tail := by
  rcases hy with hy | ⟨z, rfl, hz⟩
  · exact ⟨indentFrom k last rest, indentFrom_append hy rest,
      fun p p' hcolumn => h _ _ (column_after_apart htab hy hcolumn)⟩
  · refine ⟨indentLines k last rest, ?_, fun p p' _ => h.lines ?_ ?_⟩
    · rw [List.append_assoc, indentFrom_append hz, List.singleton_append, indentFrom_newline]
      simp
    · rw [Position.after_append]
      rfl
    · rw [Position.after_append]
      rfl

/-- **The lexemes of an indented text follow those of the text.** -/
theorem indents (htab : '\t' ∉ cs) : Indents k last cs := by
  have hpiece : ∀ {y rest s}, y ≠ [] → scan (y ++ rest) = s → s.length = y.length →
      (∀ n, s ≠ .bad n) → (∀ t n, s = .token t n → t.isOneLine = true) →
      '\n' ∉ y ∨ ∃ z, y = z ++ ['\n'] ∧ '\n' ∉ z := by
    intro y rest s hne hscan hlength hgood hline
    have hcases := (begins_of_ne_nil (List.append_ne_nil_of_left_ne_nil hne rest)).line_cases
      (hscan ▸ hgood) (hscan ▸ hline)
    rwa [hscan, hlength, List.take_left] at hcases
  induction cs using piece_induction with
  | nil => exact fun p p' _ _ => ⟨.nil true, rfl⟩
  | bad cs n hne hscan =>
    intro p p' _ _
    have hbad : scan (indentFrom k last cs) = .bad n :=
      (scan_indent fun t n h => nomatch hscan.symm.trans h).trans hscan
    have hne' : indentFrom k last cs ≠ [] := by
      obtain ⟨c, ds, rfl⟩ := List.exists_cons_of_ne_nil hne
      rw [indentFrom]
      split <;> exact List.cons_ne_nil _ _
    obtain ⟨e, he⟩ := flatFrom_bad (p := p) hscan hne
    obtain ⟨e', he'⟩ := @flatFrom_bad _ n p' hbad hne'
    rw [he, he']
    exact ⟨.nil true, rfl⟩
  | skip y rest hne hscan ih =>
    rw [List.mem_append, not_or] at htab
    obtain ⟨tail, htail, hfollow⟩ := (ih htab.2).behind htab.1
      (hpiece hne hscan rfl (fun _ => by simp) fun _ _ h => by cases h)
    have hscan' : scan (y ++ tail) = .skip y.length :=
      htail ▸ (scan_indent fun t n h => nomatch hscan.symm.trans h).trans hscan
    intro p p' hcolumn hline
    rw [flatFrom_skip hscan hne] at hline ⊢
    rw [htail, flatFrom_skip hscan' hne]
    exact hfollow p p' hcolumn hline
  | token t y rest hne hscan ih =>
    rw [List.mem_append, not_or] at htab
    intro p p' hcolumn hline
    rw [flatFrom_token hscan hne] at hline ⊢
    have hone : t.isOneLine = true := hline _ List.mem_cons_self
    obtain ⟨tail, htail, hfollow⟩ := (ih htab.2).behind htab.1
      (hpiece hne hscan rfl (fun _ => by simp) fun _ _ h => (Scan.token.inj h).1 ▸ hone)
    have hscan' : scan (y ++ tail) = .token t y.length :=
      htail ▸ (scan_indent fun _ _ h => (Scan.token.inj (hscan.symm.trans h)).1 ▸ hone).trans hscan
    rw [htail, flatFrom_token hscan' hne]
    obtain ⟨hfollows, hfault⟩ :=
      hfollow p p' hcolumn fun f hf => hline f (List.mem_cons_of_mem _ hf)
    exact ⟨.cons rfl (fun _ => hcolumn) hfollows, hfault⟩

/-- **A common margin is invisible.**  A source without tabs and without literals of several
lines is read alike with `k` blanks at the start of every line: the tokens are the same, or
an error of the same kind is found. -/
theorem tokenize_margin (k : Nat) (last : Bool) {source : String} (htab : '\t' ∉ source.toList)
    (hline : ∀ f ∈ (flatLexemes source.toList).lexemes, f.token.isOneLine = true) :
    bare (tokenize (String.ofList (indentLines k last source.toList))) =
      bare (tokenize source) := by
  have hlines : LinesFollow k .first source.toList .first (indentLines k last source.toList) :=
    (indents htab).lines rfl rfl
  obtain ⟨hfollows, hfault⟩ := hlines hline
  have hbare := @Layout.bare_read _ _ (byteLength source.toList)
    (byteLength (indentLines k last source.toList)) _ _ _ _ hfollows hfault .first (.inl rfl)
  rw [tokenize, String.toList_ofList]
  exact hbare

/-- A block with a comment, an empty line, open brackets and a joined line. -/
def joinedBlock : String := "a:\n  # b\n\n    c(\nd) + \\\n'e'\n"

/-- The block, pushed to the right. -/
theorem tokenize_margin_joinedBlock :
    bare (tokenize "  a:\n    # b\n  \n      c(\n  d) + \\\n  'e'\n  ") =
      .ok [.identifier "a", .colon, .newline, .indent, .identifier "c", .openParen,
        .identifier "d", .closeParen, .operator "+", .string "'e'", .newline, .dedent] := by
  have hindented : String.ofList (indentLines 2 true joinedBlock.toList) =
      "  a:\n    # b\n  \n      c(\n  d) + \\\n  'e'\n  " := by decide +kernel
  have htab : '\t' ∉ joinedBlock.toList := by decide +kernel
  have hline : ∀ f ∈ (flatLexemes joinedBlock.toList).lexemes, f.token.isOneLine = true := by
    decide +kernel
  rw [← hindented, tokenize_margin 2 true htab hline]
  decide +kernel

end Source
end Lineage
