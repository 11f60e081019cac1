/-
# Tokens and gaps make up the source

A source is its tokens and the gaps between them, in their order (`Covers`): each token
stands where its text is written (`Writes`), the layout tokens where nothing is, and a gap
has blanks, comments and joined lines only (`IsGap`).  Line breaks without a token are left
to the gaps inside brackets and at the start of a line (`covers_read`).  So no character of
a source is lost by its tokens (`tokenize_losesNothing`).
-/

import Lineage.Proofs.Source.Pieces

namespace Lineage
namespace Source

open Text

variable {text cs y rest done gap gap' word behind ending : List Char} {t : Token} {l : Lexeme}
  {ls before after out tokens : List Lexeme} {n depth : Nat} {p : Position} {breaks : Prop}

/-! ### Gaps -/

/-- The text before `behind` carries no token: it is made of blanks, of comments, which go to
the end of their line, of backslashes before line breaks and, if they are allowed, of line
breaks. -/
inductive IsGap (breaks : Prop) (behind : List Char) : List Char → Prop
  | nil : IsGap breaks behind []
  | blanks {run gap : List Char} (hrun : ∀ c ∈ run, isBlank c = true)
    (h : IsGap breaks behind gap) : IsGap breaks behind (run ++ gap)
  | comment {body gap : List Char} (hbody : ∀ c ∈ body, c ≠ '\r' ∧ c ≠ '\n')
    (hend : HeadIn ['\r', '\n'] (gap ++ behind)) (h : IsGap breaks behind gap) :
    IsGap breaks behind ('#' :: (body ++ gap))
  | joined {ending gap : List Char} (hending : IsBreak ending) (h : IsGap breaks behind gap) :
    IsGap breaks behind ('\\' :: (ending ++ gap))
  | lineBreak {ending gap : List Char} (hbreaks : breaks) (hending : IsBreak ending)
    (h : IsGap breaks behind gap) : IsGap breaks behind (ending ++ gap)

/-- A gap in front of a gap is a gap. -/
theorem IsGap.append (h : IsGap breaks (gap' ++ behind) gap) (h' : IsGap breaks behind gap') :
    IsGap breaks behind (gap ++ gap') := by
  induction h with
  | nil => exact h'
  | blanks hrun _ ih =>
    rw [List.append_assoc]
    exact .blanks hrun ih
  | comment hbody hend _ ih =>
    rw [List.cons_append, List.append_assoc]
    exact .comment hbody (by rwa [List.append_assoc]) ih
  | joined hending _ ih =>
    rw [List.cons_append, List.append_assoc]
    exact .joined hending ih
  | lineBreak hbreaks hending _ ih =>
    rw [List.append_assoc]
    exact .lineBreak hbreaks hending ih

/-- A run goes on to a character that is not of its class. -/
theorem run_eq {q : Char → Bool} (h : runLength q (y ++ rest) = y.length) :
    (∀ c ∈ y, q c = true) ∧ ∀ c, rest.head? = some c → q c = false := by
  unfold runLength at h
  have htake : (y ++ rest).takeWhile q = y :=
    (List.prefix_of_prefix_length_le (List.takeWhile_prefix q) (List.prefix_append y rest)
      (Nat.le_of_eq h)).eq_of_length h
  have hall : ∀ c ∈ y, q c = true := by
    intro c hc
    rw [← htake] at hc
    exact List.all_eq_true.1 List.all_takeWhile c hc
  refine ⟨hall, fun c hc => ?_⟩
  obtain ⟨more, rfl⟩ := List.head?_eq_some_iff.1 hc
  rw [List.takeWhile_append_of_pos hall, List.append_right_eq_self] at htake
  cases hq : q c with
  | false => rfl
  | true =>
    rw [List.takeWhile_cons_of_pos hq] at htake
    cases htake

/-- What is skipped is a gap. -/
theorem isGap_of_scan (h : scan (y ++ rest) = .skip y.length) (hne : y ≠ []) (breaks : Prop) :
    IsGap breaks rest y := by
  have hbegins := begins_of_ne_nil (List.append_ne_nil_of_left_ne_nil hne rest)
  obtain ⟨c, y, rfl⟩ := List.exists_cons_of_ne_nil hne
  rw [h] at hbegins
  generalize hcs : c :: y ++ rest = cs at hbegins
  generalize hlength : (c :: y).length = n at hbegins
  cases hbegins with
  | blanks hc cs =>
    obtain ⟨rfl, rfl⟩ := List.cons.inj hcs
    obtain ⟨hrun, _⟩ := run_eq (Nat.succ.inj hlength).symm
    rw [← List.append_nil (c :: y)]
    exact .blanks (List.forall_mem_cons.2 ⟨hc, hrun⟩) .nil
  | comment cs =>
    obtain ⟨rfl, rfl⟩ := List.cons.inj hcs
    obtain ⟨hbody, hend⟩ := run_eq (Nat.succ.inj hlength).symm
    rw [← List.append_nil y]
    refine .comment (by simpa using hbody) (fun c hc => ?_) .nil
    have hstop := hend c hc
    rw [Bool.and_eq_false_iff] at hstop
    simpa using hstop
  | joined hending cs =>
    obtain ⟨rfl, htail⟩ := List.cons.inj hcs
    obtain ⟨rfl, _⟩ := List.append_inj htail (Nat.succ.inj hlength)
    rw [← List.append_nil y]
    exact .joined hending .nil
  | literal _ hs => exact absurd rfl (ne_skip_of_scanString? hs _)
  | lexical _ _ hmem =>
    obtain ⟨⟨_, _, hk⟩, _⟩ := exists_confined hmem
    cases hk

/-! ### Words -/

/-- The text that a token carries. -/
def Token.text? : Token → Option String
  | .identifier text | .string text | .number text | .augmented text | .operator text => some text
  | _ => none

/-- The token is written as that text. -/
inductive Writes : Token → List Char → Prop
  /-- A token with a text is written as it. -/
  | text {t : Token} {text : String} (h : t.text? = some text) : Writes t text.toList
  /-- A keyword or a bracket or mark is written as its spelling. -/
  | fixed {t : Token} {spelling : String} (h : t.text? = none)
    (hmem : (spelling, t) ∈ keywords ++ fixedTokens) : Writes t spelling.toList
  | newline {ending : List Char} (h : IsBreak ending) : Writes .newline ending
  /-- A change of indentation is not written. -/
  | shift {t : Token} (h : t.isShift = true) : Writes t []

/-- A change of indentation has no text. -/
theorem Writes.eq_nil (h : Writes t word) (hshift : t.isShift = true) : word = [] := by
  have hfixed : ∀ f ∈ keywords ++ fixedTokens, f.2.isShift = false := by decide
  cases h with
  | text h => cases t <;> cases h <;> cases hshift
  | fixed _ hmem =>
    rw [hfixed _ hmem] at hshift
    cases hshift
  | newline => cases hshift
  | shift => rfl

/-- A token is written as the characters that it carries. -/
theorem writes_ofList {cs : List Char} (h : t.text? = some (String.ofList cs)) : Writes t cs := by
  have hwrites := Writes.text h
  rwa [String.toList_ofList] at hwrites

/-- The spelling of a fixed token is the text that it carries, if it carries one. -/
theorem writes_fixed {f : String × Token} (h : f ∈ fixedTokens) : Writes f.2 f.1.toList := by
  have hall : ∀ f ∈ fixedTokens, f.2.text? = none ∨ f.2.text? = some f.1 := by decide
  rcases hall f h with hnone | hsome
  · exact .fixed hnone (List.mem_append_right _ h)
  · exact .text hsome

/-- A word is written as itself, be it an identifier or a keyword. -/
theorem writes_wordToken (cs : List Char) : Writes (wordToken (String.ofList cs)) cs := by
  have hkeywords : ∀ k ∈ keywords, k.2.text? = none := by decide
  rcases wordToken_cases (String.ofList cs) with hidentifier | hkeyword
  · rw [hidentifier]
    exact writes_ofList rfl
  · have hwrites := Writes.fixed (hkeywords _ hkeyword) (List.mem_append_left fixedTokens hkeyword)
    rwa [String.toList_ofList] at hwrites

/-- What one of the patterns matches is written as the characters that it takes. -/
theorem writes_of_mem_lexicals (h : .token t n ∈ lexicals cs) : Writes t (cs.take n) := by
  cases lexical_of_mem h with
  | word => exact writes_wordToken _
  | number => exact writes_ofList rfl
  | fixed hmem hrest =>
    rw [after?_eq_some_iff.1 hrest, ← String.length_toList, List.take_left]
    exact writes_fixed hmem

/-- **The token that is scanned is written there.** -/
theorem writes_of_scan (h : scan (word ++ rest) = .token t word.length) (hne : word ≠ []) :
    Writes t word := by
  have hbegins := begins_of_ne_nil (List.append_ne_nil_of_left_ne_nil hne rest)
  rw [h] at hbegins
  generalize hcs : word ++ rest = cs at hbegins
  generalize hlength : word.length = n at hbegins
  have htake : cs.take n = word := by rw [← hcs, ← hlength, List.take_left]
  cases hbegins with
  | newline hending ds =>
    rw [← htake, List.take_left]
    exact .newline hending
  | literal _ hs =>
    rw [eq_string_of_scanString? hs, htake]
    exact writes_ofList rfl
  | lexical _ _ hmem => exact htake ▸ writes_of_mem_lexicals hmem

/-! ### Sources -/

/-- The text ends at the start of a line. -/
def OpensLine (done : List Char) : Prop := ∀ c, done.getLast? = some c → c = '\n'

/-- Behind the text `done` and so many open brackets the source is made up of the tokens and
of gaps around them.  A gap has line breaks inside brackets, or it starts at the start of a
line. -/
inductive Covers (text : List Char) : List Char → Nat → List Lexeme → Prop
  | done {done gap : List Char} {depth : Nat} (htext : text = done ++ gap)
    (hgap : IsGap (0 < depth ∨ OpensLine done) [] gap) : Covers text done depth []
  | token {done gap word rest : List Char} {depth : Nat} {l : Lexeme} {ls : List Lexeme}
    (htext : text = done ++ (gap ++ (word ++ rest)))
    (hgap : IsGap (0 < depth ∨ OpensLine done) (word ++ rest) gap)
    (hextent : l.extent = ⟨byteLength (done ++ gap), byteLength (done ++ gap ++ word)⟩)
    (hwrites : Writes l.token word ∨
      l.token = .newline ∧ word = [] ∧ rest = [] ∧ ∀ l' ∈ ls, l'.token = .dedent)
    (h : Covers text (done ++ gap ++ word) (Layout.depthAfter depth l.token) ls) :
    Covers text done depth (l :: ls)

/-- The start of a text is the start of a line. -/
theorem opensLine_nil : OpensLine [] := fun _ h => nomatch h

/-- Behind a line break a line starts. -/
theorem OpensLine.of_break (h : IsBreak ending) (done : List Char) :
    OpensLine (done ++ ending) := by
  intro c hc
  rcases h with rfl | rfl <;> simpa using hc.symm

/-- The dedents behind the last line. -/
theorem Covers.dedents (htext : text = done ++ gap)
    (hgap : IsGap (0 < depth ∨ OpensLine done) [] gap) (n : Nat) :
    Covers text done depth (List.replicate n ⟨.dedent, .point (byteLength text)⟩) := by
  induction n generalizing done gap with
  | zero => exact .done htext hgap
  | succ n ih =>
    refine @Covers.token _ _ gap [] [] _ _ _ (by simpa using htext) hgap ?_ (.inl (.shift rfl)) ?_
    · rw [List.append_nil, ← htext]
      rfl
    · exact ih (show text = done ++ gap ++ [] ++ [] by simpa using htext) .nil

/-- What the layout adds to a source that has ended. -/
theorem Covers.finish {s : Layout} (htext : text = done ++ gap)
    (hgap : IsGap (0 < s.depth ∨ OpensLine done) [] gap) :
    Covers text done s.depth (s.finish (byteLength text)) := by
  unfold Layout.finish
  split
  · exact .dedents htext hgap _
  · refine @Covers.token _ _ gap [] [] _ _ _ (by simpa using htext) hgap ?_ (.inr ?_) ?_
    · rw [List.append_nil, ← htext]
      rfl
    · exact ⟨rfl, rfl, rfl, fun l hl => by rw [List.eq_of_mem_replicate hl]⟩
    · exact .dedents (show text = done ++ gap ++ [] ++ [] by simpa using htext) .nil _

/-- Changes of indentation stand at the start of the token behind them. -/
theorem Covers.shifts {shifts : List Token} (hshifts : ∀ t ∈ shifts, t.isShift = true)
    (htext : text = done ++ (gap ++ (word ++ rest)))
    (hgap : IsGap (0 < depth ∨ OpensLine done) (word ++ rest) gap)
    (hextent : l.extent = ⟨byteLength (done ++ gap), byteLength (done ++ gap ++ word)⟩)
    (hwrites : Writes l.token word)
    (h : Covers text (done ++ gap ++ word) (Layout.depthAfter depth l.token) ls) :
    Covers text done depth (shifts.map (⟨·, .point l.extent.start⟩) ++ l :: ls) := by
  induction shifts generalizing done gap with
  | nil => exact .token htext hgap hextent (.inl hwrites) h
  | cons t shifts ih =>
    have ht : t.isShift = true := hshifts t List.mem_cons_self
    have hdepth : Layout.depthAfter depth t = depth :=
      Layout.depthAfter_of_isLayout (by rw [Token.isLayout, ht, Bool.or_true]) depth
    refine @Covers.token _ _ gap [] (word ++ rest) _ _ _ htext hgap ?_ (.inl (.shift ht)) ?_
    · rw [List.append_nil, hextent]
      rfl
    · rw [hdepth]
      have hnext : text = done ++ gap ++ [] ++ ([] ++ (word ++ rest)) := by simpa using htext
      exact ih (fun u hu => hshifts u (List.mem_cons_of_mem t hu)) hnext .nil
        (by simpa using hextent) (by simpa using h)

/-- **The tokens of a source and the gaps between them make it up**, whatever gap is already
passed. -/
theorem covers_read {s : Layout} (htext : text = done ++ (gap ++ cs))
    (hgap : IsGap (0 < s.depth ∨ OpensLine done) cs gap)
    (hstart : s.atLineStart = true → OpensLine done) (hp : p.offset = byteLength (done ++ gap))
    (h : Layout.read (byteLength text) (flatFrom 0 p cs).fault s (flatFrom 0 p cs).lexemes =
      .ok out) : Covers text done s.depth out := by
  induction cs using piece_induction generalizing done gap s p out with
  | nil =>
    obtain ⟨_, rfl⟩ := Layout.read_nil h
    rw [List.append_nil] at htext
    exact .finish htext hgap
  | bad cs n hne hscan =>
    obtain ⟨e, he⟩ := flatFrom_bad (p := p) hscan hne
    rw [he] at h
    cases (Layout.read_nil h).1
  | skip y rest hne hscan ih =>
    rw [flatFrom_skip hscan hne] at h
    have hlonger : text = done ++ (gap ++ y ++ rest) := by rw [htext, List.append_assoc]
    refine ih hlonger (hgap.append (isGap_of_scan hscan hne _)) hstart ?_ h
    rw [Position.offset_after, hp, ← byteLength_append, List.append_assoc]
  | token t y rest hne hscan ih =>
    rw [flatFrom_token hscan hne] at h
    obtain ⟨now, s', later, hstep, hlater, rfl⟩ := Layout.read_cons h
    have hafter : (p.after y).offset = byteLength (done ++ gap ++ y) := by
      rw [Position.offset_after, hp, ← byteLength_append]
    have hextent : (lexemeAt t p (p.after y)).extent =
        ⟨byteLength (done ++ gap), byteLength (done ++ gap ++ y)⟩ := by
      rw [lexemeAt, hp, hafter]
    have hwrites : Writes t y := writes_of_scan hscan hne
    -- behind a token the next gap begins
    have hnext : text = done ++ gap ++ y ++ ([] ++ rest) := by rw [htext]; simp
    have hoffset : (p.after y).offset = byteLength (done ++ gap ++ y ++ []) := by
      rw [List.append_nil, hafter]
    cases hstep with
    | lineEnd hnewline hdepth hinside =>
      obtain rfl : t = .newline := hnewline
      have hline : OpensLine (done ++ gap ++ y) := .of_break (isBreak_of_scan hscan hne) _
      have hbehind : Covers text (done ++ gap ++ y) s.depth later :=
        ih (s := { s with atLineStart := true }) hnext .nil (fun _ => hline) hoffset hlater
      exact .token htext hgap hextent (.inl hwrites) hbehind
    | noLine hnewline hopen =>
      obtain rfl : t = .newline := hnewline
      have hbreaks : 0 < s.depth ∨ OpensLine done :=
        (Nat.eq_zero_or_pos s.depth).symm.imp_right fun hzero => hstart (hopen hzero)
      have hlonger : text = done ++ (gap ++ y ++ rest) := by rw [htext, List.append_assoc]
      refine ih hlonger (hgap.append ?_) hstart (by rw [hafter, List.append_assoc]) hlater
      rw [← List.append_nil y]
      exact .lineBreak hbreaks (isBreak_of_scan hscan hne) .nil
    | @lineStart columns _ _ _ hopen =>
      have hbehind : Covers text (done ++ gap ++ y) (Layout.depthAfter s.depth t) later :=
        ih (s := ⟨columns, Layout.depthAfter s.depth t, false⟩) hnext .nil nofun hoffset hlater
      rw [List.append_assoc]
      exact .shifts (isShift_of_openLine? hopen) htext hgap hextent hwrites hbehind
    | inLine _ hinside =>
      have hbehind : Covers text (done ++ gap ++ y) (Layout.depthAfter s.depth t) later :=
        ih (s := { s with depth := Layout.depthAfter s.depth t }) hnext .nil
          (fun htrue => by rw [show s.atLineStart = true from htrue] at hinside; cases hinside)
          hoffset hlater
      exact .token htext hgap hextent (.inl hwrites) hbehind

/-- A source is made up of its tokens, from its start on. -/
theorem covers_of_tokenizeChars (h : tokenizeChars text = .ok tokens) :
    Covers text [] 0 tokens :=
  covers_read (s := .first) (show text = [] ++ ([] ++ text) from rfl) .nil (fun _ => opensLine_nil)
    rfl h

/-! ### Nothing is lost -/

/-- Where the last one of the lexemes stops; the start of the source if there is none. -/
def stopOf (ls : List Lexeme) : Nat := ls.getLast?.elim 0 (·.extent.stop)

/-- Where the first one of the lexemes starts; the end of the source if there is none. -/
def startOf (text : List Char) (ls : List Lexeme) : Nat :=
  ls.head?.elim (byteLength text) (·.extent.start)

/-- The source can be had back from its tokens: they stand in it in their order, each where
it is written, and the text between them carries no token. -/
structure LosesNothing (text : List Char) (tokens : List Lexeme) : Prop where
  bordered : ∀ l ∈ tokens, IsCut text l.extent.start ∧ IsCut text l.extent.stop ∧
    l.extent.start ≤ l.extent.stop
  ordered : tokens.Pairwise (·.extent.stop ≤ ·.extent.start)
  /-- Changes of indentation are empty. -/
  empty : ∀ l ∈ tokens, l.token.isShift = true → l.extent.start = l.extent.stop
  /-- A token is written at its place, save a newline for a last line without a line break: it
  is empty, at the end of the source, and only dedents are behind it. -/
  written : ∀ before l after, tokens = before ++ l :: after →
    ∃ word, slice? text l.extent.start l.extent.stop = some word ∧
      (Writes l.token word ∨ l.token = .newline ∧ l.extent = .point (byteLength text) ∧
        ∀ l' ∈ after, l'.token = .dedent)
  /-- What is between two tokens next to each other, before the first one or behind the last
  one is a gap.  It has line breaks inside brackets only, or if it starts at the start of a
  line, so that the lines that it ends have no token. -/
  gaps : ∀ before after, tokens = before ++ after →
    ∃ done gap behind, text = done ++ (gap ++ behind) ∧ byteLength done = stopOf before ∧
      byteLength (done ++ gap) = startOf text after ∧
      IsGap (0 < Layout.depthBehind 0 before ∨ OpensLine done) behind gap

/-- What is made up is made up from any of its tokens on. -/
theorem Covers.drop (h : Covers text done depth (before ++ after)) :
    ∃ done', Covers text done' (Layout.depthBehind depth before) after ∧
      byteLength done' = before.getLast?.elim (byteLength done) (·.extent.stop) := by
  induction before generalizing done depth with
  | nil => exact ⟨done, h, rfl⟩
  | cons l before ih =>
    cases h with
    | @token _ gap word _ _ _ _ _ _ hextent _ h =>
      obtain ⟨done', hcovers, hdone⟩ := ih h
      refine ⟨done', hcovers, ?_⟩
      rw [hdone, List.getLast?_cons]
      cases before.getLast? with
      | none => rw [Option.elim_none, Option.getD_none, Option.elim_some, hextent]
      | some last => rfl

/-- In front of the tokens that are left stands a gap. -/
theorem Covers.exists_gap (h : Covers text done depth after) :
    ∃ gap behind, text = done ++ (gap ++ behind) ∧
      byteLength (done ++ gap) = startOf text after ∧
      IsGap (0 < depth ∨ OpensLine done) behind gap := by
  cases h with
  | @done _ gap _ htext hgap =>
    exact ⟨gap, [], by rw [htext, List.append_nil], by rw [htext]; rfl, hgap⟩
  | @token _ gap word rest _ l _ htext hgap hextent =>
    exact ⟨gap, word ++ rest, htext, by rw [startOf, List.head?_cons, Option.elim_some, hextent],
      hgap⟩

/-- The first of the tokens that are left is written at its place. -/
theorem Covers.exists_word (h : Covers text done depth (l :: after)) :
    ∃ word, slice? text l.extent.start l.extent.stop = some word ∧
      l.extent.stop = l.extent.start + byteLength word ∧
      (Writes l.token word ∨ l.token = .newline ∧ l.extent = .point (byteLength text) ∧
        ∀ l' ∈ after, l'.token = .dedent) := by
  cases h with
  | @token _ gap word rest _ _ _ htext hgap hextent hwrites _ =>
    refine ⟨word, ?_, ?_, hwrites.imp_right ?_⟩
    · rw [hextent, htext, ← List.append_assoc]
      exact slice?_append _ _ _
    · rw [hextent]
      exact byteLength_append _ _
    · rintro ⟨hnewline, rfl, rfl, hdedents⟩
      refine ⟨hnewline, ?_, hdedents⟩
      rw [hextent, htext, List.append_nil, List.append_nil, List.append_nil]
      rfl

/-- **Reading tokens loses no text**: the tokens of a source stand in it in their order, each
one where its text is, and between them are only blanks, comments, joined lines, and line
breaks inside brackets or on lines without tokens. -/
theorem tokenize_losesNothing {source : String} (h : tokenize source = .ok tokens) :
    LosesNothing source.toList tokens := by
  have hplaced : Placed source.toList 0 tokens := placed_of_tokenizeChars h
  have hcovers : Covers source.toList [] 0 tokens := covers_of_tokenizeChars h
  refine ⟨fun l hl => ?_, hplaced.pairwise, fun l hl hshift => ?_, ?_, ?_⟩
  · obtain ⟨_, hle, hstart, hstop⟩ := hplaced.of_mem hl
    exact ⟨hstart, hstop, hle⟩
  · obtain ⟨before, after, rfl⟩ := List.append_of_mem hl
    obtain ⟨done, hbehind, _⟩ := hcovers.drop
    obtain ⟨word, _, hstop, hwrites⟩ := hbehind.exists_word
    have hnil : word = [] := hwrites.elim (·.eq_nil hshift) fun ⟨hnewline, _⟩ => by
      rw [hnewline] at hshift
      cases hshift
    rw [hstop, hnil]
    rfl
  · rintro before l after rfl
    obtain ⟨done, hbehind, _⟩ := hcovers.drop
    obtain ⟨word, hslice, _, hwrites⟩ := hbehind.exists_word
    exact ⟨word, hslice, hwrites⟩
  · rintro before after rfl
    obtain ⟨done, hbehind, hdone⟩ := hcovers.drop
    obtain ⟨gap, behind, htext, hstart, hgap⟩ := hbehind.exists_gap
    exact ⟨done, gap, behind, htext, hdone, hstart, hgap⟩

/-- A call with a comment between its brackets, and no line break at its end. -/
theorem tokenize_losesNothing_call :
    tokenize "f( # g\n)" = .ok
        [⟨.identifier "f", ⟨0, 1⟩⟩, ⟨.openParen, ⟨1, 2⟩⟩, ⟨.closeParen, ⟨7, 8⟩⟩,
          ⟨.newline, ⟨8, 8⟩⟩] ∧
      LosesNothing "f( # g\n)".toList
        [⟨.identifier "f", ⟨0, 1⟩⟩, ⟨.openParen, ⟨1, 2⟩⟩, ⟨.closeParen, ⟨7, 8⟩⟩,
          ⟨.newline, ⟨8, 8⟩⟩] := by
  have h : tokenize "f( # g\n)" = .ok
      [⟨.identifier "f", ⟨0, 1⟩⟩, ⟨.openParen, ⟨1, 2⟩⟩, ⟨.closeParen, ⟨7, 8⟩⟩,
        ⟨.newline, ⟨8, 8⟩⟩] := by decide +kernel
  exact ⟨h, tokenize_losesNothing h⟩

end Source
end Lineage
