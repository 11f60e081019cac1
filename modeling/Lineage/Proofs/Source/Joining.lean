/-
# Joined lines and blank lines

A line break inside brackets, and a line without tokens between two lines, are nothing to the
layout.  Where they may be put into a source is said by `Loosens`; `tokenize_loosens` says
that the tokens stay the same.  Behind such a line the source is read from the same column or
within a line, where columns do not count (`follows_flatFrom`).
-/

import Lineage.Proofs.Source.Pieces

namespace Lineage
namespace Source

open Text

variable {source a b line : List Char} {before after tokens : List Lexeme} {l : Lexeme}
  {exact : Bool} {p p' : Position}

/-- The source with one line more, or with a line cut inside brackets. -/
inductive Loosens (source : List Char) (tokens : List Lexeme) : List Char → Prop
  /-- A line break behind a token inside brackets. -/
  | joined {before after : List Lexeme} {l : Lexeme} {a b ending : List Char}
    (htokens : tokens = before ++ l :: after)
    (hopen : 0 < Layout.depthBehind 0 (before ++ [l]))
    (hsource : source = a ++ b) (hplace : byteLength a = l.extent.stop) (hending : IsBreak ending) :
    Loosens source tokens (a ++ (ending ++ b))
  /-- A line without tokens at the start. -/
  | first {line : List Char} (hline : IsBlankLine line) : Loosens source tokens (line ++ source)
  /-- A line without tokens behind a line. -/
  | behind {before after : List Lexeme} {l : Lexeme} {a b line : List Char}
    (htokens : tokens = before ++ l :: after) (hnewline : l.token = .newline)
    (hsource : source = a ++ b) (hplace : byteLength a = l.extent.stop)
    (hline : IsBlankLine line) : Loosens source tokens (a ++ (line ++ b))

/-- A line break alone is a line without tokens. -/
theorem IsBreak.isBlankLine {ending : List Char} (h : IsBreak ending) : IsBlankLine ending :=
  ⟨[], [], ending, rfl, by simp, .inl rfl, h⟩

/-- Behind a text, columns that were the same are the same. -/
theorem column_after_congr (h : p'.column = p.column) (cs : List Char) :
    (p'.after cs).column = (p.after cs).column := by
  induction cs generalizing p p' with
  | nil => exact h
  | cons c cs ih =>
    refine ih ?_
    simp only [Position.advance, h]

/-- **Columns count from the last line break.**  A text has the same lexemes wherever it
starts; their columns are the same from the start if it starts in the same column, and else
behind its first line break. -/
theorem follows_flatFrom (h : exact = true → p'.column = p.column) (cs : List Char) :
    Follows 0 exact (flatFrom 0 p cs).lexemes (flatFrom 0 p' cs).lexemes ∧
      (flatFrom 0 p' cs).fault.isSome = (flatFrom 0 p cs).fault.isSome := by
  induction cs using piece_induction generalizing p p' exact with
  | nil => exact ⟨.nil exact, rfl⟩
  | bad cs n hne hscan =>
    obtain ⟨e, he⟩ := flatFrom_bad (p := p) hscan hne
    obtain ⟨e', he'⟩ := flatFrom_bad (p := p') hscan hne
    rw [he, he']
    exact ⟨.nil exact, rfl⟩
  | skip y rest hne hscan ih =>
    rw [flatFrom_skip hscan hne, flatFrom_skip hscan hne]
    exact ih fun hexact => column_after_congr (h hexact) y
  | token t y rest hne hscan ih =>
    rw [flatFrom_token hscan hne, flatFrom_token hscan hne]
    have hnext : (exact || t == .newline) = true → (p'.after y).column = (p.after y).column := by
      intro hexact
      rcases Bool.or_eq_true_iff.1 hexact with hexact | hnewline
      · exact column_after_congr (h hexact) y
      · rw [beq_iff_eq.1 hnewline] at hscan
        have hbreak := isBreak_of_scan hscan hne
        rw [column_after_break hbreak, column_after_break hbreak]
    obtain ⟨hfollows, hfault⟩ := ih hnext
    exact ⟨.cons rfl h hfollows, hfault⟩

/-- At the start of a source no bracket is open. -/
theorem settled_first : Layout.first.Settled := fun _ => rfl

/-- Where a source is cut is told by its length in bytes. -/
theorem cut_unique {a' b' : List Char} (h : a ++ b = a' ++ b')
    (hlength : byteLength a = byteLength a') : a = a' ∧ b = b' := by
  have hsplit := splitBytes?_append a b
  rw [h, hlength, splitBytes?_append] at hsplit
  exact Prod.mk.inj (Option.some.inj hsplit).symm

/-- A line without tokens is nothing where no line ends, if the source goes on in the same
column or within a line. -/
theorem bare_read_blankLine {s : Layout} (hline : IsBlankLine line)
    (hskip : s.depth = 0 → s.atLineStart = true) (hcolumn : p.column = 0 ∨ s.atLineStart = false)
    (rest : List Char) (stop stop' : Nat) :
    bare (Layout.read stop' (flatFrom 0 p (line ++ rest)).fault s
        (flatFrom 0 p (line ++ rest)).lexemes) =
      bare (Layout.read stop (flatFrom 0 p rest).fault s (flatFrom 0 p rest).lexemes) := by
  obtain ⟨hzero, g, hg, hgap⟩ := flatFrom_blankLine hline p
  obtain ⟨exact, hexact, hfree⟩ : ∃ exact : Bool,
      (exact = true → (p.after line).column = p.column) ∧
        (exact = true ∨ s.atLineStart = false) := by
    rcases hcolumn with hstart | hwithin
    · exact ⟨true, fun _ => hzero.trans hstart.symm, .inl rfl⟩
    · exact ⟨false, fun h => (nomatch h), .inr hwithin⟩
  obtain ⟨hfollows, hfault⟩ := follows_flatFrom hexact rest
  have hbare := @Layout.bare_read _ _ stop stop' _ _ _ _ hfollows hfault s hfree
  rw [Layout.moved_zero] at hbare
  rw [hgap, FlatSource.cons, Layout.read_newline hg hskip, hbare]

/-- A line without tokens in front of a source is nothing. -/
theorem bare_tokenizeChars_first (hline : IsBlankLine line) (source : List Char) :
    bare (tokenizeChars (line ++ source)) = bare (tokenizeChars source) :=
  bare_read_blankLine hline (fun _ => rfl) (.inl rfl) source _ _

/-- A line without tokens at the end of a source is nothing. -/
theorem bare_tokenizeChars_end (hline : IsBlankLine line)
    (hfault : (flatLexemes source).fault = none) :
    bare (tokenizeChars (source ++ line)) = bare (tokenizeChars source) := by
  obtain ⟨g, hg, hflat⟩ := flatFrom_line_end hline hfault
  have hnew : flatLexemes (source ++ line) = ⟨(flatLexemes source).lexemes ++ [g], none⟩ := hflat
  simp only [tokenizeChars, hfault, hnew]
  exact Layout.bare_read_newline_end hg _ _

/-- A line without tokens behind a token is nothing inside brackets and behind a line. -/
theorem bare_tokenizeChars_behind (h : tokenizeChars source = .ok tokens)
    (htokens : tokens = before ++ l :: after)
    (hplace : 0 < Layout.depthBehind 0 (before ++ [l]) ∨ l.token = .newline)
    (hsource : source = a ++ b) (hstop : byteLength a = l.extent.stop) (hline : IsBlankLine line) :
    bare (tokenizeChars (a ++ (line ++ b))) = bare (tokenizeChars source) := by
  have hread : Layout.read (byteLength source) (flatLexemes source).fault .first
      (flatLexemes source).lexemes = .ok (before ++ l :: after) := htokens ▸ h
  have hfault : (flatLexemes source).fault = none := Layout.fault_of_read hread
  cases Layout.cut_of_read settled_first hread with
  | @behind pre post f s hflat hl hruns hnewline =>
    subst hl
    obtain ⟨x, b', hcut, hcuts⟩ := exists_cuts hflat hfault
    have hx : byteLength a = byteLength x := by
      rw [hstop]
      exact hcuts.stop.trans ((Position.offset_after _ _).trans (Nat.zero_add _))
    obtain ⟨rfl, rfl⟩ := cut_unique (hsource.symm.trans hcut) hx
    obtain ⟨hsettled, hdepth⟩ := hruns.settled settled_first
    have hinside : 0 < s.depth ∨ f.toLexeme.token = .newline :=
      hplace.imp_left fun hpos => hdepth.symm ▸ hpos
    have hskip : s.depth = 0 → s.atLineStart = true := fun hs =>
      hinside.elim (fun hpos => absurd hs (Nat.pos_iff_ne_zero.1 hpos)) hnewline
    -- behind a line the columns are the same, and inside brackets they do not count
    have hfree : (Position.first.after a).column = 0 ∨ s.atLineStart = false :=
      hinside.symm.imp hcuts.column fun hpos =>
        Bool.eq_false_iff.2 fun hstart => Nat.pos_iff_ne_zero.1 hpos (hsettled hstart)
    have hnew : flatLexemes (a ++ (line ++ b)) =
        ⟨(pre ++ [f]) ++ (flatFrom 0 (Position.first.after a) (line ++ b)).lexemes,
          (flatFrom 0 (Position.first.after a) (line ++ b)).fault⟩ := by
      rw [flatLexemes, hcuts.keeps _ (hline.headIn b), List.append_assoc]
      rfl
    have hold : flatLexemes source =
        ⟨(pre ++ [f]) ++ (flatFrom 0 (Position.first.after a) b).lexemes,
          (flatFrom 0 (Position.first.after a) b).fault⟩ := by
      rw [hcuts.rest, ← hfault, List.append_assoc]
      exact congrArg (FlatSource.mk · _) hflat
    simp only [tokenizeChars, hnew, hold]
    rw [Layout.read_of_runs hruns, Layout.read_of_runs hruns, bare_map, bare_map,
      bare_read_blankLine hline hskip hfree b (byteLength source)]
  | shift hshift hzero =>
    rcases hplace with hpos | hnewline
    · exact absurd hzero (Nat.pos_iff_ne_zero.1 hpos)
    · rw [hnewline] at hshift
      cases hshift
  | finish hend =>
    have hnil : byteLength b = 0 := by
      rw [hend, hsource, byteLength_append] at hstop
      exact Nat.left_eq_add.1 hstop
    obtain rfl := eq_nil_of_byteLength_eq_zero hnil
    rw [List.append_nil] at hsource ⊢
    subst hsource
    exact bare_tokenizeChars_end hline hfault

/-- **Joined lines and blank lines do not change the tokens.**  A source that can be read has
the same tokens with a line break more behind one of them inside brackets, or with a line
without tokens, whatever its indentation, at its start or behind a `newline`. -/
theorem tokenize_loosens {source source' : String} (h : tokenize source = .ok tokens)
    (hloosens : Loosens source.toList tokens source'.toList) :
    ∃ tokens', tokenize source' = .ok tokens' ∧
      tokens'.map (·.token) = tokens.map (·.token) := by
  have hbare : bare (tokenize source') = bare (tokenize source) := by
    unfold tokenize at h ⊢
    generalize source'.toList = cs' at hloosens
    cases hloosens with
    | joined htokens hopen hsource hplace hending =>
      exact bare_tokenizeChars_behind h htokens (.inl hopen) hsource hplace hending.isBlankLine
    | first hline => exact bare_tokenizeChars_first hline _
    | behind htokens hnewline hsource hplace hline =>
      exact bare_tokenizeChars_behind h htokens (.inr hnewline) hsource hplace hline
  rw [h] at hbare
  exact exists_ok_of_bare hbare

/-- The tokens of a call and of the block behind it. -/
def callTokens : List Lexeme := [
  ⟨.identifier "a", ⟨0, 1⟩⟩, ⟨.openParen, ⟨1, 2⟩⟩, ⟨.identifier "b", ⟨2, 3⟩⟩,
  ⟨.closeParen, ⟨3, 4⟩⟩, ⟨.newline, ⟨4, 5⟩⟩, ⟨.indent, ⟨6, 6⟩⟩, ⟨.identifier "c", ⟨6, 7⟩⟩,
  ⟨.newline, ⟨7, 7⟩⟩, ⟨.dedent, ⟨7, 7⟩⟩]

/-- The call cut inside its brackets, and a comment in front of the block. -/
theorem tokenize_loosens_call :
    tokenize "a(b)\n c" = .ok callTokens ∧
      (∃ tokens, tokenize "a(\nb)\n c" = .ok tokens ∧
        tokens.map (·.token) = callTokens.map (·.token)) ∧
      ∃ tokens, tokenize "a(b)\n\t# d\n c" = .ok tokens ∧
        tokens.map (·.token) = callTokens.map (·.token) := by
  have h : tokenize "a(b)\n c" = .ok callTokens := by decide +kernel
  refine ⟨h, tokenize_loosens h ?_, tokenize_loosens h ?_⟩
  · exact @Loosens.joined _ _ (callTokens.take 1) (callTokens.drop 2) ⟨.openParen, ⟨1, 2⟩⟩
      ['a', '('] ['b', ')', '\n', ' ', 'c'] ['\n'] rfl (by decide) (by decide) (by decide)
      (.inl rfl)
  · exact @Loosens.behind _ _ (callTokens.take 4) (callTokens.drop 5) ⟨.newline, ⟨4, 5⟩⟩
      ['a', '(', 'b', ')', '\n'] [' ', 'c'] ['\t', '#', ' ', 'd', '\n'] rfl rfl (by decide)
      (by decide)
      ⟨['\t'], ['#', ' ', 'd'], ['\n'], rfl, by simp [isBlank], .inr ⟨_, rfl, by simp⟩, .inl rfl⟩

end Source
end Lineage
