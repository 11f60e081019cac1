/-
# A source piece by piece

A source is cut into pieces, each of them a token or without one (`piece_induction`).  So the
lexemes of a source up to one of its tokens stay the same when what is behind that token is
put behind a gap (`exists_cuts`), and a line without tokens at its end adds one line break
(`flatFrom_line_end`).
-/

import Lineage.Proofs.Source.Locality
import Lineage.Proofs.Source.Columns

namespace Lineage
namespace Source

open Text

variable {cs x y rest v w : List Char} {c : Char} {t : Token} {n : Nat} {p : Position}
  {f : FlatLexeme} {pre post : List FlatLexeme}

/-! ### Pieces -/

/-- The lexeme of a token between two places. -/
def lexemeAt (t : Token) (p q : Position) : FlatLexeme := ⟨⟨t, ⟨p.offset, q.offset⟩⟩, p.column⟩

/-- The lexemes behind a first one. -/
def FlatSource.cons (f : FlatLexeme) (s : FlatSource) : FlatSource := ⟨f :: s.lexemes, s.fault⟩

/-- What is taken is passed. -/
theorem flatFrom_pass (p : Position) (c : Char) (y rest : List Char) :
    flatFrom y.length (p.advance c) (y ++ rest) = flatFrom 0 (p.after (c :: y)) rest := by
  rw [flatFrom_pending _ _ _ (by simp), List.take_left, List.drop_left, Position.after_cons]

/-- A bad character ends the lexemes with a fault. -/
theorem flatFrom_bad (h : scan cs = .bad n) (hne : cs ≠ []) :
    ∃ e, flatFrom 0 p cs = ⟨[], some e⟩ := by
  obtain ⟨c, ds, rfl⟩ := List.exists_cons_of_ne_nil hne
  rw [flatFrom, h]
  exact ⟨_, rfl⟩

/-- What is skipped leaves no lexeme. -/
theorem flatFrom_skip (h : scan (y ++ rest) = .skip y.length) (hne : y ≠ []) (p : Position) :
    flatFrom 0 p (y ++ rest) = flatFrom 0 (p.after y) rest := by
  obtain ⟨c, y, rfl⟩ := List.exists_cons_of_ne_nil hne
  rw [List.cons_append] at h ⊢
  rw [flatFrom, h]
  exact flatFrom_pass p c y rest

/-- What is scanned is a lexeme in front of those behind it. -/
theorem flatFrom_token (h : scan (y ++ rest) = .token t y.length) (hne : y ≠ []) (p : Position) :
    flatFrom 0 p (y ++ rest) =
      (flatFrom 0 (p.after y) rest).cons (lexemeAt t p (p.after y)) := by
  obtain ⟨c, y, rfl⟩ := List.exists_cons_of_ne_nil hne
  have htake : (c :: (y ++ rest)).take (y.length + 1) = c :: y := by
    rw [List.take_succ_cons, List.take_left]
  rw [List.cons_append, List.length_cons] at h
  rw [List.cons_append, flatFrom, h]
  simp only [Scan.length, htake, Nat.add_sub_cancel, flatFrom_pass]
  rfl

/-- **A source is cut into pieces.**  What holds of the empty text and of a bad one, and in
front of a text where it holds is passed on through what is skipped and through tokens, holds
of every text. -/
theorem piece_induction {P : List Char → Prop} (nil : P [])
    (bad : ∀ cs n, cs ≠ [] → scan cs = .bad n → P cs)
    (skip : ∀ y rest, y ≠ [] → scan (y ++ rest) = .skip y.length → P rest → P (y ++ rest))
    (token : ∀ t y rest, y ≠ [] → scan (y ++ rest) = .token t y.length → P rest → P (y ++ rest))
    (cs : List Char) : P cs := by
  induction hlength : cs.length using Nat.strongRecOn generalizing cs with
  | ind k ih =>
    subst hlength
    by_cases hne : cs = []
    · exact hne ▸ nil
    have hbegins := begins_of_ne_nil hne
    -- the first piece, and what is behind it
    have hpiece : (∀ n, scan cs ≠ .bad n) → ∃ y rest, cs = y ++ rest ∧ y ≠ [] ∧
        (scan cs).length = y.length ∧ rest.length < cs.length := by
      intro hgood
      obtain ⟨hpos, hle⟩ := hbegins.length hgood
      refine ⟨cs.take (scan cs).length, cs.drop (scan cs).length, (List.take_append_drop _ _).symm,
        fun hnil => ?_, (List.length_take_of_le hle).symm, ?_⟩
      · have hzero := congrArg List.length hnil
        rw [List.length_take_of_le hle, List.length_nil] at hzero
        omega
      · rw [List.length_drop]
        omega
    cases hscan : scan cs with
    | bad n => exact bad cs n hne hscan
    | skip n =>
      obtain ⟨y, rest, rfl, hy, hlength, hlt⟩ := hpiece (by simp [hscan])
      rw [hscan] at hlength
      obtain rfl : n = y.length := hlength
      exact skip y rest hy hscan (ih _ hlt rest rfl)
    | token t n =>
      obtain ⟨y, rest, rfl, hy, hlength, hlt⟩ := hpiece (by simp [hscan])
      rw [hscan] at hlength
      obtain rfl : n = y.length := hlength
      exact token t y rest hy hscan (ih _ hlt rest rfl)

/-- A text without a fault begins with no bad character. -/
theorem ne_bad_of_fault (h : (flatFrom 0 p cs).fault = none) (hne : cs ≠ []) (n : Nat) :
    scan cs ≠ .bad n := fun hscan => by
  obtain ⟨e, he⟩ := flatFrom_bad (p := p) hscan hne
  rw [he] at h
  cases h

/-- What is skipped in front of a text is skipped there whatever the text goes on with. -/
theorem flatFrom_skip_local (h : scan (y ++ (x ++ rest)) = .skip y.length) (hy : y ≠ [])
    (hx : x ≠ []) (p : Position) (w : List Char) :
    flatFrom 0 p (y ++ (x ++ w)) = flatFrom 0 (p.after y) (x ++ w) := by
  have hlt : y.length < (y ++ x).length := by
    rw [List.length_append]
    exact Nat.lt_add_of_pos_right (List.length_pos_iff.2 hx)
  rw [← List.append_assoc] at h
  have hskip := scan_skip_local h hlt w
  rw [List.append_assoc] at hskip
  exact flatFrom_skip hskip hy p

/-- A token in front of a text without a fault is scanned there also if the text ends before a
gap. -/
theorem flatFrom_token_local (h : scan (y ++ (x ++ rest)) = .token t y.length) (hy : y ≠ [])
    (hfault : x ≠ [] → (flatFrom 0 (p.after y) (x ++ rest)).fault = none)
    (hw : HeadIn gapChars w) :
    flatFrom 0 p (y ++ (x ++ w)) =
      (flatFrom 0 (p.after y) (x ++ w)).cons (lexemeAt t p (p.after y)) := by
  rw [← List.append_assoc] at h
  have hnext : y.length < (y ++ x).length →
      ∀ k, scan ((y ++ x).drop y.length ++ rest) ≠ .bad k := by
    intro hlt
    have hx : x ≠ [] := by
      rintro rfl
      simp at hlt
    rw [List.drop_left]
    exact ne_bad_of_fault (hfault hx) (List.append_ne_nil_of_left_ne_nil hx rest)
  have htoken := scan_token_local h (by simp) hnext hw
  rw [List.append_assoc] at htoken
  exact flatFrom_token htoken hy p

/-! ### Line breaks -/

/-- No word, number or mark is a line break. -/
theorem ne_newline_of_mem_lexicals {s : Scan} (h : s ∈ lexicals cs) (n : Nat) :
    s ≠ .token .newline n := by
  have hkeywords : ∀ k ∈ keywords, k.2 ≠ .newline := by decide
  have hfixed : ∀ f ∈ fixedTokens, f.2 ≠ .newline := by decide
  rintro rfl
  generalize ht : Token.newline = t at h
  cases lexical_of_mem h with
  | word =>
    rcases wordToken_cases (String.ofList (cs.take (wordLength cs))) with hidentifier | hkeyword
    · cases ht.trans hidentifier
    · exact hkeywords _ hkeyword ht.symm
  | number => cases ht
  | fixed hmem => exact hfixed _ hmem ht.symm

/-- A `newline` token is a line break. -/
theorem isBreak_of_scan (h : scan (y ++ rest) = .token .newline y.length) (hne : y ≠ []) :
    IsBreak y := by
  have hbegins := begins_of_ne_nil (List.append_ne_nil_of_left_ne_nil hne rest)
  rw [h] at hbegins
  generalize hcs : y ++ rest = cs at hbegins
  generalize hlength : y.length = n at hbegins
  cases hbegins with
  | newline hending ds =>
    rw [(List.append_inj hcs hlength).1]
    exact hending
  | literal _ hs =>
    cases eq_string_of_scanString? hs
  | lexical _ _ hmem => exact absurd rfl (ne_newline_of_mem_lexicals hmem n)

/-- Behind a line break the column is the first one. -/
theorem column_after_break {ending : List Char} (h : IsBreak ending) (p : Position) :
    (p.after ending).column = 0 := by
  rcases h with rfl | rfl <;> rfl

/-! ### Cutting behind a token -/

/-- The text `x` ends with the token of `f`, behind `pre`, and `b` goes on with `post`. -/
structure Cuts (p : Position) (x b : List Char) (pre : List FlatLexeme) (f : FlatLexeme)
    (post : List FlatLexeme) : Prop where
  ne : x ≠ []
  stop : f.extent.stop = (p.after x).offset
  column : f.token = .newline → (p.after x).column = 0
  rest : flatFrom 0 (p.after x) b = ⟨post, none⟩
  keeps : ∀ w, HeadIn gapChars w → flatFrom 0 p (x ++ w) =
    ⟨pre ++ f :: (flatFrom 0 (p.after x) w).lexemes, (flatFrom 0 (p.after x) w).fault⟩

/-- A text that is cut is cut behind another piece as well. -/
theorem Cuts.behind {now : List FlatLexeme} (h : Cuts (p.after y) x rest pre f post)
    (hpiece : ∀ w, HeadIn gapChars w → flatFrom 0 p (y ++ (x ++ w)) =
      ⟨now ++ (flatFrom 0 (p.after y) (x ++ w)).lexemes, (flatFrom 0 (p.after y) (x ++ w)).fault⟩) :
    Cuts p (y ++ x) rest (now ++ pre) f post := by
  have hafter := Position.after_append p y x
  refine ⟨List.append_ne_nil_of_right_ne_nil y h.ne, hafter ▸ h.stop, hafter ▸ h.column,
    hafter ▸ h.rest, fun w hw => ?_⟩
  rw [List.append_assoc, hpiece w hw, h.keeps w hw, hafter, List.append_assoc]

/-- **A source can be cut behind any of its tokens.**  The lexemes up to there are those of
the text up to there, whatever comes behind a gap. -/
theorem exists_cuts (hflat : (flatFrom 0 p cs).lexemes = pre ++ f :: post)
    (hfault : (flatFrom 0 p cs).fault = none) : ∃ x b, cs = x ++ b ∧ Cuts p x b pre f post := by
  induction cs using piece_induction generalizing p pre with
  | nil => simp [flatFrom] at hflat
  | bad cs n hne hscan => exact absurd hscan (ne_bad_of_fault hfault hne n)
  | skip y rest hne hscan ih =>
    rw [flatFrom_skip hscan hne] at hflat hfault
    obtain ⟨x, b, rfl, hcuts⟩ := ih hflat hfault
    refine ⟨y ++ x, b, (List.append_assoc _ _ _).symm, @Cuts.behind _ _ _ _ _ _ _ [] hcuts ?_⟩
    intro w _
    rw [flatFrom_skip_local hscan hne hcuts.ne]
    rfl
  | token t y rest hne hscan ih =>
    rw [flatFrom_token hscan hne] at hflat hfault
    cases pre with
    | nil =>
      obtain ⟨rfl, rfl⟩ := List.cons.inj hflat
      refine ⟨y, rest, rfl, hne, rfl, fun hnewline => ?_, congrArg (FlatSource.mk _) hfault,
        fun w hw => ?_⟩
      · have ht : t = .newline := hnewline
        exact column_after_break (isBreak_of_scan (ht ▸ hscan) hne) p
      · exact flatFrom_token_local (x := []) hscan hne (fun hnil => absurd rfl hnil) hw
    | cons g pre =>
      obtain ⟨rfl, hbehind⟩ := List.cons.inj hflat
      obtain ⟨x, b, rfl, hcuts⟩ := ih hbehind hfault
      refine ⟨y ++ x, b, (List.append_assoc _ _ _).symm,
        @Cuts.behind _ _ _ _ _ _ _ [lexemeAt t p (p.after y)] hcuts ?_⟩
      intro w hw
      exact flatFrom_token_local hscan hne (fun _ => hfault) hw

/-! ### Lines without tokens -/

/-- A comment, or nothing. -/
def IsComment (cs : List Char) : Prop :=
  cs = [] ∨ ∃ body, cs = '#' :: body ∧ ∀ c ∈ body, c ≠ '\r' ∧ c ≠ '\n'

/-- A line without tokens: blanks, perhaps a comment, and a line break. -/
def IsBlankLine (line : List Char) : Prop :=
  ∃ blanks comment ending, line = blanks ++ (comment ++ ending) ∧
    (∀ c ∈ blanks, isBlank c = true) ∧ IsComment comment ∧ IsBreak ending

variable {line comment ending blanks : List Char}

/-- A text that begins with a line break goes on with a gap. -/
theorem IsBreak.headIn (h : IsBreak ending) (rest : List Char) :
    HeadIn gapChars (ending ++ rest) := by
  rcases h with rfl | rfl <;> exact headIn_cons (by decide)

/-- A blank leaves no lexeme. -/
theorem flatFrom_blank (hc : isBlank c = true) (p : Position) (cs : List Char) :
    flatFrom 0 p (c :: cs) = flatFrom 0 (p.advance c) cs := by
  have hrun : flatFrom (blanksLength cs) (p.advance c) cs = flatFrom 0 (p.advance c) cs := by
    cases cs with
    | nil => rfl
    | cons d cs =>
      by_cases hd : isBlank d = true
      · have hlength : blanksLength (d :: cs) = blanksLength cs + 1 := by
          simp [blanksLength, runLength, hd]
        rw [hlength, flatFrom, flatFrom, scan_blank hd]
        rfl
      · have hlength : blanksLength (d :: cs) = 0 := by
          simp [blanksLength, runLength, hd]
        rw [hlength]
  rw [flatFrom, scan_blank hc]
  exact hrun

/-- Blanks are passed, one by one or all at once. -/
theorem flatFrom_blanks (h : ∀ c ∈ blanks, isBlank c = true) (p : Position) (rest : List Char) :
    flatFrom 0 p (blanks ++ rest) = flatFrom 0 (p.after blanks) rest := by
  induction blanks generalizing p with
  | nil => rfl
  | cons c blanks ih =>
    rw [List.cons_append, flatFrom_blank (h c List.mem_cons_self), Position.after_cons]
    exact ih (fun d hd => h d (List.mem_cons_of_mem c hd)) (p.advance c)

/-- A comment leaves no lexeme. -/
theorem flatFrom_comment (h : IsComment comment) (hending : IsBreak ending) (p : Position)
    (rest : List Char) : flatFrom 0 p (comment ++ (ending ++ rest)) =
      flatFrom 0 (p.after comment) (ending ++ rest) := by
  rcases h with rfl | ⟨body, rfl, hbody⟩
  · rfl
  · have hrun : runLength (fun c => c != '\r' && c != '\n') (body ++ (ending ++ rest)) =
        body.length := by
      rw [runLength, List.takeWhile_append_of_pos (by simpa using hbody)]
      rcases hending with rfl | rfl <;> simp
    refine flatFrom_skip ?_ (List.cons_ne_nil _ _) p
    rw [List.cons_append, scan_comment, hrun]
    rfl

/-- **A line without tokens is one line break.** -/
theorem flatFrom_blankLine (h : IsBlankLine line) (p : Position) :
    (p.after line).column = 0 ∧ ∃ f : FlatLexeme, f.token = .newline ∧
      ∀ rest, flatFrom 0 p (line ++ rest) = (flatFrom 0 (p.after line) rest).cons f := by
  obtain ⟨blanks, comment, ending, rfl, hblanks, hcomment, hending⟩ := h
  have hne : ending ≠ [] := List.length_pos_iff.1 hending.length_pos
  have hafter : p.after (blanks ++ (comment ++ ending)) =
      ((p.after blanks).after comment).after ending := by
    rw [Position.after_append, Position.after_append]
  rw [hafter]
  refine ⟨column_after_break hending _, lexemeAt .newline ((p.after blanks).after comment)
    (((p.after blanks).after comment).after ending), rfl, fun rest => ?_⟩
  rw [List.append_assoc, List.append_assoc, flatFrom_blanks hblanks,
    flatFrom_comment hcomment hending, flatFrom_token (scan_break hending rest) hne]

/-- A text that begins with an empty line goes on with a gap. -/
theorem IsBlankLine.headIn (h : IsBlankLine line) (rest : List Char) :
    HeadIn gapChars (line ++ rest) := by
  obtain ⟨blanks, comment, ending, rfl, hblanks, hcomment, hending⟩ := h
  rw [List.append_assoc, List.append_assoc]
  rcases blanks with - | ⟨c, blanks⟩
  · rcases hcomment with rfl | ⟨body, rfl, _⟩
    · exact hending.headIn rest
    · exact headIn_cons (by decide)
  · exact headIn_cons (mem_gapChars_iff.2 (.inl (hblanks c List.mem_cons_self)))

/-! ### The end of a source -/

/-- What is skipped as a whole are blanks, a comment or a joined line. -/
theorem skip_cases (h : scan y = .skip y.length) (hne : y ≠ []) :
    (∀ c ∈ y, isBlank c = true) ∨ IsComment y ∨ ∃ ending, IsBreak ending ∧ y = '\\' :: ending := by
  have hbegins := begins_of_ne_nil hne
  rw [h] at hbegins
  have hall : ∀ {q : Char → Bool} {cs : List Char}, cs.length + 1 = runLength q cs + 1 →
      ∀ c ∈ cs, q c = true := by
    intro q cs hlength c hc
    have hwhole := (List.takeWhile_prefix q).eq_of_length (Nat.succ.inj hlength).symm
    rw [← hwhole] at hc
    exact List.all_eq_true.1 List.all_takeWhile c hc
  generalize hlength : y.length = n at hbegins
  cases hbegins with
  | blanks hc cs =>
    refine .inl fun d hd => ?_
    rcases List.mem_cons.1 hd with rfl | hd
    · exact hc
    · exact hall hlength d hd
  | comment cs => exact .inr (.inl (.inr ⟨cs, rfl, by simpa using hall hlength⟩))
  | joined hending cs =>
    obtain rfl : cs = [] := List.length_eq_zero_iff.1 (by
      rw [List.length_cons, List.length_append] at hlength
      omega)
    exact .inr (.inr ⟨_, hending, by rw [List.append_nil]⟩)
  | literal _ hs => exact absurd rfl (ne_skip_of_scanString? hs _)
  | lexical _ _ hmem =>
    obtain ⟨⟨_, _, hk⟩, _⟩ := exists_confined hmem
    cases hk

/-- Blanks and comments before a line without tokens belong to it. -/
theorem IsBlankLine.append (hline : IsBlankLine line)
    (h : (∀ c ∈ y, isBlank c = true) ∨ IsComment y) : IsBlankLine (y ++ line) := by
  obtain ⟨blanks, comment, ending, rfl, hblanks, hcomment, hending⟩ := hline
  rcases h with hy | rfl | ⟨body, rfl, hbody⟩
  · refine ⟨y ++ blanks, comment, ending, (List.append_assoc _ _ _).symm, fun c hc => ?_, hcomment,
      hending⟩
    exact (List.mem_append.1 hc).elim (hy c) (hblanks c)
  · exact ⟨blanks, comment, ending, rfl, hblanks, hcomment, hending⟩
  · -- the comment goes on to the end of the line
    refine ⟨[], '#' :: (body ++ (blanks ++ comment)), ending, by simp, by simp,
      .inr ⟨_, rfl, fun c hc => ?_⟩, hending⟩
    rcases List.mem_append.1 hc with hc | hc
    · exact hbody c hc
    · rcases List.mem_append.1 hc with hc | hc
      · constructor <;> (rintro rfl; exact absurd (hblanks _ hc) (by decide))
      · rcases hcomment with rfl | ⟨body', rfl, hbody'⟩
        · cases hc
        · rcases List.mem_cons.1 hc with rfl | hc
          · decide
          · exact hbody' c hc

/-- **A line without tokens at the end of a source adds one line break.** -/
theorem flatFrom_line_end (hline : IsBlankLine line) (hfault : (flatFrom 0 p cs).fault = none) :
    ∃ f : FlatLexeme, f.token = .newline ∧
      flatFrom 0 p (cs ++ line) = ⟨(flatFrom 0 p cs).lexemes ++ [f], none⟩ := by
  have halone : ∀ {line} p, IsBlankLine line → ∃ f : FlatLexeme, f.token = .newline ∧
      flatFrom 0 p line = ⟨[f], none⟩ := by
    intro line p hline
    obtain ⟨_, f, hf, hflat⟩ := flatFrom_blankLine hline p
    have hend := hflat []
    rw [List.append_nil] at hend
    exact ⟨f, hf, hend⟩
  induction cs using piece_induction generalizing p with
  | nil => exact halone p hline
  | bad cs n hne hscan => exact absurd hscan (ne_bad_of_fault hfault hne n)
  | skip y rest hne hscan ih =>
    rw [flatFrom_skip hscan hne] at hfault ⊢
    by_cases hrest : rest = []
    · subst hrest
      rw [List.append_nil] at hscan ⊢
      rcases skip_cases hscan hne with hblanks | hcomment | ⟨ending, hending, rfl⟩
      · exact halone p (hline.append (.inl hblanks))
      · exact halone p (hline.append (.inr hcomment))
      · have hjoin : scan ('\\' :: ending ++ line) = .skip ('\\' :: ending).length :=
          scan_join hending line
        rw [flatFrom_skip hjoin hne]
        exact halone _ hline
    · rw [← List.append_nil rest] at hscan
      rw [List.append_assoc, flatFrom_skip_local hscan hne hrest]
      exact ih hfault
  | token t y rest hne hscan ih =>
    rw [flatFrom_token hscan hne] at hfault ⊢
    obtain ⟨f, hf, hflat⟩ := ih hfault
    rw [← List.append_nil rest] at hscan hfault
    rw [List.append_assoc, flatFrom_token_local hscan hne (fun _ => hfault)
      (List.append_nil line ▸ hline.headIn []), hflat]
    exact ⟨f, hf, rfl⟩

end Source
end Lineage
