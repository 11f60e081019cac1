/-
# Lines broken at a semicolon

A semicolon outside of brackets and what is between it and the next token may be replaced by
a line break and blanks that lead to the column of the line.  Then a `newline` stands where
the semicolon stood, the tokens in front of it are the same, and so are those behind it, all
of them moved by the same number of bytes (`tokenizeChars_broken`).

Such a source is cut in front of two tokens (`exists_front`): in front of the semicolon, and
in front of the token behind it.  What is behind the second cut is read from another place
and in another column, of which the layout sees the first column only (`read_moved`); that is
the column in which the line began (`Layout.Line`).
-/

import Lineage.Proofs.Source.Gaps
import Lineage.Proofs.Source.Joining
import Lineage.Proofs.Source.LayoutTree
import Lineage.Proofs.Source.Spelling
import Mathlib.Data.List.Forall2

namespace Lineage
namespace Source

open Text

variable {x y z v w cs rest word ending indent gap lead new : List Char} {t : Token}
  {n n' k stop stop' : Nat}
  {p p' : Position} {f g : FlatLexeme} {fs fs' pre post flat : List FlatLexeme}
  {l l' first mark next : Lexeme} {ls before left out now later after : List Lexeme} {s s' : Layout}
  {exact : Bool} {fault fault' : Option Extent}

/-! ### In front of a token -/

/-- What is skipped up to some place is skipped in front of a line break. -/
theorem scan_skip_break (h : scan (y ++ v) = .skip y.length) (hne : y ≠ [])
    (hending : IsBreak ending) (w : List Char) :
    scan (y ++ (ending ++ w)) = .skip y.length := by
  have hrun : ∀ {q : Char → Bool} {cs : List Char}, (∀ c ∈ cs, q c = true) →
      q '\r' = false → q '\n' = false → runLength q (cs ++ (ending ++ w)) = cs.length := by
    intro q cs hall hreturn hnewline
    rw [runLength, List.takeWhile_append_of_pos hall]
    rcases hending with rfl | rfl <;> simp [hreturn, hnewline]
  have hbegins := begins_of_ne_nil (List.append_ne_nil_of_left_ne_nil hne v)
  rw [h] at hbegins
  obtain ⟨c, y, rfl⟩ := List.exists_cons_of_ne_nil hne
  generalize hcs : c :: y ++ v = cs at hbegins
  generalize hlength : (c :: y).length = m at hbegins ⊢
  cases hbegins with
  | blanks hc cs =>
    obtain ⟨rfl, rfl⟩ := List.cons.inj hcs
    obtain ⟨hblanks, _⟩ := run_eq (Nat.succ.inj hlength).symm
    rw [List.cons_append, scan_blank hc, blanksLength, hrun hblanks rfl rfl, ← hlength]
    rfl
  | comment cs =>
    obtain ⟨rfl, rfl⟩ := List.cons.inj hcs
    obtain ⟨hbody, _⟩ := run_eq (Nat.succ.inj hlength).symm
    rw [List.cons_append, scan_comment, hrun hbody rfl rfl, ← hlength]
    rfl
  | joined hjoin cs =>
    obtain ⟨rfl, htail⟩ := List.cons.inj hcs
    obtain ⟨rfl, _⟩ := List.append_inj htail (Nat.succ.inj hlength)
    exact scan_join hjoin _
  | literal _ hs => exact absurd rfl (ne_skip_of_scanString? hs _)
  | lexical _ _ hmem =>
    obtain ⟨⟨_, _, hk⟩, _⟩ := exists_confined hmem
    cases hk

/-- The text `x` reaches to the token of `f`, which is `word`; `pre` stands in front of it, and
`y` goes on with `post`. -/
structure Fronts (p : Position) (x word y : List Char) (pre : List FlatLexeme) (f : FlatLexeme)
    (post : List FlatLexeme) : Prop where
  start : f.extent.start = (p.after x).offset
  ne : word ≠ []
  scan_eq : scan (word ++ y) = .token f.token word.length
  rest : flatFrom 0 (p.after x) (word ++ y) = ⟨f :: post, none⟩
  behind : flatFrom 0 (p.after (x ++ word)) y = ⟨post, none⟩
  keeps : ∀ {ending}, IsBreak ending → ∀ w, flatFrom 0 p (x ++ (ending ++ w)) =
    ⟨pre ++ (flatFrom 0 (p.after x) (ending ++ w)).lexemes,
      (flatFrom 0 (p.after x) (ending ++ w)).fault⟩

/-- A text that reaches to a token does so behind another piece as well. -/
theorem Fronts.add {now : List FlatLexeme} (h : Fronts (p.after z) x word y pre f post)
    (hpiece : ∀ {ending}, IsBreak ending → ∀ w, flatFrom 0 p (z ++ (x ++ (ending ++ w))) =
      ⟨now ++ (flatFrom 0 (p.after z) (x ++ (ending ++ w))).lexemes,
        (flatFrom 0 (p.after z) (x ++ (ending ++ w))).fault⟩) :
    Fronts p (z ++ x) word y (now ++ pre) f post := by
  have hafter := Position.after_append p z x
  refine ⟨hafter ▸ h.start, h.ne, h.scan_eq, hafter ▸ h.rest, ?_, fun hending w => ?_⟩
  · rw [List.append_assoc, Position.after_append]
    exact h.behind
  · rw [List.append_assoc, hpiece hending, h.keeps hending, hafter, List.append_assoc]

/-- **A source can be cut in front of any of its tokens.**  The lexemes up to there are those of
the text up to there, also in front of a line break. -/
theorem exists_front (hflat : (flatFrom 0 p cs).lexemes = pre ++ f :: post)
    (hfault : (flatFrom 0 p cs).fault = none) :
    ∃ x word y, cs = x ++ (word ++ y) ∧ Fronts p x word y pre f post := by
  induction cs using piece_induction generalizing p pre with
  | nil => simp [flatFrom] at hflat
  | bad cs n hne hscan => exact absurd hscan (ne_bad_of_fault hfault hne n)
  | skip z rest hne hscan ih =>
    rw [flatFrom_skip hscan hne] at hflat hfault
    obtain ⟨x, word, y, rfl, hfronts⟩ := ih hflat hfault
    refine ⟨z ++ x, word, y, (List.append_assoc _ _ _).symm,
      @Fronts.add _ _ _ _ _ _ _ _ [] hfronts fun {ending} hending w => ?_⟩
    by_cases hx : x = []
    · subst hx
      rw [List.nil_append, flatFrom_skip (scan_skip_break hscan hne hending w) hne]
      rfl
    · rw [flatFrom_skip_local hscan hne hx]
      rfl
  | token t z rest hne hscan ih =>
    have hflat' := hflat
    rw [flatFrom_token hscan hne] at hflat hfault
    cases pre with
    | nil =>
      obtain ⟨rfl, rfl⟩ := List.cons.inj hflat
      refine ⟨[], z, rest, rfl, rfl, hne, hscan, ?_, congrArg (FlatSource.mk _) hfault,
        fun _ _ => rfl⟩
      rw [Position.after_nil, flatFrom_token hscan hne]
      exact congrArg (FlatSource.mk _) hfault
    | cons g pre =>
      obtain ⟨rfl, hbehind⟩ := List.cons.inj hflat
      obtain ⟨x, word, y, rfl, hfronts⟩ := ih hbehind hfault
      refine ⟨z ++ x, word, y, (List.append_assoc _ _ _).symm,
        @Fronts.add _ _ _ _ _ _ _ _ [lexemeAt t p (p.after z)] hfronts fun {ending} hending w => ?_⟩
      exact flatFrom_token_local hscan hne (fun _ => hfault) (hending.headIn w)

/-! ### Texts that are moved -/

/-- Two stretches, as far behind two offsets. -/
def Moved (n n' : Nat) (e e' : Extent) : Prop :=
  ∃ i j, e = ⟨n + i, n + j⟩ ∧ e' = ⟨n' + i, n' + j⟩

/-- Two lexemes of the same token, as far behind two offsets. -/
structure MovedLexeme (n n' : Nat) (l l' : Lexeme) : Prop where
  token : l'.token = l.token
  extent : Moved n n' l.extent l'.extent

/-- Stretches as far behind two offsets are as far behind earlier ones. -/
theorem Moved.of_add {e e' : Extent} (h : Moved (n + k) (n' + k) e e') : Moved n n' e e' := by
  obtain ⟨i, j, rfl, rfl⟩ := h
  exact ⟨k + i, k + j, by simp [Nat.add_assoc], by simp [Nat.add_assoc]⟩

/-- The lexemes of a text stand in it alike wherever it starts. -/
theorem moved_flatFrom (p p' : Position) (cs : List Char) :
    List.Forall₂ (fun f f' => Moved p.offset p'.offset f.extent f'.extent)
      (flatFrom 0 p cs).lexemes (flatFrom 0 p' cs).lexemes := by
  have hlater : ∀ (z : List Char) {fs fs' : List FlatLexeme} {p p' : Position},
      List.Forall₂ (fun f f' => Moved (p.after z).offset (p'.after z).offset f.extent f'.extent)
        fs fs' →
      List.Forall₂ (fun f f' => Moved p.offset p'.offset f.extent f'.extent) fs fs' := by
    intro z fs fs' p p' h
    rw [Position.offset_after, Position.offset_after] at h
    exact List.Forall₂.imp (fun _ _ => Moved.of_add) h
  induction cs using piece_induction generalizing p p' with
  | nil => exact .nil
  | bad cs n hne hscan =>
    obtain ⟨e, he⟩ := flatFrom_bad (p := p) hscan hne
    obtain ⟨e', he'⟩ := flatFrom_bad (p := p') hscan hne
    rw [he, he']
    exact .nil
  | skip z rest hne hscan ih =>
    rw [flatFrom_skip hscan hne, flatFrom_skip hscan hne]
    exact hlater z (ih _ _)
  | token t z rest hne hscan ih =>
    rw [flatFrom_token hscan hne, flatFrom_token hscan hne]
    refine .cons ⟨0, byteLength z, ?_, ?_⟩ (hlater z (ih _ _))
    · rw [lexemeAt, Position.offset_after]
      rfl
    · rw [lexemeAt, Position.offset_after]
      rfl

namespace Layout

/-- Changes of indentation stand at the starts of stretches that are moved. -/
theorem moved_points {shifts : List Token} {e e' : Extent} (h : Moved n n' e e') :
    List.Forall₂ (MovedLexeme n n') (shifts.map (⟨·, .point e.start⟩))
      (shifts.map (⟨·, .point e'.start⟩)) := by
  obtain ⟨i, j, rfl, rfl⟩ := h
  rw [List.forall₂_map_left_iff, List.forall₂_map_right_iff]
  exact List.forall₂_same.2 fun t _ => ⟨rfl, i, i, rfl, rfl⟩

/-- A lexeme that is moved stands for lexemes that are moved. -/
theorem Step.exists_moved {f' : FlatLexeme} (h : s.Step f now s') (htoken : f'.token = f.token)
    (hcolumn : s.atLineStart = true → f'.column = f.column)
    (hextent : Moved n n' f.extent f'.extent) :
    ∃ now', s.Step f' now' s' ∧ List.Forall₂ (MovedLexeme n n') now now' := by
  have hself : MovedLexeme n n' f.toLexeme f'.toLexeme := ⟨htoken, hextent⟩
  cases h with
  | lineEnd hnewline hdepth hinside =>
    exact ⟨_, .lineEnd (htoken.trans hnewline) hdepth hinside, .cons hself .nil⟩
  | noLine hnewline hopen => exact ⟨_, .noLine (htoken.trans hnewline) hopen, .nil⟩
  | lineStart hother hstart hopen =>
    refine ⟨_, ?_, List.rel_append (moved_points hextent) (.cons hself .nil)⟩
    rw [← htoken]
    exact .lineStart (htoken.symm ▸ hother) hstart ((hcolumn hstart).symm ▸ hopen)
  | inLine hother hinside =>
    refine ⟨_, ?_, .cons hself .nil⟩
    rw [← htoken]
    exact .inLine (htoken.symm ▸ hother) hinside

/-- What is added at the end of a source is moved with the end. -/
theorem moved_finish (s : Layout) (n n' k : Nat) :
    List.Forall₂ (MovedLexeme n n') (s.finish (n + k)) (s.finish (n' + k)) := by
  have hpoint : ∀ t : Token, MovedLexeme n n' ⟨t, .point (n + k)⟩ ⟨t, .point (n' + k)⟩ :=
    fun _ => ⟨rfl, k, k, rfl, rfl⟩
  refine List.rel_append ?_ ?_
  · split
    · exact .nil
    · exact .cons (hpoint _) .nil
  · induction s.columns.length - 1 with
    | zero => exact .nil
    | succ m ih => exact .cons (hpoint _) ih

/-- **Lexemes that are moved are read alike**, from the start of a line on if they are in the same
columns. -/
theorem read_moved (h : Follows 0 exact fs fs')
    (hextents : List.Forall₂ (fun f f' => Moved n n' f.extent f'.extent) fs fs')
    (hs : exact = true ∨ s.atLineStart = false) (hread : read (n + k) none s fs = .ok out) :
    ∃ out', read (n' + k) none s fs' = .ok out' ∧ List.Forall₂ (MovedLexeme n n') out out' := by
  induction h generalizing s out with
  | nil =>
    obtain ⟨_, rfl⟩ := read_nil hread
    exact ⟨_, rfl, moved_finish s n n' k⟩
  | @cons exact f f' fs fs' htoken hcolumn h ih =>
    obtain ⟨now, s', later, hstep, hlater, rfl⟩ := read_cons hread
    obtain ⟨hextent, hextents⟩ := List.forall₂_cons.1 hextents
    obtain ⟨now', hstep', hnow⟩ := hstep.exists_moved htoken
      (fun hstart => hcolumn (hs.resolve_right (by simp [hstart]))) hextent
    have hnext : (exact || f.token == .newline) = true ∨ s'.atLineStart = false := by
      by_cases hnewline : f.token = .newline
      · exact .inl (by simp [hnewline])
      · exact .inr (hstep.atLineStart hnewline)
    obtain ⟨later', hread', hlater'⟩ := ih hextents hnext hlater
    refine ⟨now' ++ later', ?_, List.rel_append hnow hlater'⟩
    rw [read, hstep'.step_eq]
    dsimp only
    rw [hread']

/-! ### The column of a line -/

/-- What the layout knows behind the lexemes: a line that has begun did so in the innermost of
the open columns. -/
structure Line (fs : List FlatLexeme) (s : Layout) (out : List Lexeme) : Prop where
  starts : s.atLineStart = true → ∀ l, out.getLast? = some l → l.token.isLayout = true
  begun : s.atLineStart = false → ∃ before f left, out = before ++ f.toLexeme :: left ∧ f ∈ fs ∧
    (∀ l ∈ f.toLexeme :: left, l.token.isLayout = false) ∧
    (∀ l, before.getLast? = some l → l.token.isLayout = true) ∧ s.columns.head? = some f.column

/-- A line that is opened is in the innermost of the open columns. -/
theorem head?_of_openLine? {columns kept : List Nat} {column : Nat} {shifts : List Token}
    (h : openLine? columns column = some (kept, shifts)) : kept.head? = some column := by
  unfold openLine? at h
  split at h
  · obtain ⟨rfl, _⟩ := Prod.mk.inj (Option.some.inj h)
    rfl
  · split at h
    · obtain ⟨rfl, _⟩ := Prod.mk.inj (Option.some.inj h)
      rfl
    · dsimp only at h
      split at h
      · rename_i hhead
        obtain ⟨rfl, _⟩ := Prod.mk.inj (Option.some.inj h)
        exact hhead
      · cases h

/-- In the innermost of the open columns no block begins or ends. -/
theorem openLine?_head {columns : List Nat} {column : Nat} (h : columns.head? = some column) :
    openLine? columns column = some (columns, []) := by
  obtain ⟨outer, rfl⟩ := List.head?_eq_some_iff.1 h
  simp [openLine?]

/-- A step keeps what is known of the line. -/
theorem Step.line (h : s.Step f now s') (hs : s.Line flat out) (hf : f ∈ flat)
    (hshift : f.token.isShift = false) : s'.Line flat (out ++ now) := by
  have hself : f.token ≠ .newline → f.toLexeme.token.isLayout = false := fun hother => by
    simp [Token.isLayout, hother, hshift]
  cases h with
  | lineEnd hnewline =>
    refine ⟨fun _ l hl => ?_, fun hinside => by simp at hinside⟩
    rw [List.getLast?_concat] at hl
    rw [← Option.some.inj hl, Token.isLayout, hnewline]
    rfl
  | noLine => exact (List.append_nil out).symm ▸ hs
  | @lineStart columns shifts hother hstart hopen =>
    refine ⟨fun h => by simp at h, fun _ => ?_⟩
    refine ⟨out ++ shifts.map (⟨·, .point f.extent.start⟩), f, [], by simp, hf,
      by simpa using hself hother, fun l hl => ?_, head?_of_openLine? hopen⟩
    rw [List.getLast?_append, Option.or_eq_some_iff] at hl
    rcases hl with hl | ⟨_, hl⟩
    · exact isLayout_of_mem_shifts hopen (List.mem_of_getLast? hl)
    · exact hs.starts hstart l hl
  | inLine hother hinside =>
    refine ⟨fun h => ?_, fun _ => ?_⟩
    · rw [show s.atLineStart = true from h] at hinside
      cases hinside
    · obtain ⟨before, g, left, rfl, hg, hline, hbefore, hhead⟩ := hs.begun hinside
      refine ⟨before, g, left ++ [f.toLexeme], by simp, hg, fun l hl => ?_, hbefore, hhead⟩
      rw [← List.cons_append] at hl
      rcases List.mem_append.1 hl with hl | hl
      · exact hline l hl
      · exact List.mem_singleton.1 hl ▸ hself hother

/-- Steps keep what is known of the line. -/
theorem Runs.line (h : Runs s fs later s') (hs : s.Line flat out) (hfs : fs ⊆ flat)
    (hshift : ∀ f ∈ flat, f.token.isShift = false) : s'.Line flat (out ++ later) := by
  induction h generalizing out with
  | nil => exact (List.append_nil out).symm ▸ hs
  | @cons s s' s'' f fs now later hstep h ih =>
    obtain ⟨hf, hfs⟩ := List.cons_subset.1 hfs
    rw [← List.append_assoc]
    exact ih (hstep.line hs hf (hshift f hf)) hfs

/-- At the start of a source no line has begun. -/
theorem line_first (flat : List FlatLexeme) : Layout.first.Line flat [] :=
  ⟨fun _ _ h => (nomatch h), fun h => by cases h⟩

/-- Inside a line a token of the line is read as it stands. -/
theorem read_inside (h : read stop fault s fs = .ok (l :: after)) (hinside : s.atLineStart = false)
    (hdepth : s.depth = 0) (hl : l.token.isLayout = false) :
    ∃ f post, fs = f :: post ∧ f.toLexeme = l ∧
      read stop fault { s with depth := depthAfter s.depth l.token } post = .ok after := by
  cases fs with
  | nil =>
    obtain ⟨_, hout⟩ := read_nil h
    rw [finish, hinside, if_neg Bool.false_ne_true, List.singleton_append] at hout
    rw [(List.cons.inj hout).1] at hl
    cases hl
  | cons f post =>
    obtain ⟨now, s', later, hstep, hlater, hout⟩ := read_cons h
    cases hstep with
    | lineEnd hnewline =>
      rw [(List.cons.inj hout).1, Token.isLayout, hnewline] at hl
      cases hl
    | noLine _ hopen =>
      rw [hopen hdepth] at hinside
      cases hinside
    | lineStart _ hstart =>
      rw [hstart] at hinside
      cases hinside
    | inLine =>
      obtain ⟨rfl, rfl⟩ := List.cons.inj hout
      exact ⟨f, post, rfl, rfl, hlater⟩

end Layout

/-- Where a line begins among lexemes is told by its layout. -/
theorem line_unique {before' left' : List Lexeme} (h : before ++ l :: left = before' ++ l' :: left')
    (hline : ∀ m ∈ l :: left, m.token.isLayout = false)
    (hline' : ∀ m ∈ l' :: left', m.token.isLayout = false)
    (hbefore : ∀ m, before.getLast? = some m → m.token.isLayout = true)
    (hbefore' : ∀ m, before'.getLast? = some m → m.token.isLayout = true) : l = l' := by
  -- of two line starts the later one would be inside the line of the other
  have hsame : ∀ {a a' m : List Lexeme}, a' = a ++ m →
      (∀ m, a'.getLast? = some m → m.token.isLayout = true) →
      (∀ b ∈ m, b.token.isLayout = false) → m = [] := by
    intro a a' m ha hlast hm
    rcases List.eq_nil_or_concat m with rfl | ⟨m, z, rfl⟩
    · rfl
    · have hz := hlast z (by rw [ha]; simp)
      rw [hm z (by simp)] at hz
      cases hz
  rcases List.append_eq_append_iff.1 h with ⟨m, ha, hm⟩ | ⟨m, ha, hm⟩
  · obtain rfl := hsame ha hbefore' fun b hb =>
      hline b (hm ▸ List.mem_append_left _ hb)
    exact (List.cons.inj hm).1
  · obtain rfl := hsame ha hbefore fun b hb =>
      hline' b (hm ▸ List.mem_append_left _ hb)
    exact (List.cons.inj hm).1.symm

/-- A token of a line has a stretch of the source. -/
theorem start_lt_stop_of_line (h : tokenizeChars cs = .ok ls) (hl : l ∈ ls)
    (hline : l.token.isLayout = false) : l.extent.start < l.extent.stop := by
  rcases mem_of_mem_read h hl with hflat | hlayout
  · obtain ⟨f, hf, rfl⟩ := List.mem_map.1 hflat
    obtain ⟨done, rest, n, hscanned⟩ := exists_scanned hf
    have hne : rest ≠ [] := by
      rintro rfl
      exact nomatch hscanned.scan_eq
    have hbegins := begins_of_ne_nil hne
    rw [hscanned.scan_eq] at hbegins
    obtain ⟨hpos, hle⟩ : 0 < n ∧ n ≤ rest.length := hbegins.length fun _ => by simp
    have hlength := length_le_byteLength (rest.take n)
    rw [List.length_take_of_le hle] at hlength
    rw [hscanned.extent_eq, byteLength_append]
    exact Nat.lt_add_of_pos_right (Nat.lt_of_lt_of_le hpos hlength)
  · rw [hline] at hlayout
    cases hlayout

/-! ### Broken lines -/

/-- In the source `x ++ ';' :: (gap ++ y)` a semicolon outside of brackets stands behind a part of
a line, `first :: left`, and in front of the token `next` of that line.  The text `new` is a line
break, and blanks that lead to the column in which the line begins. -/
structure Broken (x gap y new : List Char) (before : List Lexeme) (first : Lexeme)
    (left : List Lexeme) (mark next : Lexeme) (after : List Lexeme) : Prop where
  tokens : tokenizeChars (x ++ ';' :: (gap ++ y)) =
    .ok (before ++ (first :: left ++ mark :: next :: after))
  semicolon : mark.token = .semicolon
  mark_start : mark.extent.start = byteLength x
  next_start : next.extent.start = byteLength (x ++ ';' :: gap)
  begins : ∀ l, before.getLast? = some l → l.token.isLayout = true
  line : ∀ l ∈ first :: left, l.token.isLayout = false
  next_line : next.token.isLayout = false
  closed : Layout.depthBehind 0 (before ++ (first :: left)) = 0
  new_eq : ∃ ending indent lead, new = ending ++ indent ∧ IsBreak ending ∧
    (∀ c ∈ indent, isBlank c = true) ∧ lead <+: x ∧ first.extent.start = byteLength lead ∧
      (Position.first.after indent).column = (Position.first.after lead).column

/-- The place behind a text is as far as the text is long. -/
theorem offset_first_after (cs : List Char) : (Position.first.after cs).offset = byteLength cs := by
  rw [Position.offset_after]
  exact Nat.zero_add _

/-- A semicolon is written as one. -/
theorem Fronts.word_eq (h : Fronts p x word y pre f post) (htoken : f.token = .semicolon) :
    word = [';'] := by
  have hwrites := writes_of_scan h.scan_eq h.ne
  rw [htoken] at hwrites
  generalize ht : Token.semicolon = t at hwrites
  cases hwrites with
  | text h => subst ht; cases h
  | fixed _ hmem =>
    subst ht
    have hall : ∀ f ∈ keywords ++ fixedTokens, f.2 = .semicolon → f.1.toList = [';'] := by decide
    exact hall _ hmem rfl
  | newline => cases ht
  | shift h => subst ht; cases h

/-- What stands in front of the semicolon ends there. -/
theorem Broken.front_within (h : Broken x gap y new before first left mark next after) :
    ∀ l ∈ before ++ first :: left,
      l.extent.start ≤ l.extent.stop ∧ l.extent.stop ≤ byteLength x := by
  have hplaced := placed_of_tokenizeChars h.tokens
  rw [← List.append_assoc] at hplaced
  intro l hl
  have hstop := (List.pairwise_append.1 hplaced.pairwise).2.2 l hl mark List.mem_cons_self
  exact ⟨(hplaced.of_mem (List.mem_append_left _ hl)).2.1, h.mark_start ▸ hstop⟩

/-- What stands behind the semicolon ends in the source. -/
theorem Broken.behind_within (h : Broken x gap y new before first left mark next after) :
    ∀ l ∈ next :: after, l.extent.start ≤ l.extent.stop ∧
      l.extent.stop ≤ byteLength (x ++ ';' :: (gap ++ y)) := by
  have hplaced := placed_of_tokenizeChars h.tokens
  rw [← List.append_assoc] at hplaced
  intro l hl
  obtain ⟨_, hle, _, hcut⟩ :=
    hplaced.of_mem (List.mem_append_right _ (List.mem_cons_of_mem mark hl))
  exact ⟨hle, hcut.le_byteLength⟩

/-- The semicolon ends in front of what stands behind the gap. -/
theorem Broken.mark_stop (h : Broken x gap y new before first left mark next after) :
    mark.extent.stop ≤ byteLength (x ++ ';' :: gap) := by
  have hplaced := placed_of_tokenizeChars h.tokens
  rw [← List.append_assoc] at hplaced
  have hbehind := (List.pairwise_append.1 hplaced.pairwise).2.1
  exact h.next_start ▸ (List.pairwise_cons.1 hbehind).1 next List.mem_cons_self

/-- Behind the first part of the line no line starts, no bracket is open, and the innermost of the
open columns is that of the line. -/
theorem Broken.line_column (h : Broken x gap y new before first left mark next after)
    (hruns : Layout.Runs .first fs (before ++ (first :: left)) s)
    (hfs : fs ⊆ (flatLexemes (x ++ ';' :: (gap ++ y))).lexemes) (hlead : lead <+: x)
    (hfirst : first.extent.start = byteLength lead) : s.atLineStart = false ∧ s.depth = 0 ∧
      s.columns.head? = some (Position.first.after lead).column := by
  have hline := hruns.line (Layout.line_first _) hfs fun f hf => isShift_of_mem_flatFrom hf
  rw [List.nil_append] at hline
  have hinside : s.atLineStart = false := by
    cases hstart : s.atLineStart with
    | false => rfl
    | true =>
      obtain ⟨z, hz⟩ := Option.isSome_iff_exists.1
        (List.getLast?_isSome.2 (List.cons_ne_nil first left))
      have hlayout := hline.starts hstart z (by rw [List.getLast?_append, hz, Option.some_or])
      rw [h.line z (List.mem_of_getLast? hz)] at hlayout
      cases hlayout
  refine ⟨hinside, (hruns.settled settled_first).2.trans h.closed, ?_⟩
  obtain ⟨before', f, left', hsplit, hf, hline', hbefore', hhead⟩ := hline.begun hinside
  have hsame := line_unique hsplit h.line hline' h.begins hbefore'
  obtain ⟨behind, rfl⟩ := hlead
  obtain ⟨done, rest, n, hscanned⟩ := exists_scanned hf
  have hstart : byteLength done = byteLength lead := by
    rw [← hfirst, hsame, hscanned.extent_eq]
  have htext := hscanned.text_eq
  rw [List.append_assoc] at htext
  obtain ⟨rfl, _⟩ := cut_unique htext.symm hstart
  rw [hhead, hscanned.column_eq]

/-- The semicolon and the token behind it are read inside the line. -/
theorem Broken.exists_cut (h : Broken x gap y new before first left mark next after)
    (hlead : lead <+: x) (hfirst : first.extent.start = byteLength lead) :
    ∃ pre f g post s, flatLexemes (x ++ ';' :: (gap ++ y)) = ⟨pre ++ f :: g :: post, none⟩ ∧
      f.toLexeme = mark ∧ g.toLexeme = next ∧
      Layout.Runs .first pre (before ++ (first :: left)) s ∧ s.atLineStart = false ∧ s.depth = 0 ∧
      s.columns.head? = some (Position.first.after lead).column ∧
      Layout.read (byteLength (x ++ ';' :: (gap ++ y))) none
        { s with depth := Layout.depthAfter 0 next.token } post = .ok after := by
  obtain ⟨line, z, hline⟩ := (List.eq_nil_or_concat (first :: left)).resolve_left
    (List.cons_ne_nil _ _)
  rw [List.concat_eq_append] at hline
  have hz : z.token.isLayout = false := h.line z (by simp [hline])
  have hread := h.tokens
  have hplaced := placed_of_tokenizeChars hread
  rw [tokenizeChars] at hread
  have hfault := Layout.fault_of_read hread
  rw [hline, List.append_assoc, ← List.append_assoc, List.singleton_append] at hread hplaced
  cases Layout.cut_of_read settled_first hread with
  | shift hshift => rw [Token.isLayout, hshift, Bool.or_true] at hz; cases hz
  | finish hend =>
    have hle := (List.pairwise_cons.1 (List.pairwise_append.1 hplaced.pairwise).2.1).1 mark
      (by simp)
    rw [hend, h.mark_start] at hle
    simp only [Extent.point, byteLength_append, byteLength_cons] at hle
    have := Char.utf8Size_pos ';'
    omega
  | @behind pre post f s hflat hl hruns =>
    rw [List.append_assoc, ← hline] at hruns
    have hsplit : (flatLexemes (x ++ ';' :: (gap ++ y))).lexemes = pre ++ [f] ++ post := by
      rw [hflat, List.append_assoc, List.singleton_append]
    obtain ⟨hinside, hdepth, hhead⟩ := h.line_column hruns
      (hsplit ▸ List.subset_append_left _ post) hlead hfirst
    rw [hfault, hsplit, Layout.read_of_runs hruns, hline] at hread
    cases hrest : Layout.read (byteLength (x ++ ';' :: (gap ++ y))) none s post with
    | error e => rw [hrest] at hread; cases hread
    | ok rest =>
      rw [hrest] at hread
      obtain rfl : rest = mark :: next :: after := by
        simpa [Except.map] using Except.ok.inj hread
      obtain ⟨f', post, rfl, hmark, hrest⟩ :=
        Layout.read_inside hrest hinside hdepth (by rw [h.semicolon]; rfl)
      rw [h.semicolon, hdepth] at hrest
      obtain ⟨g, post, rfl, hnext, hrest⟩ := Layout.read_inside hrest hinside rfl h.next_line
      refine ⟨pre ++ [f], f', g, post, s, ?_, hmark, hnext, hruns, hinside, hdepth, hhead, hrest⟩
      rw [← hsplit, ← hfault]

/-- The source is cut in front of the semicolon, and behind that in front of the next token. -/
theorem Broken.exists_fronts (h : Broken x gap y new before first left mark next after)
    (hflat : flatLexemes (x ++ ';' :: (gap ++ y)) = ⟨pre ++ f :: g :: post, none⟩)
    (hmark : f.toLexeme = mark) (hnext : g.toLexeme = next) :
    ∃ word z, y = word ++ z ∧ Fronts .first x [';'] (gap ++ y) pre f (g :: post) ∧
      Fronts (Position.first.after (x ++ [';'])) gap word z [] g post := by
  obtain ⟨x₀, word, y₀, hcs, hfronts⟩ :=
    exists_front (p := .first) (congrArg FlatSource.lexemes hflat) (congrArg FlatSource.fault hflat)
  obtain rfl := hfronts.word_eq ((congrArg Lexeme.token hmark).trans h.semicolon)
  have hx : byteLength x = byteLength x₀ := by
    rw [← offset_first_after x₀, ← hfronts.start, ← h.mark_start, ← hmark]
  obtain ⟨rfl, hy₀⟩ := cut_unique hcs hx
  obtain rfl : gap ++ y = y₀ := (List.cons.inj hy₀).2
  have hlexemes : (flatFrom 0 (Position.first.after (x ++ [';'])) (gap ++ y)).lexemes =
      [] ++ g :: post := congrArg FlatSource.lexemes hfronts.behind
  obtain ⟨gap₀, word, z, hgap, hbehind⟩ :=
    exists_front hlexemes (congrArg FlatSource.fault hfronts.behind)
  have hlength : byteLength gap = byteLength gap₀ := by
    have hstart := hbehind.start
    rw [Position.offset_after, offset_first_after] at hstart
    have hnext_start := h.next_start
    rw [← hnext, hstart] at hnext_start
    simp only [byteLength_append, byteLength_cons, byteLength_nil] at hnext_start
    omega
  obtain ⟨rfl, rfl⟩ := cut_unique hgap hlength
  exact ⟨word, z, rfl, hfronts, hbehind⟩

/-- The flat lexemes of the new source: a line break, and behind it those that were behind the
semicolon, in the same columns from the next line break on. -/
theorem Broken.exists_flat (h : Broken x gap y new before first left mark next after)
    (hflat : flatLexemes (x ++ ';' :: (gap ++ y)) = ⟨pre ++ f :: g :: post, none⟩)
    (hmark : f.toLexeme = mark) (hnext : g.toLexeme = next) (hending : IsBreak ending)
    (hindent : ∀ c ∈ indent, isBlank c = true) :
    ∃ nl g' post', flatLexemes (x ++ (ending ++ (indent ++ y))) = ⟨pre ++ nl :: g' :: post', none⟩ ∧
      nl.token = .newline ∧ nl.extent.start = byteLength x ∧ g'.token = next.token ∧
      g'.column = (Position.first.after indent).column ∧ Follows 0 false post post' ∧
      List.Forall₂ (fun f f' => Moved (byteLength (x ++ ';' :: gap))
        (byteLength (x ++ (ending ++ indent))) f.extent f'.extent) (g :: post) (g' :: post') := by
  obtain ⟨word, z, rfl, hfronts, hbehind⟩ := h.exists_fronts hflat hmark hnext
  -- the text from that token on, behind the semicolon and behind the line break
  have hold := hbehind.rest
  generalize hplace : (Position.first.after (x ++ [';'])).after gap = p at hold
  generalize hplace' : ((Position.first.after x).after ending).after indent = p'
  have hnew := flatFrom_token hbehind.scan_eq hbehind.ne p'
  have hoffset : p.offset = byteLength (x ++ ';' :: gap) := by
    rw [← hplace, ← Position.after_append, offset_first_after, List.append_assoc]
    rfl
  have hoffset' : p'.offset = byteLength (x ++ (ending ++ indent)) := by
    rw [← hplace', ← Position.after_append, ← Position.after_append, offset_first_after]
  have hextents := moved_flatFrom p p' (word ++ z)
  obtain ⟨hfollows, hfault⟩ :=
    @follows_flatFrom false p p' (fun h => nomatch h) (word ++ z)
  rw [hold, hnew, hoffset, hoffset'] at hextents
  rw [hold, hnew] at hfollows hfault
  have hother : (g.token == .newline) = false := beq_eq_false_iff_ne.2 fun heq => by
    have hline := h.next_line
    rw [← hnext, Token.isLayout, heq] at hline
    cases hline
  cases hfollows with
  | cons _ _ hfollows =>
  rw [Bool.false_or, hother] at hfollows
  refine ⟨lexemeAt .newline (Position.first.after x) ((Position.first.after x).after ending),
    lexemeAt g.token p' (p'.after word), _, ?_, rfl, offset_first_after x,
    hnext ▸ rfl, ?_, hfollows, hextents⟩
  · rw [flatLexemes, hfronts.keeps hending,
      flatFrom_token (scan_break hending _) (List.length_pos_iff.1 hending.length_pos),
      flatFrom_blanks hindent, hplace', hnew]
    exact congrArg (FlatSource.mk _)
      (Option.isSome_eq_false_iff.1 hfault |> Option.isNone_iff_eq_none.1)
  · show p'.column = _
    rw [← hplace']
    exact column_after_congr (column_after_break hending _) indent

/-- **A line can be broken at a semicolon.**  Where the semicolon stood there is a `newline`; the
tokens in front of it stay as they are, and those behind it stand as far behind the new text as
they did behind the old one. -/
theorem tokenizeChars_broken (h : Broken x gap y new before first left mark next after) :
    ∃ newline behind, tokenizeChars (x ++ (new ++ y)) =
        .ok (before ++ (first :: left ++ newline :: behind)) ∧
      newline.token = .newline ∧ newline.extent.start = byteLength x ∧
      List.Forall₂ (MovedLexeme (byteLength (x ++ ';' :: gap)) (byteLength (x ++ new)))
        (next :: after) behind := by
  obtain ⟨ending, indent, lead, rfl, hending, hindent, hlead, hfirst, hcolumn⟩ := h.new_eq
  obtain ⟨pre, f, g, post, s, hflat, hmark, hnext, hruns, hinside, hdepth, hhead, hread⟩ :=
    h.exists_cut hlead hfirst
  obtain ⟨nl, g', post', hflat', hnewline, hstart, htoken, hcolumn', hfollows, hextents⟩ :=
    h.exists_flat hflat hmark hnext hending hindent
  obtain ⟨hextent, hextents⟩ := List.forall₂_cons.1 hextents
  rw [← List.cons_append, ← List.append_assoc, byteLength_append] at hread
  obtain ⟨out, hread', hmoved⟩ := Layout.read_moved
    (s := { s with depth := Layout.depthAfter 0 next.token }) hfollows hextents (.inr hinside) hread
  -- the new line begins in the column of the old one
  have hend : s.Step nl [nl.toLexeme] { s with atLineStart := true } :=
    .lineEnd hnewline hdepth hinside
  have hbegin : Layout.Step { s with atLineStart := true } g' [g'.toLexeme]
      ⟨s.columns, Layout.depthAfter 0 next.token, false⟩ := by
    have hopen : Layout.openLine? s.columns g'.column = some (s.columns, []) :=
      Layout.openLine?_head (hhead.trans (by rw [hcolumn', hcolumn]))
    have hother : g'.token ≠ .newline := fun heq => by
      have hline := h.next_line
      rw [← htoken, heq] at hline
      cases hline
    have hstep := Layout.Step.lineStart (s := { s with atLineStart := true }) hother rfl hopen
    rw [← hdepth, ← htoken]
    exact hstep
  refine ⟨nl.toLexeme, g'.toLexeme :: out, ?_, hnewline, hstart,
    .cons ⟨htoken, hnext ▸ hextent⟩ hmoved⟩
  have hstop : byteLength (x ++ (ending ++ (indent ++ y))) =
      byteLength (x ++ (ending ++ indent)) + byteLength y := by
    rw [← byteLength_append, List.append_assoc, List.append_assoc]
  rw [List.append_assoc, tokenizeChars, hflat', Layout.read_of_runs hruns]
  dsimp only
  rw [hstop, Layout.read, hend.step_eq]
  dsimp only
  rw [Layout.read, hbegin.step_eq]
  dsimp only
  rw [hinside] at hread'
  rw [hread']
  simp [Except.map]

end Source
end Lineage
