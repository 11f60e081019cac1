/-
# The layout of logical lines

The flat lexemes fall into logical lines (`logicalLines`), each in the display column of
its first one.  Read with a stack of columns, a line opens a level, closes levels, or fits
none of them (`Places`, `Uneven`), and from line to line this says how the reading of the
layout ends (`Outcome`, `outcome_read`).  From it comes what the tokens of a source are
line by line, and when a line is refused (`layout_tokenize`).
-/

import Lineage.Proofs.Source.Spelling
import Lineage.Proofs.Source.LayoutTree
import Mathlib.Data.List.Induction

namespace Lineage
namespace Source

open Text LogicalLine

/-! ### Columns and lines -/

/-- The display column behind a text: that of what it has behind its last line break, a
tab going to the next multiple of eight. -/
def displayColumn (before : List Char) : Nat :=
  (before.reverse.takeWhile (· ≠ '\n')).reverse.foldl
    (fun column c => if c = '\t' then (column / 8 + 1) * 8 else column + 1) 0

/-- The logical lines of lexemes, behind the lexemes of a line and so many open brackets.
A line break ends a line, but not inside brackets and not without a lexeme before it. -/
def linesFrom (depth : Nat) (line : List FlatLexeme) : List FlatLexeme → List (List FlatLexeme)
  | [] => if line = [] then [] else [line]
  | f :: fs =>
    if f.token = .newline then
      if depth = 0 ∧ line ≠ [] then line :: linesFrom 0 [] fs else linesFrom depth line fs
    else linesFrom (Layout.depthAfter depth f.token) (line ++ [f]) fs

/-- The logical lines of lexemes. -/
def logicalLines (fs : List FlatLexeme) : List (List FlatLexeme) := linesFrom 0 [] fs

/-- A line in that column turns the open columns, the innermost first, into others, and
has these layout tokens before it. -/
inductive Places (column : Nat) : List Nat → List Token → List Nat → Prop
  /-- The first line is the margin. -/
  | first : Places column [] [] [column]
  /-- A line beyond the innermost column opens a level. -/
  | opens {top : Nat} {outer : List Nat} (hlt : top < column) :
    Places column (top :: outer) [.indent] (column :: top :: outer)
  /-- Otherwise it closes the levels in larger columns, and is in the one that is left. -/
  | closes {closed outer : List Nat} (hclosed : ∀ k ∈ closed, column < k)
    (houter : ∀ k ∈ outer, k < column) :
    Places column (closed ++ column :: outer) (List.replicate closed.length .dedent)
      (column :: outer)

/-- A line in that column is outside the innermost level and in no other one. -/
def Uneven (columns : List Nat) (column : Nat) : Prop :=
  (∃ top, columns.head? = some top ∧ column < top) ∧ column ∉ columns

/-- The lines lead from open columns to others. -/
inductive Leads : List Nat → List (List FlatLexeme) → List Nat → Prop
  | nil (columns : List Nat) : Leads columns [] columns
  | line {f : FlatLexeme} {more : List FlatLexeme} {lines : List (List FlatLexeme)}
    {columns columns' columns'' : List Nat} {shifts : List Token}
    (hplaces : Places f.column columns shifts columns') (h : Leads columns' lines columns'') :
    Leads columns ((f :: more) :: lines) columns''

/-- The lexemes are those of the lines: before each its layout tokens, behind it one line
break, and behind the last one the dedents of the levels that are open. -/
inductive LaidOut : List Nat → List (List FlatLexeme) → List Lexeme → Prop
  | done (columns : List Nat) (stop : Nat) :
    LaidOut columns [] (List.replicate (columns.length - 1) ⟨.dedent, .point stop⟩)
  | line {f : FlatLexeme} {more : List FlatLexeme} {lines : List (List FlatLexeme)}
    {columns columns' : List Nat} {shifts : List Token} {out : List Lexeme} (ending : Extent)
    (hplaces : Places f.column columns shifts columns') (h : LaidOut columns' lines out) :
    LaidOut columns ((f :: more) :: lines)
      (shifts.map (⟨·, .point f.extent.start⟩) ++
        ((f :: more).map (·.toLexeme) ++ ⟨.newline, ending⟩ :: out))

/-- No dedent without an indent before it, and none that is missing. -/
def Balanced (ts : List Token) : Prop :=
  (∀ n, (ts.take n).count .dedent ≤ (ts.take n).count .indent) ∧
    ts.count .dedent = ts.count .indent

/-- How the reading of lines ends, from open columns on. -/
inductive Outcome (stop : Nat) (fault : Option Extent) :
    List Nat → List (List FlatLexeme) → Except ParseError (List Lexeme) → Prop
  | done {columns : List Nat} (hfault : fault = none) :
    Outcome stop fault columns []
      (.ok (List.replicate (columns.length - 1) ⟨.dedent, .point stop⟩))
  | unreadable {columns : List Nat} {e : Extent} (hfault : fault = some e) :
    Outcome stop fault columns [] (.error (.unreadable e))
  | line {f : FlatLexeme} {more : List FlatLexeme} {lines : List (List FlatLexeme)}
    {columns columns' : List Nat} {shifts : List Token} {r : Except ParseError (List Lexeme)}
    (ending : Extent) (hplaces : Places f.column columns shifts columns')
    (h : Outcome stop fault columns' lines r) :
    Outcome stop fault columns ((f :: more) :: lines)
      (r.map fun out => shifts.map (⟨·, .point f.extent.start⟩) ++
        ((f :: more).map (·.toLexeme) ++ ⟨.newline, ending⟩ :: out))
  | uneven {f : FlatLexeme} {more : List FlatLexeme} {lines : List (List FlatLexeme)}
    {columns : List Nat} (huneven : Uneven columns f.column) :
    Outcome stop fault columns ((f :: more) :: lines) (.error (.unevenIndent f.extent))

variable {text cs done rest : List Char} {f : FlatLexeme} {more fs line : List FlatLexeme}
  {before after lines : List (List FlatLexeme)} {columns columns' kept : List Nat}
  {shifts ts : List Token} {out : List Lexeme} {r : Except ParseError (List Lexeme)}
  {column depth stop base pending : Nat} {fault : Option Extent} {e : Extent} {p : Position}

/-- The column behind a text is the one that it is displayed in. -/
theorem column_after_first (before : List Char) :
    (Position.first.after before).column = displayColumn before := by
  induction before using List.reverseRecOn with
  | nil => rfl
  | append_singleton before c ih =>
    rw [Position.after_append]
    simp only [Position.after_cons, Position.after_nil, Position.advance, Position.nextColumn]
    rw [ih, displayColumn, displayColumn, List.reverse_append, List.reverse_singleton,
      List.singleton_append]
    by_cases hc : c = '\n'
    · simp [hc]
    · rw [List.takeWhile_cons_of_pos (by simpa using hc), List.reverse_cons, List.foldl_append,
        if_neg hc]
      rfl

/-- What is unreadable lies behind what is used. -/
theorem le_start_of_fault (h : (flatFrom pending p cs).fault = some e) :
    (p.after (cs.take pending)).offset ≤ e.start := by
  induction cs generalizing pending p with
  | nil => cases h
  | cons c cs ih =>
    cases pending with
    | succ n => exact ih h
    | zero =>
      have hstep : ∀ n, (flatFrom n (p.advance c) cs).fault = some e → p.offset ≤ e.start :=
        fun n h => Nat.le_trans (Nat.le_add_right _ _)
          (Nat.le_trans (offset_le_after (p.advance c) (cs.take n)) (ih h))
      rw [flatFrom] at h
      cases hscan : scan (c :: cs) with
      | bad n =>
        rw [hscan] at h
        rw [← Option.some.inj h]
        exact Nat.le_refl _
      | skip n =>
        rw [hscan] at h
        exact hstep _ h
      | token t n =>
        rw [hscan] at h
        exact hstep _ h

/-- Every flat lexeme lies before what is unreadable. -/
theorem stop_le_start_of_fault (h : (flatFrom pending p cs).fault = some e)
    (hf : f ∈ (flatFrom pending p cs).lexemes) : f.extent.stop ≤ e.start := by
  induction cs generalizing pending p with
  | nil => cases h
  | cons c cs ih =>
    cases pending with
    | succ n => exact ih h hf
    | zero =>
      rw [flatFrom] at h hf
      cases hscan : scan (c :: cs) with
      | bad n =>
        rw [hscan] at hf
        cases hf
      | skip n =>
        rw [hscan] at h hf
        exact ih h hf
      | token t n =>
        rw [hscan] at h hf
        rcases List.mem_cons.1 hf with rfl | hf
        · exact Nat.le_trans (offset_after_take_le p c cs n) (le_start_of_fault h)
        · exact ih h hf

/-! ### Placing a line -/

/-- A line that has a place opens its blocks there. -/
theorem openLine?_of_places (h : Places column columns shifts kept) :
    Layout.openLine? columns column = some (kept, shifts) := by
  cases h with
  | first => rfl
  | opens hlt => exact if_pos hlt
  | @closes closed outer hclosed =>
    have hkept : (closed ++ column :: outer).dropWhile (column < ·) = column :: outer := by
      rw [List.dropWhile_append_of_pos (by simpa using hclosed)]
      exact List.dropWhile_cons_of_neg (by simp)
    have htop : ∀ top rest, closed ++ column :: outer = top :: rest → ¬top < column := by
      intro top rest heq
      cases closed with
      | nil => rw [← (List.cons.inj heq).1]; exact Nat.lt_irrefl _
      | cons k closed =>
        rw [← (List.cons.inj heq).1]
        exact Nat.not_lt_of_gt (hclosed k List.mem_cons_self)
    unfold Layout.openLine?
    split
    · rename_i heq
      exact absurd heq (by simp)
    · rename_i top rest heq
      simp only [if_neg (htop top rest heq), hkept, List.head?_cons, if_pos,
        List.length_append, Nat.add_sub_cancel]

/-- An uneven line has no place. -/
theorem openLine?_of_uneven (h : Uneven columns column) :
    Layout.openLine? columns column = none := by
  obtain ⟨⟨top, htop, hlt⟩, hmem⟩ := h
  obtain ⟨outer, rfl⟩ := List.head?_eq_some_iff.1 htop
  have hkept : ((top :: outer).dropWhile (column < ·)).head? ≠ some column := by
    intro hhead
    obtain ⟨rest, hrest⟩ := List.head?_eq_some_iff.1 hhead
    exact hmem ((List.dropWhile_suffix _).subset (hrest ▸ List.mem_cons_self))
  rw [Layout.openLine?, if_neg (Nat.not_lt_of_gt hlt)]
  exact if_neg hkept

/-- **A line can be placed, or it is uneven**, if inner columns are larger. -/
theorem places_or_uneven (hsorted : columns.Pairwise (· > ·)) (column : Nat) :
    (∃ shifts columns', Places column columns shifts columns') ∨ Uneven columns column := by
  cases columns with
  | nil => exact .inl ⟨_, _, .first⟩
  | cons top outer =>
    rcases Nat.lt_or_ge top column with hlt | hge
    · exact .inl ⟨_, _, .opens hlt⟩
    · by_cases hmem : column ∈ top :: outer
      · obtain ⟨closed, kept, heq⟩ := List.append_of_mem hmem
        rw [heq] at hsorted ⊢
        obtain ⟨_, hkept, hclosed⟩ := List.pairwise_append.1 hsorted
        exact .inl ⟨_, _, .closes (fun k hk => hclosed k hk column List.mem_cons_self)
          (List.pairwise_cons.1 hkept).1⟩
      · have hne : column ≠ top := fun heq => hmem (heq ▸ List.mem_cons_self)
        exact .inr ⟨⟨top, rfl, Nat.lt_of_le_of_ne hge hne⟩, hmem⟩

/-- Placing a line keeps inner columns larger. -/
theorem Places.sorted (h : Places column columns shifts columns')
    (hsorted : columns.Pairwise (· > ·)) : columns'.Pairwise (· > ·) := by
  cases h with
  | first => exact List.pairwise_singleton _ _
  | opens hlt =>
    refine List.pairwise_cons.2 ⟨fun k hk => ?_, hsorted⟩
    rcases List.mem_cons.1 hk with rfl | hk
    · exact hlt
    · exact Nat.lt_trans ((List.pairwise_cons.1 hsorted).1 k hk) hlt
  | closes => exact (List.pairwise_append.1 hsorted).2.1

/-- Where a line is placed a column is open. -/
theorem Places.ne_nil (h : Places column columns shifts columns') : columns' ≠ [] := by
  cases h <;> exact List.cons_ne_nil _ _

/-- A line is not outside the margin, and leaves it as it is. -/
theorem Places.margin (h : Places column columns shifts columns')
    (hsorted : columns.Pairwise (· > ·)) (hmargin : columns.getLast? = some base) :
    base ≤ column ∧ columns'.getLast? = some base := by
  cases h with
  | first => cases hmargin
  | @opens top outer hlt =>
    refine ⟨?_, by rw [List.getLast?_cons_cons]; exact hmargin⟩
    rcases List.mem_cons.1 (List.mem_of_getLast? hmargin) with rfl | hmem
    · exact Nat.le_of_lt hlt
    · exact Nat.le_of_lt (Nat.lt_trans ((List.pairwise_cons.1 hsorted).1 base hmem) hlt)
  | @closes closed outer _ houter =>
    have hlast : (column :: outer).getLast? = some base := by
      rw [List.getLast?_append, List.getLast?_cons, Option.some_or] at hmargin
      rw [List.getLast?_cons]
      exact hmargin
    refine ⟨?_, hlast⟩
    rcases List.mem_cons.1 (List.mem_of_getLast? hlast) with rfl | hmem
    · exact Nat.le_refl _
    · exact Nat.le_of_lt (houter base hmem)

/-! ### From lexemes to lines -/

/-- The lexemes of a line that has begun are the first of its lexemes. -/
theorem exists_linesFrom (hline : line ≠ []) (depth : Nat) (fs : List FlatLexeme) :
    ∃ more lines, linesFrom depth line fs = (line ++ more) :: lines := by
  induction fs generalizing depth line with
  | nil => exact ⟨[], [], by rw [linesFrom, if_neg hline, List.append_nil]⟩
  | cons f fs ih =>
    rw [linesFrom]
    split
    · split
      · exact ⟨[], linesFrom 0 [] fs, by rw [List.append_nil]⟩
      · exact ih hline depth
    · have hne : line ++ [f] ≠ [] :=
        List.append_ne_nil_of_right_ne_nil line (List.cons_ne_nil f [])
      obtain ⟨more, lines, heq⟩ := ih hne (Layout.depthAfter depth f.token)
      exact ⟨f :: more, lines, by rw [heq, List.append_assoc]; rfl⟩

/-- A step of the reading puts its lexemes in front of what is read behind it. -/
theorem read_cons_of_step {s s' : Layout} {now : List Lexeme} (h : s.step f = .ok (now, s')) :
    Layout.read stop fault s (f :: fs) = (Layout.read stop fault s' fs).map (now ++ ·) := by
  rw [Layout.read, h]
  dsimp only
  cases Layout.read stop fault s' fs <;> rfl

/-- The state is that behind the lexemes of a line, or between two lines. -/
structure Layout.Agrees (s : Layout) (line : List FlatLexeme) : Prop where
  sorted : s.columns.Pairwise (· > ·)
  atLineStart : s.atLineStart = true ↔ line = []
  depth : line = [] → s.depth = 0
  columns : line ≠ [] → s.columns ≠ []

namespace Layout.Agrees

variable {s : Layout}

/-- A line break ends a line outside brackets. -/
theorem step_ends (hs : s.Agrees line) (hnewline : f.token = .newline) (hdepth : s.depth = 0)
    (hline : line ≠ []) :
    s.step f = .ok ([f.toLexeme], { s with atLineStart := true }) ∧
      ({ s with atLineStart := true } : Layout).Agrees [] := by
  have hinside : s.atLineStart = false := by simpa using mt hs.atLineStart.1 hline
  refine ⟨by rw [Layout.step, if_pos hnewline, if_pos ⟨hdepth, hinside⟩], ?_⟩
  exact ⟨hs.sorted, ⟨fun _ => rfl, fun _ => rfl⟩, fun _ => hdepth, fun h => absurd rfl h⟩

/-- Any other line break is nothing. -/
theorem step_skips (hs : s.Agrees line) (hnewline : f.token = .newline)
    (hends : ¬(s.depth = 0 ∧ line ≠ [])) : s.step f = .ok ([], s) := by
  rw [Layout.step, if_pos hnewline, if_neg]
  rintro ⟨hdepth, hinside⟩
  refine hends ⟨hdepth, fun hline => ?_⟩
  rw [hs.atLineStart.2 hline] at hinside
  cases hinside

/-- The first lexeme of a line is placed. -/
theorem step_places (hs : s.Agrees []) (hnewline : f.token ≠ .newline)
    (hplaces : Places f.column s.columns shifts columns') :
    s.step f = .ok (shifts.map (⟨·, .point f.extent.start⟩) ++ [f.toLexeme],
        ⟨columns', Layout.depthAfter 0 f.token, false⟩) ∧
      (⟨columns', Layout.depthAfter 0 f.token, false⟩ : Layout).Agrees [f] := by
  constructor
  · rw [Layout.step, if_neg hnewline, if_pos (hs.atLineStart.2 rfl),
      openLine?_of_places hplaces, hs.depth rfl]
  · exact ⟨hplaces.sorted hs.sorted, by simp, fun h => absurd h (by simp),
      fun _ => hplaces.ne_nil⟩

/-- The first lexeme of an uneven line is refused. -/
theorem step_refuses (hs : s.Agrees []) (hnewline : f.token ≠ .newline)
    (huneven : Uneven s.columns f.column) : s.step f = .error (.unevenIndent f.extent) := by
  rw [Layout.step, if_neg hnewline, if_pos (hs.atLineStart.2 rfl), openLine?_of_uneven huneven]

/-- A lexeme within a line belongs to it. -/
theorem step_within (hs : s.Agrees line) (hnewline : f.token ≠ .newline) (hline : line ≠ []) :
    s.step f = .ok ([f.toLexeme], { s with depth := Layout.depthAfter s.depth f.token }) ∧
      ({ s with depth := Layout.depthAfter s.depth f.token } : Layout).Agrees (line ++ [f]) := by
  constructor
  · rw [Layout.step, if_neg hnewline, if_neg (mt hs.atLineStart.1 hline)]
  · exact ⟨hs.sorted, by simp [hs.atLineStart, hline], fun h => absurd h (by simp),
      fun _ => hs.columns hline⟩

end Layout.Agrees

/-- Between two lines: what is read are the lines ahead. -/
def StartsLine (stop : Nat) (fault : Option Extent) (s : Layout) (fs : List FlatLexeme) : Prop :=
  Outcome stop fault s.columns (linesFrom 0 [] fs) (Layout.read stop fault s fs)

/-- Behind the lexemes of a line: what is read is the rest of the line, its line break, and
the lines behind it. -/
def EndsLine (stop : Nat) (fault : Option Extent) (s : Layout) (line fs : List FlatLexeme) :
    Prop :=
  ∃ more lines r ending, linesFrom s.depth line fs = (line ++ more) :: lines ∧
    Outcome stop fault s.columns lines r ∧
      Layout.read stop fault s fs =
        r.map fun out => more.map (·.toLexeme) ++ ⟨.newline, ending⟩ :: out

section Steps

variable {s : Layout}

/-- At the end of the source no line starts. -/
theorem startsLine_nil (hs : s.Agrees []) : StartsLine stop fault s [] := by
  unfold StartsLine
  cases fault with
  | none =>
    rw [Layout.read, Layout.finish, if_pos (hs.atLineStart.2 rfl)]
    exact .done rfl
  | some e => exact .unreadable rfl

/-- At the end of the source the line ends, with or without its line break. -/
theorem endsLine_nil (hs : s.Agrees line) (hline : line ≠ []) : EndsLine stop fault s line [] := by
  have hlines : linesFrom s.depth line [] = (line ++ []) :: [] := by
    rw [linesFrom, if_neg hline, List.append_nil]
  cases fault with
  | none =>
    refine ⟨[], [], _, .point stop, hlines, .done rfl, ?_⟩
    rw [Layout.read, Layout.finish, if_neg (mt hs.atLineStart.1 hline)]
    rfl
  | some e => exact ⟨[], [], _, .point stop, hlines, .unreadable rfl, rfl⟩

/-- A line that is placed is read to its end, if what is behind its first lexeme is. -/
theorem startsLine_places (hs : s.Agrees []) (hnewline : f.token ≠ .newline)
    (hplaces : Places f.column s.columns shifts columns')
    (h : EndsLine stop fault ⟨columns', Layout.depthAfter 0 f.token, false⟩ [f] fs) :
    StartsLine stop fault s (f :: fs) := by
  obtain ⟨more, lines, r, ending, hmore, hout, hread⟩ := h
  have hline : Outcome _ _ _ ((f :: more) :: lines) _ := .line ending hplaces hout
  unfold StartsLine
  rw [linesFrom, if_neg hnewline, List.nil_append, hmore,
    read_cons_of_step (hs.step_places hnewline hplaces).1, hread, List.singleton_append]
  cases r with
  | error e => exact hline
  | ok out => simpa [Except.map] using hline

/-- An uneven line is refused at its first lexeme. -/
theorem startsLine_refuses (hs : s.Agrees []) (hnewline : f.token ≠ .newline)
    (huneven : Uneven s.columns f.column) : StartsLine stop fault s (f :: fs) := by
  obtain ⟨more, lines, hmore⟩ := exists_linesFrom (List.cons_ne_nil f [])
    (Layout.depthAfter 0 f.token) fs
  unfold StartsLine
  rw [linesFrom, if_neg hnewline, List.nil_append, hmore, Layout.read,
    hs.step_refuses hnewline huneven]
  exact .uneven huneven

/-- A line break outside brackets is the end of the line. -/
theorem endsLine_ends (hs : s.Agrees line) (hnewline : f.token = .newline) (hdepth : s.depth = 0)
    (hline : line ≠ []) (h : StartsLine stop fault { s with atLineStart := true } fs) :
    EndsLine stop fault s line (f :: fs) := by
  refine ⟨[], _, _, f.extent, ?_, h, ?_⟩
  · rw [linesFrom, if_pos hnewline, if_pos ⟨hdepth, hline⟩, List.append_nil]
  · rw [read_cons_of_step (hs.step_ends hnewline hdepth hline).1, ← hnewline]
    rfl

/-- The line goes on. -/
theorem endsLine_within (hs : s.Agrees line) (hnewline : f.token ≠ .newline) (hline : line ≠ [])
    (h : EndsLine stop fault { s with depth := Layout.depthAfter s.depth f.token }
      (line ++ [f]) fs) : EndsLine stop fault s line (f :: fs) := by
  obtain ⟨more, lines, r, ending, hmore, hout, hread⟩ := h
  refine ⟨f :: more, lines, r, ending, ?_, hout, ?_⟩
  · rw [linesFrom, if_neg hnewline, hmore, List.append_assoc]
    rfl
  · rw [read_cons_of_step (hs.step_within hnewline hline).1, hread]
    cases r <;> rfl

/-- **The layout is read line by line.** -/
theorem outcome_read (hs : s.Agrees line) (fs : List FlatLexeme) :
    (line = [] → StartsLine stop fault s fs) ∧ (line ≠ [] → EndsLine stop fault s line fs) := by
  induction fs generalizing s line with
  | nil =>
    refine ⟨?_, endsLine_nil hs⟩
    rintro rfl
    exact startsLine_nil hs
  | cons f fs ih =>
    by_cases hnewline : f.token = .newline
    · by_cases hends : s.depth = 0 ∧ line ≠ []
      · obtain ⟨hdepth, hline⟩ := hends
        have hnext := (ih (hs.step_ends hnewline hdepth hline).2).1 rfl
        exact ⟨fun h => absurd h hline, fun _ => endsLine_ends hs hnewline hdepth hline hnext⟩
      · -- a line break within brackets or between two lines changes neither side
        have hread : Layout.read stop fault s (f :: fs) = Layout.read stop fault s fs := by
          rw [read_cons_of_step (hs.step_skips hnewline hends)]
          cases Layout.read stop fault s fs <;> rfl
        have hlines : linesFrom s.depth line (f :: fs) = linesFrom s.depth line fs := by
          rw [linesFrom, if_pos hnewline, if_neg hends]
        obtain ⟨hbetween, hwithin⟩ := ih hs
        constructor
        · rintro rfl
          rw [hs.depth rfl] at hlines
          rw [StartsLine, hread, hlines]
          exact hbetween rfl
        · intro hline
          rw [EndsLine, hread, hlines]
          exact hwithin hline
    · constructor
      · rintro rfl
        rcases places_or_uneven hs.sorted f.column with ⟨shifts, columns', hplaces⟩ | huneven
        · have hnext := (ih (hs.step_places hnewline hplaces).2).2 (List.cons_ne_nil f [])
          exact startsLine_places hs hnewline hplaces hnext
        · exact startsLine_refuses hs hnewline huneven
      · intro hline
        have hnext := (ih (hs.step_within hnewline hline).2).2
          (List.append_ne_nil_of_right_ne_nil line (List.cons_ne_nil f []))
        exact endsLine_within hs hnewline hline hnext

end Steps

/-- The reading of a source ends as its lines say. -/
theorem outcome_tokenizeChars (text : List Char) :
    Outcome (byteLength text) (flatLexemes text).fault [] (logicalLines (flatLexemes text).lexemes)
      (tokenizeChars text) := by
  have hfirst : Layout.first.Agrees [] :=
    ⟨List.Pairwise.nil, ⟨fun _ => rfl, fun _ => rfl⟩, fun _ => rfl, fun h => absurd rfl h⟩
  exact (outcome_read hfirst _).1 rfl

/-! ### What the outcome says -/

/-- Lines that are read to their end are laid out. -/
theorem Outcome.laidOut (h : Outcome stop fault columns lines r) (hr : r = .ok out) :
    fault = none ∧ LaidOut columns lines out := by
  induction h generalizing out with
  | done hfault =>
    rw [← Except.ok.inj hr]
    exact ⟨hfault, .done _ _⟩
  | unreadable => cases hr
  | line ending hplaces h ih =>
    rename_i r
    cases r with
    | error => cases hr
    | ok rest =>
      obtain ⟨hfault, hrest⟩ := ih rfl
      rw [← Except.ok.inj hr]
      exact ⟨hfault, .line ending hplaces hrest⟩
  | uneven => cases hr

/-- A line that is refused is reached by the lines before it. -/
theorem Outcome.exists_uneven (h : Outcome stop fault columns lines r)
    (hr : r = .error (.unevenIndent e)) :
    ∃ before f more after columns', lines = before ++ (f :: more) :: after ∧
      Leads columns before columns' ∧ Uneven columns' f.column ∧ e = f.extent := by
  induction h with
  | done => cases hr
  | unreadable => cases hr
  | @line f more lines columns columns' shifts r ending hplaces h ih =>
    cases r with
    | ok => cases hr
    | error e' =>
      obtain ⟨before, f', more', after, columns'', rfl, hleads, huneven, he⟩ := ih hr
      exact ⟨(f :: more) :: before, f', more', after, columns'', rfl, .line hplaces hleads,
        huneven, he⟩
  | @uneven f more lines columns huneven =>
    exact ⟨[], f, more, lines, columns, rfl, .nil columns, huneven,
      (ParseError.unevenIndent.inj (Except.error.inj hr)).symm⟩

/-- What the lines before an uneven one lead to is refused. -/
theorem Outcome.of_uneven (hleads : Leads columns before columns')
    (huneven : Uneven columns' f.column)
    (h : Outcome stop fault columns (before ++ (f :: more) :: after) r) :
    r = .error (.unevenIndent f.extent) := by
  induction hleads generalizing r with
  | nil columns =>
    cases h with
    | line _ hplaces =>
      have hnone := openLine?_of_uneven huneven
      rw [openLine?_of_places hplaces] at hnone
      cases hnone
    | uneven => rfl
  | line hplaces _ ih =>
    cases h with
    | line _ hplaces' h =>
      have hsame := openLine?_of_places hplaces
      rw [openLine?_of_places hplaces'] at hsame
      obtain ⟨rfl, rfl⟩ := Prod.mk.inj (Option.some.inj hsame)
      rw [ih huneven h]
      rfl
    | uneven huneven' =>
      have hnone := openLine?_of_uneven huneven'
      rw [openLine?_of_places hplaces] at hnone
      cases hnone

/-- A line outside the margin ends the reading, if no line before it does. -/
theorem Outcome.of_margin (h : Outcome stop fault columns lines r)
    (hsorted : columns.Pairwise (· > ·)) (hbase : columns.getLast? = some base)
    (hlines : ∃ f more, f :: more ∈ lines ∧ f.column < base) :
    ∃ e, r = .error (.unevenIndent e) := by
  induction h with
  | done => simp at hlines
  | unreadable => simp at hlines
  | line ending hplaces h ih =>
    obtain ⟨hle, hbase'⟩ := hplaces.margin hsorted hbase
    obtain ⟨f', more', hmem, hlt⟩ := hlines
    rcases List.mem_cons.1 hmem with heq | hmem
    · rw [(List.cons.inj heq).1] at hlt
      exact absurd hlt (Nat.not_lt_of_ge hle)
    · obtain ⟨e, rfl⟩ := ih (hplaces.sorted hsorted) hbase' ⟨f', more', hmem, hlt⟩
      exact ⟨e, rfl⟩
  | uneven => exact ⟨_, rfl⟩

/-- The first line is the margin of the others. -/
theorem Outcome.of_first (h : Outcome stop fault [] ((f :: more) :: lines) r)
    (hlines : ∃ f' more', f' :: more' ∈ lines ∧ f'.column < f.column) :
    ∃ e, r = .error (.unevenIndent e) := by
  cases h with
  | line _ hplaces h =>
    obtain ⟨rfl, rfl⟩ := Prod.mk.inj (Option.some.inj (openLine?_of_places hplaces))
    obtain ⟨e, rfl⟩ := h.of_margin (List.pairwise_singleton _ _) rfl hlines
    exact ⟨e, rfl⟩
  | uneven => exact ⟨_, rfl⟩

/-- There is no other outcome. -/
theorem Outcome.exhaustive (h : Outcome stop fault columns lines r) :
    (∃ out, r = .ok out) ∨ (∃ e, fault = some e ∧ r = .error (.unreadable e)) ∨
      ∃ e, r = .error (.unevenIndent e) := by
  induction h with
  | done => exact .inl ⟨_, rfl⟩
  | unreadable hfault => exact .inr (.inl ⟨_, hfault, rfl⟩)
  | line _ _ _ ih =>
    rcases ih with ⟨out, rfl⟩ | ⟨e, hfault, rfl⟩ | ⟨e, rfl⟩
    · exact .inl ⟨_, rfl⟩
    · exact .inr (.inl ⟨e, hfault, rfl⟩)
    · exact .inr (.inr ⟨e, rfl⟩)
  | uneven => exact .inr (.inr ⟨_, rfl⟩)

/-! ### Balance -/

/-- No dedent that is not matched by an indent or one of `level` levels, and none missing. -/
def BalancedFrom (level : Nat) (ts : List Token) : Prop :=
  (∀ n, (ts.take n).count .dedent ≤ (ts.take n).count .indent + level) ∧
    ts.count .dedent = ts.count .indent + level

variable {level level' : Nat} {t : Token}

/-- One more token opens a level, closes one or does neither. -/
theorem balancedFrom_cons_iff (ht : [t].count .dedent + level' = [t].count .indent + level) :
    BalancedFrom level (t :: ts) ↔ BalancedFrom level' ts := by
  have hcount : ∀ (u : Token) (us : List Token), (t :: us).count u = [t].count u + us.count u :=
    fun u us => by rw [← List.singleton_append, List.count_append]
  constructor
  · rintro ⟨hprefixes, hall⟩
    rw [hcount .dedent, hcount .indent] at hall
    refine ⟨fun n => ?_, by omega⟩
    have hn := hprefixes (n + 1)
    rw [List.take_succ_cons, hcount .dedent, hcount .indent] at hn
    omega
  · rintro ⟨hprefixes, hall⟩
    refine ⟨fun n => ?_, by rw [hcount .dedent, hcount .indent]; omega⟩
    cases n with
    | zero => simp
    | succ n =>
      have hn := hprefixes n
      rw [List.take_succ_cons, hcount .dedent, hcount .indent]
      omega

/-- An `indent` opens one level. -/
theorem balancedFrom_indent_iff :
    BalancedFrom level (.indent :: ts) ↔ BalancedFrom (level + 1) ts := by
  have hdedent : [Token.indent].count .dedent = 0 := rfl
  have hindent : [Token.indent].count .indent = 1 := rfl
  exact balancedFrom_cons_iff (by omega)

/-- A `dedent` closes one level. -/
theorem balancedFrom_dedent_iff :
    BalancedFrom (level + 1) (.dedent :: ts) ↔ BalancedFrom level ts := by
  have hdedent : [Token.dedent].count .dedent = 1 := rfl
  have hindent : [Token.dedent].count .indent = 0 := rfl
  exact balancedFrom_cons_iff (by omega)

/-- With no level open there is no `dedent`. -/
theorem not_balancedFrom_dedent : ¬BalancedFrom 0 (.dedent :: ts) := by
  rintro ⟨hprefixes, _⟩
  exact absurd (hprefixes 1) (by simp)

/-- Any other token keeps the levels. -/
theorem balancedFrom_other_iff (ht : t.isShift = false) :
    BalancedFrom level (t :: ts) ↔ BalancedFrom level ts := by
  have hindent : t ≠ .indent := by rintro rfl; cases ht
  have hdedent : t ≠ .dedent := by rintro rfl; cases ht
  exact balancedFrom_cons_iff
    (by rw [List.count_cons_of_ne hindent, List.count_cons_of_ne hdedent]; rfl)

/-- The end is balanced with no level open. -/
theorem balancedFrom_nil : BalancedFrom 0 [] := ⟨fun _ => by simp, rfl⟩

/-- An `indent` in front of tokens that close its level. -/
theorem BalancedFrom.indent (h : BalancedFrom (level + 1) ts) :
    BalancedFrom level (.indent :: ts) := balancedFrom_indent_iff.2 h

/-- A `dedent` in front of balanced tokens. -/
theorem BalancedFrom.dedent (h : BalancedFrom level ts) :
    BalancedFrom (level + 1) (.dedent :: ts) := balancedFrom_dedent_iff.2 h

/-- Several `dedent` tokens in front of balanced ones. -/
theorem BalancedFrom.dedents (h : BalancedFrom level ts) (k : Nat) :
    BalancedFrom (level + k) (List.replicate k .dedent ++ ts) := by
  induction k with
  | zero => exact h
  | succ k ih => exact ih.dedent

/-- Another token in front of balanced ones. -/
theorem BalancedFrom.other (h : BalancedFrom level ts) (ht : t.isShift = false) :
    BalancedFrom level (t :: ts) := (balancedFrom_other_iff ht).2 h

/-- Other tokens in front of balanced ones. -/
theorem BalancedFrom.append (h : BalancedFrom level ts) {us : List Token}
    (hus : ∀ u ∈ us, u.isShift = false) : BalancedFrom level (us ++ ts) := by
  induction us with
  | nil => exact h
  | cons u us ih =>
    exact (ih fun v hv => hus v (List.mem_cons_of_mem u hv)).other (hus u List.mem_cons_self)

/-- What is left open by the last tokens is closed by those behind them. -/
theorem BalancedFrom.concat {us : List Token} (h : BalancedFrom level ts)
    (h' : BalancedFrom level' us) : BalancedFrom (level + level') (ts ++ us) := by
  have hall := h.2
  have hall' := h'.2
  refine ⟨fun n => ?_, by rw [List.count_append, List.count_append]; omega⟩
  rw [List.take_append, List.count_append, List.count_append]
  rcases Nat.le_total n ts.length with hle | hge
  · have hn := h.1 n
    rw [Nat.sub_eq_zero_of_le hle, List.take_zero, List.count_nil, List.count_nil]
    omega
  · have hn := h'.1 (n - ts.length)
    rw [List.take_of_length_le hge]
    omega

mutual

/-- A line has its block with both of its borders. -/
theorem balancedFrom_tokens : (l : LogicalLine) → l.Every IsLine → BalancedFrom 0 l.tokens
  | ⟨line, block⟩, h => by
    obtain ⟨hline, hblock⟩ := every_iff.1 h
    have hunder : BalancedFrom 0 (blockTokens block) := by
      cases block with
      | nil => exact balancedFrom_nil
      | cons l ls =>
        exact ((balancedFrom_tokensAll (l :: ls) hblock).concat balancedFrom_nil.dedent).indent
    rw [tokens_eq]
    exact (hunder.other rfl).append fun u hu => (Bool.or_eq_false_iff.1 (hline.2 u hu)).2

/-- The blocks under some lines are balanced. -/
theorem balancedFrom_tokensAll : (ls : List LogicalLine) → EveryAll IsLine ls →
    BalancedFrom 0 (tokensAll ls)
  | [], _ => tokensAll_nil ▸ balancedFrom_nil
  | l :: ls, h => by
    obtain ⟨hl, hls⟩ := everyAll_cons.1 h
    rw [tokensAll_cons]
    exact (balancedFrom_tokens l hl).concat (balancedFrom_tokensAll ls hls)

end

/-- Placing a line opens or closes as many levels as it has layout tokens. -/
theorem BalancedFrom.places (hplaces : Places column columns shifts columns')
    (h : BalancedFrom (columns'.length - 1) ts) :
    BalancedFrom (columns.length - 1) (shifts ++ ts) := by
  cases hplaces with
  | first => exact h
  | opens => exact h.indent
  | @closes closed outer _ _ =>
    have hlevel : (closed ++ column :: outer).length - 1 =
        (column :: outer).length - 1 + closed.length := by
      simp only [List.length_append, List.length_cons]
      omega
    rw [hlevel]
    exact h.dedents closed.length

/-- What is laid out from open columns on closes all of their levels but the margin. -/
theorem LaidOut.balancedFrom (h : LaidOut columns lines out)
    (hlines : ∀ line ∈ lines, ∀ f ∈ line, f.token.isShift = false) :
    BalancedFrom (columns.length - 1) (out.map (·.token)) := by
  induction h with
  | done columns stop =>
    simpa using balancedFrom_nil.dedents (columns.length - 1)
  | @line f more lines columns columns' shifts out ending hplaces _ ih =>
    have hrest := ih fun line hline => hlines line (List.mem_cons_of_mem _ hline)
    have hline : ∀ u ∈ (f :: more).map (·.token), u.isShift = false := by
      intro u hu
      obtain ⟨g, hg, rfl⟩ := List.mem_map.1 hu
      exact hlines _ List.mem_cons_self g hg
    have hbehind := BalancedFrom.places hplaces ((hrest.other (t := .newline) rfl).append hline)
    simpa [Function.comp_def] using hbehind

/-! ### The layout of a source -/

/-- A lexeme of a line was in the line already, or is ahead and no line break. -/
theorem mem_of_mem_linesFrom (hline : line ∈ linesFrom depth more fs) (hf : f ∈ line) :
    f ∈ more ∨ f ∈ fs ∧ f.token ≠ .newline := by
  induction fs generalizing depth more with
  | nil =>
    rw [linesFrom] at hline
    split at hline
    · cases hline
    · rw [List.mem_singleton.1 hline] at hf
      exact .inl hf
  | cons g fs ih =>
    rw [linesFrom] at hline
    split at hline
    · split at hline
      · rcases List.mem_cons.1 hline with rfl | hline
        · exact .inl hf
        · rcases ih hline with hmem | ⟨hmem, hne⟩
          · cases hmem
          · exact .inr ⟨List.mem_cons_of_mem g hmem, hne⟩
      · rcases ih hline with hmem | ⟨hmem, hne⟩
        · exact .inl hmem
        · exact .inr ⟨List.mem_cons_of_mem g hmem, hne⟩
    · rename_i hnewline
      rcases ih hline with hmem | ⟨hmem, hne⟩
      · rcases List.mem_append.1 hmem with hmem | hmem
        · exact .inl hmem
        · rw [List.mem_singleton.1 hmem]
          exact .inr ⟨List.mem_cons_self, hnewline⟩
      · exact .inr ⟨List.mem_cons_of_mem g hmem, hne⟩

/-- The tokens of logical lines are ordinary ones. -/
theorem isLayout_of_mem_logicalLines
    (hline : line ∈ logicalLines (flatLexemes text).lexemes) (hf : f ∈ line) :
    f.token.isLayout = false := by
  rcases mem_of_mem_linesFrom hline hf with hmem | ⟨hmem, hne⟩
  · cases hmem
  · rw [Token.isLayout, isShift_of_mem_flatFrom hmem, Bool.or_false]
    exact beq_false_of_ne hne

/-- The layout of a text is read as its lines say. -/
structure ReadsLayout (text : List Char) (result : Except ParseError (List Lexeme)) : Prop where
  /-- A lexeme is in the display column of its place. -/
  columns : ∀ f ∈ (flatLexemes text).lexemes, ∃ before behind, text = before ++ behind ∧
    f.extent.start = byteLength before ∧ f.column = displayColumn before
  /-- What is unreadable comes behind the lexemes of the lines. -/
  fault_behind : ∀ e, (flatLexemes text).fault = some e →
    ∀ f ∈ (flatLexemes text).lexemes, f.extent.stop ≤ e.start
  /-- The lines are made of ordinary tokens. -/
  ordinary : ∀ line ∈ logicalLines (flatLexemes text).lexemes, ∀ f ∈ line, f.token.isLayout = false
  /-- Without an error the lexemes are those of the lines, each placed among the columns. -/
  laidOut : ∀ out, result = .ok out → (flatLexemes text).fault = none ∧
    LaidOut [] (logicalLines (flatLexemes text).lexemes) out
  balanced : ∀ out, result = .ok out → Balanced (out.map (·.token))
  /-- The first uneven line is refused, at its first lexeme, and no other line is. -/
  uneven_iff : ∀ e, result = .error (.unevenIndent e) ↔
    ∃ before f more after columns,
      logicalLines (flatLexemes text).lexemes = before ++ (f :: more) :: after ∧
        Leads [] before columns ∧ Uneven columns f.column ∧ e = f.extent
  /-- A line outside the margin is one reason to refuse the text. -/
  margin : ∀ f more rest, logicalLines (flatLexemes text).lexemes = (f :: more) :: rest →
    (∃ f' more', f' :: more' ∈ rest ∧ f'.column < f.column) →
      ∃ e, result = .error (.unevenIndent e)
  /-- Without an uneven line, only what is unreadable is an error. -/
  exhaustive : (∃ out, result = .ok out) ∨
    (∃ e, (flatLexemes text).fault = some e ∧ result = .error (.unreadable e)) ∨
      ∃ e, result = .error (.unevenIndent e)

/-- **The layout of every source is read as its lines say.**  The tokens are those of the
logical lines, with an indent before a line beyond the innermost open column and a dedent
for every level in a larger column than its own, and a line in no open column is refused. -/
theorem layout_tokenize (source : String) : ReadsLayout source.toList (tokenize source) := by
  have houtcome : Outcome _ _ _ _ (tokenize source) := outcome_tokenizeChars source.toList
  have hordinary : ∀ line ∈ logicalLines (flatLexemes source.toList).lexemes, ∀ f ∈ line,
      f.token.isLayout = false := fun _ hline _ hf => isLayout_of_mem_logicalLines hline hf
  constructor
  case columns =>
    intro f hf
    obtain ⟨before, behind, n, hscanned⟩ := exists_scanned hf
    refine ⟨before, behind, hscanned.text_eq, ?_, ?_⟩
    · rw [hscanned.extent_eq]
    · rw [hscanned.column_eq, column_after_first]
  case fault_behind => exact fun e he f hf => stop_le_start_of_fault he hf
  case ordinary => exact hordinary
  case laidOut => exact fun out hout => houtcome.laidOut hout
  case balanced =>
    intro out hout
    have hshift : ∀ line ∈ logicalLines (flatLexemes source.toList).lexemes, ∀ f ∈ line,
        f.token.isShift = false := fun line hline f hf =>
      (Bool.or_eq_false_iff.1 (hordinary line hline f hf)).2
    exact (houtcome.laidOut hout).2.balancedFrom hshift
  case uneven_iff =>
    intro e
    constructor
    · exact fun h => houtcome.exists_uneven h
    · rintro ⟨before, f, more, after, columns, hlines, hleads, huneven, rfl⟩
      rw [hlines] at houtcome
      exact Outcome.of_uneven hleads huneven houtcome
  case margin =>
    intro f more rest hlines hmargin
    rw [hlines] at houtcome
    exact houtcome.of_first hmargin
  case exhaustive => exact houtcome.exhaustive

end Source
end Lineage
