/-
# The layout looks at line breaks and columns

Two lists of lexemes follow each other if they have the same tokens, in columns a common
margin apart (`Follows`).  Read from layouts that far apart, they give the same tokens, or
errors of one kind, wherever they stand (`bare_read`).  A reading can also be cut behind any
of its lexemes, and goes on from there with whatever comes (`Runs`, `read_of_runs`).
-/

import Lineage.Proofs.Source.Placement

namespace Lineage
namespace Source

variable {f f' : FlatLexeme} {fs fs' post : List FlatLexeme} {l : Lexeme}
  {before after now out : List Lexeme} {columns : List Nat} {column stop stop' k : Nat}
  {fault fault' : Option Extent} {exact : Bool} {r : Except ParseError (List Lexeme)}

/-! ### Readings without their places -/

/-- The error, wherever it stands. -/
def ParseError.unplaced : ParseError → ParseError
  | .unexpected _ expected found => .unexpected (.point 0) expected found
  | .incomplete _ expected => .incomplete 0 expected
  | .unexpectedIndent _ => .unexpectedIndent (.point 0)
  | .unevenIndent _ => .unevenIndent (.point 0)
  | .unreadable _ => .unreadable (.point 0)

/-- What a reading gives, wherever it stands: its tokens, or the kind of its error. -/
def bare : Except ParseError (List Lexeme) → Except ParseError (List Token)
  | .ok ls => .ok (ls.map (·.token))
  | .error e => .error e.unplaced

/-- Tokens in front of a reading stand in front of what it gives. -/
theorem bare_map (r : Except ParseError (List Lexeme)) (now : List Lexeme) :
    bare (r.map (now ++ ·)) = (bare r).map (now.map (·.token) ++ ·) := by
  cases r with
  | ok ls => exact congrArg Except.ok List.map_append
  | error e => rfl

/-- A reading that gives what lexemes give has lexemes of the same tokens. -/
theorem exists_ok_of_bare {ls : List Lexeme} (h : bare r = bare (.ok ls)) :
    ∃ ls', r = .ok ls' ∧ ls'.map (·.token) = ls.map (·.token) := by
  cases r with
  | ok ls' => exact ⟨ls', rfl, Except.ok.inj h⟩
  | error e => cases h

/-! ### Columns apart -/

/-- The tokens are the same, and the columns so far apart: all of them, or only those behind
the first line break. -/
inductive Follows (k : Nat) : Bool → List FlatLexeme → List FlatLexeme → Prop
  | nil (exact : Bool) : Follows k exact [] []
  | cons {exact : Bool} {f f' : FlatLexeme} {fs fs' : List FlatLexeme}
    (htoken : f'.token = f.token) (hcolumn : exact = true → f'.column = f.column + k)
    (h : Follows k (exact || f.token == .newline) fs fs') : Follows k exact (f :: fs) (f' :: fs')

namespace Layout

/-- The layout, its columns so far apart. -/
def moved (k : Nat) (s : Layout) : Layout := { s with columns := s.columns.map (· + k) }

/-- A layout that is moved by nothing is the same. -/
theorem moved_zero (s : Layout) : s.moved 0 = s := by
  simp [moved]

/-- A line as far to the right as the open columns is placed alike. -/
theorem openLine?_moved (k column : Nat) (columns : List Nat) :
    openLine? (columns.map (· + k)) (column + k) =
      (openLine? columns column).map fun o => (o.1.map (· + k), o.2) := by
  cases columns with
  | nil => rfl
  | cons top outer =>
    have hkept : ((top :: outer).map (· + k)).dropWhile (column + k < ·) =
        ((top :: outer).dropWhile (column < ·)).map (· + k) := by
      rw [List.dropWhile_map]
      refine congrArg (List.map (· + k)) (congrArg (List.dropWhile · (top :: outer)) ?_)
      funext c
      simp
    have hhead : (((top :: outer).dropWhile (column < ·)).map (· + k)).head? = some (column + k) ↔
        ((top :: outer).dropWhile (column < ·)).head? = some column := by
      rw [List.head?_map, Option.map_eq_some_iff]
      constructor
      · rintro ⟨c, hc, heq⟩
        rw [hc, Nat.add_right_cancel heq]
      · exact fun hc => ⟨column, hc, rfl⟩
    have hlt : top + k < column + k ↔ top < column := Nat.add_lt_add_iff_right
    simp only [openLine?, List.map_cons] at hkept ⊢
    rw [hkept]
    simp only [hhead, hlt, List.length_map, List.length_cons]
    split
    · rfl
    · split <;> rfl

/-- What a step gives, wherever it stands. -/
def bareStep (k : Nat) :
    Except ParseError (List Lexeme × Layout) → Except ParseError (List Token × Layout)
  | .ok (now, s) => .ok (now.map (·.token), s.moved k)
  | .error e => .error e.unplaced

/-- A lexeme so far to the right is read alike in a layout so far to the right. -/
theorem bareStep_moved (s : Layout) (htoken : f'.token = f.token)
    (hcolumn : s.atLineStart = true → f'.column = f.column + k) :
    bareStep 0 ((s.moved k).step f') = bareStep k (s.step f) := by
  unfold step
  rw [htoken]
  by_cases hnewline : f.token = .newline
  · rw [if_pos hnewline, if_pos hnewline]
    by_cases hends : s.depth = 0 ∧ s.atLineStart = false
    · rw [if_pos (by exact hends), if_pos hends]
      simp [bareStep, moved, htoken]
    · rw [if_neg (by exact hends), if_neg hends]
      simp [bareStep, moved]
  · rw [if_neg hnewline, if_neg hnewline]
    by_cases hstart : s.atLineStart = true
    · rw [if_pos (by exact hstart), if_pos hstart, hcolumn hstart]
      have hopen := openLine?_moved k f.column s.columns
      cases hline : openLine? s.columns f.column with
      | none =>
        rw [hline] at hopen
        rw [show (s.moved k).columns = s.columns.map (· + k) from rfl, hopen]
        rfl
      | some o =>
        rw [hline] at hopen
        rw [show (s.moved k).columns = s.columns.map (· + k) from rfl, hopen]
        simp [bareStep, moved, htoken]
    · rw [if_neg (by exact hstart), if_neg hstart]
      simp [bareStep, moved, htoken]

/-- What a step does is what the layout computes. -/
theorem Step.step_eq {s s' : Layout} (h : s.Step f now s') : s.step f = .ok (now, s') := by
  cases h with
  | lineEnd hnewline hdepth hinside => rw [step, if_pos hnewline, if_pos ⟨hdepth, hinside⟩]
  | noLine hnewline hopen =>
    have hends : ¬ (s.depth = 0 ∧ s.atLineStart = false) := fun ⟨hdepth, hinside⟩ => by
      rw [hopen hdepth] at hinside
      cases hinside
    rw [step, if_pos hnewline, if_neg hends]
  | lineStart hother hstart hopen => rw [step, if_neg hother, if_pos hstart, hopen]
  | inLine hother hinside =>
    rw [step, if_neg hother, if_neg (by rw [hinside]; exact Bool.false_ne_true)]

/-- A line break that is kept as a lexeme ends the line. -/
theorem Step.atLineStart_of_newline {s s' : Layout} (h : s.Step f now s') (hne : now ≠ [])
    (hnewline : f.token = .newline) : s'.atLineStart = true := by
  cases h with
  | lineEnd => rfl
  | noLine => exact absurd rfl hne
  | lineStart hother => exact absurd hnewline hother
  | inLine hother => exact absurd hnewline hother

/-- Behind a lexeme no line starts, unless it is a line break. -/
theorem Step.atLineStart {s s' : Layout} (h : s.Step f now s') (hother : f.token ≠ .newline) :
    s'.atLineStart = false := by
  cases h with
  | lineEnd hnewline => exact absurd hnewline hother
  | noLine hnewline => exact absurd hnewline hother
  | lineStart => rfl
  | inLine _ hinside => exact hinside

/-- At the end of a source the line ends, and every open block. -/
theorem tokens_finish (s : Layout) (stop : Nat) : (s.finish stop).map (·.token) =
    (if s.atLineStart then [] else [.newline]) ++
      List.replicate (s.columns.length - 1) .dedent := by
  unfold finish
  split <;> simp

/-- The tokens of a reading are those of the first lexeme and those behind it. -/
theorem bare_read_cons (s : Layout) : bare (read stop fault s (f :: fs)) =
    match bareStep 0 (s.step f) with
    | .error e => .error e
    | .ok (ts, s') => (bare (read stop fault s' fs)).map (ts ++ ·) := by
  rw [read]
  cases s.step f with
  | error e => rfl
  | ok o =>
    simp only [bareStep, moved_zero]
    rw [← bare_map]
    cases read stop fault o.2 fs <;> rfl

/-- **Only line breaks and columns are looked at.**  Lexemes that follow others, read from a
layout so far to the right, give the same tokens, or an error of the same kind. -/
theorem bare_read (h : Follows k exact fs fs') (hfault : fault'.isSome = fault.isSome) (s : Layout)
    (hs : exact = true ∨ s.atLineStart = false) :
    bare (read stop' fault' (s.moved k) fs') = bare (read stop fault s fs) := by
  induction h generalizing s with
  | nil =>
    cases fault with
    | none =>
      cases fault' with
      | none => simp only [read, bare, tokens_finish, moved, List.length_map]
      | some e => cases hfault
    | some e =>
      cases fault' with
      | none => cases hfault
      | some e' => rfl
  | @cons exact f f' fs fs' htoken hcolumn h ih =>
    have hcolumn' : s.atLineStart = true → f'.column = f.column + k := fun hstart =>
      hcolumn (hs.resolve_right (by simp [hstart]))
    have hstep := bareStep_moved s htoken hcolumn'
    rw [bare_read_cons, bare_read_cons, hstep]
    cases hnow : s.step f with
    | error e => rfl
    | ok o =>
      have hnext : (exact || f.token == .newline) = true ∨ o.2.atLineStart = false := by
        by_cases hnewline : f.token = .newline
        · exact .inl (by simp [hnewline])
        · exact .inr ((step_of_eq_ok hnow).atLineStart hnewline)
      simp only [bareStep, moved_zero]
      rw [ih o.2 hnext]

/-- A line break inside brackets or between two lines is nothing. -/
theorem read_newline {s : Layout} (hnewline : f.token = .newline)
    (hskip : s.depth = 0 → s.atLineStart = true) :
    read stop fault s (f :: fs) = read stop fault s fs := by
  rw [read, (Step.noLine hnewline hskip).step_eq]
  dsimp only
  cases read stop fault s fs <;> rfl

/-- A line break at the end of a source changes nothing: the last line ends there anyway. -/
theorem bare_read_newline_end (hnewline : f.token = .newline) (fs : List FlatLexeme) (s : Layout) :
    bare (read stop' none s (fs ++ [f])) = bare (read stop none s fs) := by
  induction fs generalizing s with
  | nil =>
    by_cases hends : s.depth = 0 ∧ s.atLineStart = false
    · have hstep := (Step.lineEnd hnewline hends.1 hends.2).step_eq
      rw [List.nil_append, bare_read_cons, hstep]
      simp [bareStep, read, bare, tokens_finish, hends.2, hnewline, moved, Except.map]
    · have hskip : s.depth = 0 → s.atLineStart = true := fun hdepth => by
        simpa using not_and.1 hends hdepth
      rw [List.nil_append, read_newline hnewline hskip]
      simp only [read, bare, tokens_finish]
  | cons g fs ih =>
    rw [List.cons_append, bare_read_cons, bare_read_cons]
    cases s.step g with
    | error e => rfl
    | ok o => simp only [bareStep, moved_zero, ih]

/-! ### Cutting a reading -/

/-- The lexemes are read from one layout to another, and give these. -/
inductive Runs : Layout → List FlatLexeme → List Lexeme → Layout → Prop
  | nil (s : Layout) : Runs s [] [] s
  | cons {s s' s'' : Layout} {f : FlatLexeme} {fs : List FlatLexeme} {now later : List Lexeme}
    (hstep : s.Step f now s') (h : Runs s' fs later s'') :
    Runs s (f :: fs) (now ++ later) s''

variable {s s' s'' : Layout}

/-- Behind what is read, the reading goes on from there. -/
theorem read_of_runs (h : Runs s fs out s') (post : List FlatLexeme) :
    read stop fault s (fs ++ post) = (read stop fault s' post).map (out ++ ·) := by
  induction h with
  | nil s => cases hread : read stop fault s post <;> simp [Except.map, hread]
  | @cons s s' s'' f fs now later hstep h ih =>
    rw [List.cons_append, read, hstep.step_eq]
    dsimp only
    rw [ih]
    cases read stop fault s'' post <;> simp [Except.map]

/-- A source that is read has no fault. -/
theorem fault_of_read (h : read stop fault s fs = .ok out) : fault = none := by
  induction fs generalizing s out with
  | nil => exact (read_nil h).1
  | cons f fs ih =>
    obtain ⟨_, s', later, _, hlater, _⟩ := read_cons h
    exact ih hlater

/-- The brackets open behind the lexemes. -/
def depthBehind (depth : Nat) (ls : List Lexeme) : Nat :=
  (ls.map (·.token)).foldl depthAfter depth

/-- The brackets open behind two stretches are counted one stretch after the other. -/
@[simp] theorem depthBehind_append (depth : Nat) (as bs : List Lexeme) :
    depthBehind depth (as ++ bs) = depthBehind (depthBehind depth as) bs := by
  simp [depthBehind, List.foldl_append]

/-- A layout token opens and closes no bracket. -/
theorem depthAfter_of_isLayout {t : Token} (h : t.isLayout = true) (depth : Nat) :
    depthAfter depth t = depth := by
  cases t <;> first | rfl | cases h

/-- Layout tokens open and close no bracket. -/
theorem depthBehind_of_isLayout {ls : List Lexeme} (h : ∀ l ∈ ls, l.token.isLayout = true)
    (depth : Nat) : depthBehind depth ls = depth := by
  induction ls with
  | nil => rfl
  | cons l ls ih =>
    have hl := depthAfter_of_isLayout (h l List.mem_cons_self) depth
    simpa [depthBehind, hl] using ih fun l hl => h l (List.mem_cons_of_mem _ hl)

/-- Between two lines no bracket is open. -/
def Settled (s : Layout) : Prop := s.atLineStart = true → s.depth = 0

/-- The tokens in front of a line are layout. -/
theorem isLayout_of_mem_shifts {shifts : List Token} {e : Extent}
    {kept : List Nat}
    (hopen : openLine? columns column = some (kept, shifts)) (hl : l ∈ shifts.map (⟨·, e⟩)) :
    l.token.isLayout = true := by
  obtain ⟨t, ht, rfl⟩ := List.mem_map.1 hl
  rw [Token.isLayout, isShift_of_openLine? hopen t ht, Bool.or_true]

/-- A step keeps that no bracket is open between two lines, and counts the brackets of what it
gives. -/
theorem Step.settled (h : s.Step f now s') (hs : s.Settled) :
    s'.Settled ∧ s'.depth = depthBehind s.depth now := by
  cases h with
  | lineEnd hnewline hdepth =>
    refine ⟨fun _ => hdepth, ?_⟩
    simp [depthBehind, depthAfter_of_isLayout, hnewline, Token.isLayout]
  | noLine => exact ⟨hs, rfl⟩
  | lineStart _ _ hopen =>
    refine ⟨fun hstart => by simp at hstart, ?_⟩
    rw [depthBehind_append, depthBehind_of_isLayout fun l hl => isLayout_of_mem_shifts hopen hl]
    rfl
  | inLine _ hinside =>
    refine ⟨fun hstart => ?_, rfl⟩
    rw [show s.atLineStart = true from hstart] at hinside
    cases hinside

/-- Steps keep that no bracket is open between two lines, and count the brackets of what they give.
-/
theorem Runs.settled (h : Runs s fs out s') (hs : s.Settled) :
    s'.Settled ∧ s'.depth = depthBehind s.depth out := by
  induction h with
  | nil => exact ⟨hs, rfl⟩
  | cons hstep _ ih =>
    obtain ⟨hnext, hdepth⟩ := hstep.settled hs
    rw [depthBehind_append, ← hdepth]
    exact ih hnext

/-- A lexeme that a step gives is the one that is read, behind all others, or stands before a
line. -/
theorem Step.cases_mem (h : s.Step f (before ++ l :: after) s') :
    (after = [] ∧ l = f.toLexeme) ∨
      (s.atLineStart = true ∧ ∀ m ∈ before ++ [l], m.token.isShift = true) := by
  have hone : before ++ l :: after = [f.toLexeme] → after = [] ∧ l = f.toLexeme := by
    intro heq
    rcases List.append_eq_singleton_iff.1 heq with ⟨_, heq⟩ | ⟨_, heq⟩
    · exact ⟨(List.cons.inj heq).2, (List.cons.inj heq).1⟩
    · cases heq
  generalize hnow : before ++ l :: after = now at h
  cases h with
  | lineEnd => exact .inl (hone hnow)
  | noLine => simp at hnow
  | lineStart _ hstart hopen =>
    rcases List.eq_nil_or_concat after with rfl | ⟨after, z, rfl⟩
    · exact .inl ⟨rfl, List.singleton_inj.1 (List.append_inj' hnow rfl).2⟩
    · refine .inr ⟨hstart, fun m hm => ?_⟩
      rw [List.concat_eq_append, ← List.cons_append, ← List.append_assoc] at hnow
      have hshifts := (List.append_inj' hnow rfl).1
      have hmem : m ∈ before ++ l :: after := by
        rw [List.append_cons]
        exact List.mem_append_left _ hm
      rw [hshifts] at hmem
      obtain ⟨t, ht, rfl⟩ := List.mem_map.1 hmem
      exact isShift_of_openLine? hopen t ht
  | inLine => exact .inl (hone hnow)

/-- Where a lexeme of a reading comes from. -/
inductive Cut (stop : Nat) (s : Layout) (fs : List FlatLexeme) (before : List Lexeme) (l : Lexeme) :
    Prop
  /-- It is a flat one, behind which the reading can be cut. -/
  | behind {pre post : List FlatLexeme} {f : FlatLexeme} {s' : Layout}
    (hflat : fs = pre ++ f :: post) (hl : l = f.toLexeme)
    (hruns : Runs s (pre ++ [f]) (before ++ [l]) s')
    (hnewline : l.token = .newline → s'.atLineStart = true) : Cut stop s fs before l
  /-- It stands before a line. -/
  | shift (hshift : l.token.isShift = true) (hzero : depthBehind s.depth (before ++ [l]) = 0) :
    Cut stop s fs before l
  /-- It ends the source. -/
  | finish (hend : l.extent = .point stop) : Cut stop s fs before l

/-- A lexeme behind a step comes from where it comes from behind that. -/
theorem Cut.later (hstep : s.Step f now s') (hs : s.Settled) (h : Cut stop s' fs before l) :
    Cut stop s (f :: fs) (now ++ before) l := by
  cases h with
  | @behind pre _ g s₁ hflat hl hruns hnewline =>
    have hlonger : Runs s (f :: pre ++ [g]) (now ++ before ++ [l]) s₁ := by
      rw [List.append_assoc]
      exact .cons hstep hruns
    exact .behind (congrArg (f :: ·) hflat) hl hlonger hnewline
  | shift hshift hzero =>
    refine .shift hshift ?_
    rw [List.append_assoc, depthBehind_append, ← (hstep.settled hs).2, hzero]
  | finish hend => exact .finish hend

/-- Every lexeme of a reading comes from one of these. -/
theorem cut_of_read (hs : s.Settled) (h : read stop fault s fs = .ok (before ++ l :: after)) :
    Cut stop s fs before l := by
  induction fs generalizing s before with
  | nil =>
    have hmem : l ∈ s.finish stop := (read_nil h).2 ▸ List.mem_append_right _ List.mem_cons_self
    refine .finish ?_
    rcases List.mem_append.1 hmem with hmem | hmem
    · split at hmem
      · cases hmem
      · rw [List.mem_singleton.1 hmem]
    · rw [List.eq_of_mem_replicate hmem]
  | cons f fs ih =>
    obtain ⟨now, s', later, hstep, hlater, hsplit⟩ := read_cons h
    have hsettled := (hstep.settled hs).1
    -- the lexeme is among those of this step, or of a later one
    rcases List.append_eq_append_iff.1 hsplit with ⟨- | ⟨d, m⟩, hnow, hm⟩ | ⟨m, rfl, rfl⟩
    · rw [List.append_nil] at hnow
      subst hnow
      rw [List.nil_append] at hm
      subst hm
      have hcut := (@ih [] s' hsettled hlater).later hstep hs
      rwa [List.append_nil] at hcut
    · obtain ⟨rfl, rfl⟩ := List.cons.inj hm
      rw [hnow] at hstep
      rcases hstep.cases_mem with ⟨rfl, hl⟩ | ⟨hstart, hshifts⟩
      · have hruns : Runs s ([] ++ [f]) (before ++ [l]) s' := by
          rw [← List.append_nil (before ++ [l])]
          exact .cons hstep (.nil s')
        exact .behind rfl hl hruns fun hnewline =>
          hstep.atLineStart_of_newline (by simp) (by rw [← hnewline, hl])
      · refine .shift (hshifts l (by simp)) ?_
        rw [depthBehind_of_isLayout fun m hm => ?_]
        · exact hs hstart
        · rw [Token.isLayout, hshifts m hm, Bool.or_true]
    · exact (ih hsettled hlater).later hstep hs

end Layout
end Source
end Lineage
