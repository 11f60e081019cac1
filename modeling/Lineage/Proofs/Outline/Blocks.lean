/-
# Readings in the layout tree

What a reading passes, told by the layout tree: a reading of a line ends behind it
(`PastLine.behind`), a block is passed to its end (`drop_blockLength?`), a function body is
read to the end of its block (`ends_bodyBindings`), and so is a function from inside its
header on (`ends_functionBody`), whatever stands in them.
-/

import Lineage.Proofs.Outline.Definitions
import Lineage.Proofs.Source.LayoutTree

namespace Lineage
namespace Outline

open Source LogicalLine Reading Cursor

variable {o : Origin} {c c' : Cursor} {t : Token} {n k : Nat} {W : List Token → Prop}
  {ts : List Token} {ls : List Lexeme}

/-- No block is opened in front of the tokens. -/
def Unopened (ts : List Token) : Prop := ts.head? ≠ some .indent

/-! ### Lines -/

/-- Further on in its line a place is still in the same block. -/
theorem Cursor.OnLine.inside (h : OnLine o c c') (hin : Inside W c.tokens) :
    Inside W c'.tokens := by
  rw [inside_iff] at hin ⊢
  obtain ⟨rest, hrest, hbehind⟩ := hin
  exact ⟨rest, h.lineEnd.trans hrest, hbehind⟩

/-- Behind a line is what the layout tree has there. -/
theorem Cursor.PastLine.behind (h : PastLine o c c') (hin : Inside W c.tokens) :
    Behind W c'.tokens ∧ c'.afterNewline = true := by
  obtain ⟨rest, hrest, hbehind⟩ := inside_iff.1 hin
  rcases h.past with ⟨hend, hafter⟩ | ⟨hend, hnext⟩
  · obtain ⟨_, rfl⟩ := List.cons.inj (hrest.symm.trans hend)
    exact ⟨hbehind, hafter⟩
  · refine absurd ?_ hnext
    rw [← head?_tokens, ← hend, lineEnd, hrest]
    rfl

/-! ### Blocks -/

/-- What is passed as a block reaches to the end of the block. -/
theorem drop_blockLength? (hls : Behind (Within ts (k + 1)) (ls.map (·.token)) ∨
      Inside (Within ts (k + 1)) (ls.map (·.token)))
    (hn : blockLength? (k + 1) ls = some n) : (ls.drop n).map (·.token) = ts := by
  induction ls generalizing k n with
  | nil =>
    rcases hls with hbehind | ⟨line, rest, heq, _⟩
    · rcases hbehind.cases with ⟨_, heq, _⟩ | ⟨_, heq, _⟩ | ⟨_, _, heq, _⟩ <;> cases heq
    · simp at heq
  | cons l ls ih =>
    rw [List.map_cons] at hls
    have hinside : Inside (Within ts (k + 1)) (l.token :: ls.map (·.token)) →
        ((l :: ls).drop n).map (·.token) = ts := by
      intro hinside
      have hrest := hinside.tail
      have hshift : l.token.isShift = false := by
        rcases hrest with ⟨hnewline, _⟩ | ⟨hline, _⟩
        · rw [hnewline]
          rfl
        · exact (Bool.or_eq_false_iff.1 hline).2
      rw [blockLength?_other hshift] at hn
      obtain ⟨m, hm, rfl⟩ := Option.map_eq_some_iff.1 hn
      exact ih (hrest.imp And.right And.right) hm
    rcases hls with hbehind | hls
    · rcases hbehind.cases with ⟨rest, heq, hwithin⟩ | ⟨rest, heq, hwithin⟩ | ⟨_, _, _, _, hls⟩
      · obtain ⟨hindent, rfl⟩ := List.cons.inj heq
        rw [blockLength?_indent hindent] at hn
        obtain ⟨m, hm, rfl⟩ := Option.map_eq_some_iff.1 hn
        exact ih (.inl (behind_of hwithin)) hm
      · obtain ⟨hdedent, rfl⟩ := List.cons.inj heq
        cases k with
        | zero =>
          rw [blockLength?_last hdedent] at hn
          obtain rfl := Option.some.inj hn
          exact hwithin
        | succ k =>
          rw [blockLength?_dedent hdedent] at hn
          obtain ⟨m, hm, rfl⟩ := Option.map_eq_some_iff.1 hn
          exact ih (.inl (behind_of hwithin)) hm
      · exact hinside hls
    · exact hinside hls

/-- An `indent` behind a line opens the block under it. -/
theorem exists_within (hbehind : Behind W ts) (hW : ∀ us, W us → Unopened us)
    (hindent : ts.head? = some .indent) :
    ∃ us rest, ts = .indent :: us ∧ Within rest 1 us ∧ W rest := by
  obtain ⟨block, rest, rfl, hblock, hrest⟩ := hbehind
  cases block with
  | nil => exact absurd hindent (hW rest hrest)
  | cons l block =>
    have heq : blockTokens (l :: block) ++ rest =
        .indent :: (tokensAll (l :: block) ++ .dedent :: rest) := by simp
    exact ⟨_, rest, heq, ⟨l :: block, rest, rfl, hblock, rfl⟩, hrest⟩

/-- A block that is passed ends behind its `dedent`. -/
theorem ends_passBlock_behind (hc : c.Stands o) (hnext : c.next? = some .indent)
    (hW : ∀ us, W us → Unopened us) (hbehind : Behind W c.tokens) :
    Ends .safe passBlock o c fun _ c' => c'.Stands o ∧ W c'.tokens := by
  obtain ⟨us, rest, htokens, hwithin, hrest⟩ :=
    exists_within hbehind hW (head?_tokens.trans hnext)
  obtain ⟨l, ls, hls, hl⟩ := next?_eq_some_iff.1 hnext
  obtain ⟨n, hn, hlength⟩ := exists_blockLength?_cons hl ls
  rw [← hls] at hlength
  have hus : ls.map (·.token) = us := by
    rw [Cursor.tokens, hls, List.map_cons] at htokens
    exact (List.cons.inj htokens).2
  have hdrop : (ls.drop n).map (·.token) = rest :=
    drop_blockLength? (.inl (hus ▸ behind_of hwithin)) hn
  simp only [passBlock, ends_bind, ends_ahead, hlength, ends_orFault_some, ends_pass]
  refine ⟨(hc.advanceBy (n + 1)).stands, ?_⟩
  rw [Cursor.tokens, rest_advanceBy, hls, List.drop_succ_cons, hdrop]
  exact hrest

/-! ### Statements -/

/-- A statement is passed to the end of its line, or to the end of the block under it. -/
theorem ends_passStatement_behind (hc : c.Stands o) (hW : ∀ us, W us → Unopened us)
    (hin : Inside W c.tokens) :
    Ends .safe passStatement o c fun _ c' => c'.Stands o ∧ Behind W c'.tokens := by
  have hpast := hc.pastLine_statement false
  have hbehind := (hpast.behind hin).1
  simp only [passStatement, ends_bind, ends_ahead, ends_pass, ends_ite, ends_check, ends_pure]
  split
  · split
    · rename_i hindent
      refine (ends_passBlock_behind hpast.stands (by simpa using hindent) hW hbehind).mono ?_
      exact fun _ c' h => ⟨h.1, behind_of h.2⟩
    · exact ⟨hpast.stands, hbehind⟩
  · exact ⟨hpast.stands, hbehind⟩

/-- The bindings of a line in a block end behind that line. -/
theorem ends_lineBindings_behind {receiver : Option String} (hc : c.Stands o)
    (hin : Inside W c.tokens) :
    Ends .safe (lineBindings receiver) o c fun _ c' => c'.Stands o ∧ Behind W c'.tokens :=
  (ends_lineBindings hc).mono fun _ _ h => ⟨h.stands, (h.behind hin).1⟩

/-! ### Function bodies -/

/-- No block opens at a place of this one that is behind a line. -/
theorem unopened_within (us : List Token) (h : Within ts (n + 1) us) : Unopened us := by
  obtain ⟨block, rest, rfl, hblock, _⟩ := h
  exact head?_tokensAll_append hblock fun t ht => (Option.some.inj ht).symm

/-- A line of a function body is passed, or a definition that it begins. -/
theorem ends_bodyRound_inside {receiver : Option String} {s : BodyState} (hc : c.Stands o)
    (hnext : c.next? = some t) (hline : t.isLayout = false) (hW : ∀ us, W us → Unopened us)
    (hin : Inside W c.tokens) :
    Ends .safe (bodyRound receiver s) o c (AfterRound
      (fun s' c' => s'.level = s.level ∧ c'.Stands o ∧ Behind W c'.tokens) fun _ _ => False) := by
  rw [ends_bodyRound_next hnext (Bool.or_eq_false_iff.1 hline).2]
  split
  · exact (ends_passStatement_behind hc hW hin).mono fun _ c' h => ⟨rfl, h⟩
  · exact (ends_lineBindings_behind hc hin).mono fun _ c' h => ⟨rfl, h⟩

/-- One step through a function body keeps to the blocks that are open. -/
theorem ends_bodyRound_within {receiver : Option String} {s : BodyState} (hc : c.Stands o)
    (hlevel : s.level = k + 1) (hbehind : Behind (Within ts (k + 1)) c.tokens) :
    Ends .safe (bodyRound receiver s) o c (AfterRound
      (fun s' c' => c'.Stands o ∧ ∃ k', s'.level = k' + 1 ∧ Behind (Within ts (k' + 1)) c'.tokens)
      fun _ c' => c'.Stands o ∧ c'.tokens = ts) := by
  rcases hbehind.cases with ⟨rest, heq, hwithin⟩ | ⟨rest, heq, hwithin⟩ | ⟨t, rest, heq, hline, hin⟩
  · simp only [bodyRound, ends_bind, ends_peek, next?_of_tokens heq]
    refine ⟨hc.advance.stands, k + 1, congrArg (· + 1) hlevel, ?_⟩
    exact tokens_advance heq ▸ behind_of hwithin
  · have hrest := tokens_advance heq
    simp only [bodyRound, ends_bind, ends_peek, next?_of_tokens heq, ends_pass, advanceBy_one,
      hlevel]
    cases k with
    | zero => exact ⟨hc.advance.stands, hrest.trans hwithin⟩
    | succ k => exact ⟨hc.advance.stands, k, rfl, hrest ▸ behind_of hwithin⟩
  · refine (ends_bodyRound_inside hc (next?_of_tokens heq) hline unopened_within hin).mono
      fun r c' hr => ?_
    cases r with
    | again s' => exact ⟨hr.2.1, k, hr.1.trans hlevel, hr.2.2⟩
    | stop found => exact hr.elim

/-- **A function body is read to the end of its block.** -/
theorem ends_bodyBindings {receiver : Option String} (hc : c.Stands o)
    (hbehind : Behind (Within ts 1) c.tokens) :
    Ends .any (bodyBindings receiver) o c fun _ c' => c'.Stands o ∧ c'.tokens = ts := by
  refine ends_repeatRounds_any (I := fun s c => c.Stands o ∧
    ∃ k, s.level = k + 1 ∧ Behind (Within ts (k + 1)) c.tokens) ?_ ⟨hc, 0, rfl, hbehind⟩
  rintro s c ⟨hc, k, hlevel, hbehind⟩
  exact (ends_bodyRound_within hc hlevel hbehind).of_safe trivial

/-- Documentation in a function body is one of its lines. -/
theorem ends_docstring_within (hc : c.Stands o) (hbehind : Behind (Within ts (n + 1)) c.tokens) :
    Ends .safe docstring o c fun _ c' => c'.Stands o ∧ Behind (Within ts (n + 1)) c'.tokens := by
  refine (ends_docstring hc).mono fun doc c' h => ?_
  rcases h with rfl | ⟨hpast, text, hnext⟩
  · exact ⟨hc, hbehind⟩
  · refine ⟨hpast.stands, ?_⟩
    rcases hbehind.cases with ⟨rest, heq, _⟩ | ⟨rest, heq, _⟩ | ⟨_, _, _, _, hin⟩
    · rw [← head?_tokens, heq] at hnext
      cases hnext
    · rw [← head?_tokens, heq] at hnext
      cases hnext
    · exact (hpast.behind hin).1

/-- **An indented function body is read to the end of its block**, from behind the colon. -/
theorem ends_functionSuite {receiver : Option String} (hc : c.Stands o)
    (hnewline : c.next? = some .newline) (hW : ∀ us, W us → Unopened us) (hin : Inside W c.tokens) :
    Ends .any (functionBody receiver) o c fun _ c' => c'.Stands o ∧ W c'.tokens ∧
      ∃ us, c.tokens = .newline :: .indent :: us ∧ Within c'.tokens 1 us := by
  refine (ends_functionBody_block hnewline).2 ⟨fun hindent => ?_, fun _ => trivial⟩
  have hpast := (hc.pastLine_newline hnewline).behind hin
  have hpass := hc.advance.trans hc.advance.stands.advance
  obtain ⟨us, rest, htokens, hwithin, hrest⟩ :=
    exists_within hpast.1 hW (head?_tokens.trans hindent)
  have hus : c.advance.advance.tokens = us := tokens_advance htokens
  refine ((ends_docstring_within hpass.stands (hus ▸ behind_of hwithin)).of_safe trivial).mono
    fun doc c₁ h₁ => ?_
  refine (ends_bodyBindings h₁.1 h₁.2).mono fun found c₂ h₂ => ?_
  rw [h₂.2]
  exact ⟨h₂.1, hrest, us, by rw [tokens_eq_cons hnewline, htokens], hwithin⟩

/-- **A function is read to the end of its line or of its block**, from behind the colon. -/
theorem ends_functionBody {receiver : Option String} (hc : c.Stands o)
    (hafter : c.afterNewline = false) (hW : ∀ us, W us → Unopened us) (hin : Inside W c.tokens) :
    Ends .any (functionBody receiver) o c fun _ c' => c'.Stands o ∧ Behind W c'.tokens := by
  by_cases hnewline : c.next? = some .newline
  · exact (ends_functionSuite hc hnewline hW hin).mono fun r c' h => ⟨h.1, behind_of h.2.1⟩
  refine (ends_functionBody_line hnewline).2 ?_
  refine ((ends_docstring hc).of_safe trivial).mono fun doc c₁ h₁ => ?_
  rcases h₁ with rfl | ⟨hpast, _⟩
  · rw [if_neg (by simp [hafter])]
    exact (ends_lineBindings_behind hc hin).of_safe trivial
  · obtain ⟨hbehind, hafter⟩ := hpast.behind hin
    rw [if_pos hafter]
    exact ⟨hpast.stands, hbehind⟩

end Outline
end Lineage
