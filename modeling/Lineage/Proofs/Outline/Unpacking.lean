/-
# Unpacking in a function body

The reading of a function body comes to every line of it that is in no definition of its own
(`finds_hasLine`): a block under a line is entered, and a line that begins a definition is passed
with the block that belongs to it (`finds_behind`).  So an assignment of a display to names and
attributes of the receiver, wherever it stands in the body, is read as its line says
(`function_unpacks`): attributes only are paired with the elements of the display, and those
behind a name are recorded without the pairing.
-/

import Lineage.Proofs.Outline.Scopes
import Lineage.Proofs.Outline.Targets

namespace Lineage
namespace Outline

open Source LogicalLine Reading Cursor

variable {o : Origin} {w : Endings} {c c' : Cursor} {t : Token} {n k : Nat} {l : LogicalLine}
  {ls block : List LogicalLine} {line ts us more : List Token} {receiver : Option String}
  {s : BodyState} {Q : List Binding → Cursor → Prop}

/-! ### Lines of a body -/

/-- Among the lines, or in a block under one of them that begins no definition, stands a line that
begins none; the tokens are those from there to the end of the lines. -/
inductive HasLine : List LogicalLine → List Token → Prop
  | here {l : LogicalLine} {ls : List LogicalLine} (hl : opensScope l.line = false) :
    HasLine (l :: ls) (tokensAll (l :: ls))
  | later {l : LogicalLine} {ls : List LogicalLine} {ts : List Token} (h : HasLine ls ts) :
    HasLine (l :: ls) ts
  | under {l : LogicalLine} {ls : List LogicalLine} {ts : List Token}
    (hl : opensScope l.line = false) (h : HasLine l.block ts) :
    HasLine (l :: ls) (ts ++ .dedent :: tokensAll ls)

/-- Where a line begins no definition, there are lines. -/
theorem HasLine.ne_nil (h : HasLine ls ts) : ls ≠ [] := by
  cases h <;> exact List.cons_ne_nil _ _

/-- Lines open no block in front of them. -/
theorem unopened_tokensAll (hls : EveryAll IsLine ls) (hts : Unopened ts) :
    Unopened (tokensAll ls ++ ts) := by
  cases ls with
  | nil => exact hts
  | cons l ls =>
    obtain ⟨t, us, heq, ht⟩ := exists_tokensAll_cons hls
    rw [Unopened, heq]
    intro hhead
    rw [Option.some.inj hhead] at ht
    cases ht

/-- The end of a block opens none. -/
theorem unopened_dedent : Unopened (.dedent :: ts) := nofun

/-- At the start of a line no layout is ahead. -/
theorem next?_ne_of_isLine (hl : IsLine line) (htokens : c.tokens = line ++ ts)
    (ht : t.isLayout = true) : c.next? ≠ some t := by
  obtain ⟨hne, hline⟩ := hl
  obtain ⟨u, line, rfl⟩ := List.exists_cons_of_ne_nil hne
  exact next?_ne_of_isLayout (next?_of_tokens htokens) (hline u List.mem_cons_self) ht

/-- A line that begins no definition begins none with what is behind it. -/
theorem opensScope_line : opensScope (line ++ .newline :: ts) = opensScope line := by
  cases line with
  | nil => rfl
  | cons t line => cases line <;> cases t <;> first | rfl | (rename_i u _; cases u <;> rfl)

/-- Behind a line stand the tokens behind its `newline`. -/
theorem Cursor.PastLine.tokens_eq (h : PastLine o c c')
    (htokens : c.tokens = line ++ .newline :: ts) (hline : ∀ t ∈ line, t.isLayout = false) :
    c'.tokens = ts := by
  have hend : c.lineEnd = .newline :: ts := by
    rw [lineEnd, htokens, List.dropWhile_append_of_pos fun t ht => by simp [hline t ht]]
    rfl
  rcases h.past with ⟨hpast, _⟩ | ⟨hpast, hnext⟩
  · exact (List.cons.inj (hpast.symm.trans hend)).2
  · exact absurd (next?_of_tokens (hpast.symm.trans hend)) hnext

/-! ### Steps through a body -/

/-- A step over a body enters the block ahead, one level further in. -/
theorem finds_enter (hc : c.Stands o) (hne : block ≠ [])
    (htokens : c.tokens = blockTokens block ++ ts)
    (h : ∀ s' c', Follows o c c' → s'.level = s.level + 1 →
      c'.tokens = tokensAll block ++ .dedent :: ts → Finds (bodyRound receiver) o Q s' c') :
    Finds (bodyRound receiver) o Q s c := by
  obtain ⟨l, block, rfl⟩ := List.exists_cons_of_ne_nil hne
  rw [blockTokens_cons, List.cons_append, List.append_assoc] at htokens
  refine finds_of_round ?_
  simp only [bodyRound, ends_bind, ends_peek, next?_of_tokens htokens]
  exact h _ _ hc.advance rfl (tokens_advance htokens)

/-- A step over a body leaves a block that is not the outermost. -/
theorem finds_leave (hc : c.Stands o) (hlevel : s.level = k + 2)
    (htokens : c.tokens = .dedent :: ts)
    (h : ∀ s' c', Follows o c c' → s'.level = k + 1 → c'.tokens = ts →
      Finds (bodyRound receiver) o Q s' c') : Finds (bodyRound receiver) o Q s c := by
  refine finds_of_round ?_
  simp only [bodyRound, ends_bind, ends_peek, next?_of_tokens htokens, ends_pass, advanceBy_one,
    hlevel]
  exact h _ _ hc.advance rfl (tokens_advance htokens)

/-- A line that begins no definition is read for bindings, and a step leads behind it. -/
theorem ends_bodyRound_line (hc : c.Stands o) (hl : IsLine line) (hscope : opensScope line = false)
    (htokens : c.tokens = line ++ .newline :: ts) :
    Ends .any (bodyRound receiver s) o c (AfterRound (fun s' c' => Follows o c c' ∧
      s'.level = s.level ∧ c'.tokens = ts ∧
        ∃ found, lineBindings receiver o c = .done found c' ∧ s'.found = s.found ++ found)
      fun _ _ => False) := by
  obtain ⟨hne, hline⟩ := hl
  obtain ⟨t, rest, rfl⟩ := List.exists_cons_of_ne_nil hne
  have hshift : t.isShift = false := (Bool.or_eq_false_iff.1 (hline t List.mem_cons_self)).2
  have hopens : c.startsScope = false := by
    rw [← opensScope_tokens, htokens, opensScope_line, hscope]
  rw [ends_bodyRound_next (next?_of_tokens htokens) hshift, hopens, if_neg Bool.false_ne_true]
  refine ((ends_lineBindings hc).of_safe trivial).found.mono ?_
  rintro found c' ⟨hfound, hpast⟩
  exact ⟨hpast.toFollows, rfl, hpast.tokens_eq htokens hline, found, hfound, rfl⟩

/-- A step leads behind a line, or behind the block under it if that is a definition's. -/
theorem ends_bodyRound_pass (hc : c.Stands o) (hlevel : 0 < s.level) (hl : l.Every IsLine)
    (hts : Unopened ts) (htokens : c.tokens = l.tokens ++ ts) :
    Ends .any (bodyRound receiver s) o c (AfterRound (fun s' c' => Passes o c c' ∧
      s'.level = s.level ∧ ∃ block, EveryAll IsLine block ∧ c'.tokens = blockTokens block ++ ts)
      fun _ _ => False) := by
  obtain ⟨⟨hne, hline⟩, _⟩ := every_iff.1 hl
  obtain ⟨t, line, heq⟩ := List.exists_cons_of_ne_nil hne
  have hnext : c.next? = some t := by
    rw [← head?_tokens, htokens, tokens_eq, heq]
    rfl
  have hunopened : ∀ us, us = ts → Unopened us := fun us hus => hus ▸ hts
  have hround : Ends .safe (bodyRound receiver s) o c _ :=
    (ends_bodyRound_inside hc hnext (hline t (heq ▸ List.mem_cons_self)) hunopened
      (htokens ▸ inside_of_line hl rfl)).and (advances_bodyRound s c hlevel hc (Nat.lt_succ_self _))
  refine (hround.of_safe trivial).mono fun r c' ⟨hr, hr'⟩ => ?_
  cases r with
  | stop found => exact hr
  | again s' =>
    obtain ⟨hlevel', _, block, _, htokens', hblock, rfl⟩ := hr
    exact ⟨⟨hr'.2.1, hr'.2.2⟩, hlevel', block, hblock, htokens'⟩

/-- **A block and lines are passed**, and what is found is found from behind them on. -/
theorem finds_behind (hc : c.Stands o) (hlevel : s.level = k + 1) (hblock : EveryAll IsLine block)
    (hls : EveryAll IsLine ls) (hts : Unopened ts)
    (htokens : c.tokens = blockTokens block ++ (tokensAll ls ++ ts))
    (h : ∀ s' c', Follows o c c' → s'.level = k + 1 → c'.tokens = ts →
      Finds (bodyRound receiver) o Q s' c') : Finds (bodyRound receiver) o Q s c := by
  -- a definition may be passed without its block, so the induction is on the tokens ahead
  induction hlength : c.rest.length using Nat.strong_induction_on
    generalizing c s k block ls ts with
  | _ length ih =>
  subst hlength
  cases block with
  | cons l block =>
    have hnil : EveryAll IsLine [] := everyAll_nil.2 trivial
    refine finds_enter hc (List.cons_ne_nil l block) htokens fun s₁ c₁ h₁ hlevel₁ htokens₁ => ?_
    have hless : c₁.rest.length < c.rest.length := by
      rw [← length_tokens, ← length_tokens, htokens, htokens₁]
      simp
    have hinner : c₁.tokens = blockTokens [] ++ (tokensAll (l :: block) ++
        .dedent :: (tokensAll ls ++ ts)) := htokens₁
    refine ih _ hless h₁.stands (hlevel₁.trans (congrArg (· + 1) hlevel)) hnil hblock
      unopened_dedent hinner (fun s₂ c₂ h₂ hlevel₂ htokens₂ => ?_) rfl
    refine finds_leave h₂.stands hlevel₂ htokens₂ fun s₃ c₃ h₃ hlevel₃ htokens₃ => ?_
    have houter : c₃.tokens = blockTokens [] ++ (tokensAll ls ++ ts) := htokens₃
    have hbehind := h₂.trans h₃
    exact ih _ (Nat.lt_of_le_of_lt hbehind.length_le hless) h₃.stands hlevel₃ hnil hls hts houter
      (fun s' c' h' => h s' c' (h₁.trans (hbehind.trans h'))) rfl
  | nil =>
    rw [blockTokens_nil, List.nil_append] at htokens
    cases ls with
    | nil => exact h s c (Follows.refl hc) hlevel htokens
    | cons l ls =>
      rw [tokensAll_cons, List.append_assoc] at htokens
      obtain ⟨hl, hls⟩ := everyAll_cons.1 hls
      have hpos : 0 < s.level := by omega
      refine finds_of_round ((ends_bodyRound_pass hc hpos hl (unopened_tokensAll hls hts)
        htokens).mono fun r c₁ hr => ?_)
      cases r with
      | stop found => exact hr.elim
      | again s₁ =>
        obtain ⟨h₁, hlevel₁, block, hblock, htokens₁⟩ := hr
        exact ih _ h₁.length_lt h₁.stands (hlevel₁.trans hlevel) hblock hls hts htokens₁
          (fun s' c' h' => h s' c' (h₁.toFollows.trans h')) rfl

/-- **A line of the body is come to.**  What is found from there on is found from the first line
of the body on. -/
theorem finds_hasLine (h : HasLine ls us) (hc : c.Stands o) (hlevel : s.level = k + 1)
    (hls : EveryAll IsLine ls) (hmore : Unopened more) (htokens : c.tokens = tokensAll ls ++ more)
    (hfinds : ∀ s' c', Follows o c c' → c'.tokens = us ++ more →
      Finds (bodyRound receiver) o Q s' c') : Finds (bodyRound receiver) o Q s c := by
  induction h generalizing c s k more with
  | here hl => exact hfinds s c (Follows.refl hc) htokens
  | @later l ls us _ ih =>
    obtain ⟨hl, hls⟩ := everyAll_cons.1 hls
    have hfirst : c.tokens = blockTokens [] ++ (tokensAll [l] ++ (tokensAll ls ++ more)) := by
      rw [htokens]
      simp
    refine finds_behind hc hlevel (everyAll_nil.2 trivial) (by simpa using hl)
      (unopened_tokensAll hls hmore) hfirst fun s₁ c₁ h₁ hlevel₁ htokens₁ => ?_
    exact ih h₁.stands hlevel₁ hls hmore htokens₁ fun s' c' h' => hfinds s' c' (h₁.trans h')
  | @under l ls us hl h ih =>
    obtain ⟨hline, hblock⟩ := every_iff.1 (everyAll_cons.1 hls).1
    rw [tokensAll_cons, List.append_assoc, tokens_eq, List.append_assoc] at htokens
    refine finds_of_round ((ends_bodyRound_line hc hline hl htokens).mono fun r c₁ hr => ?_)
    cases r with
    | stop found => exact hr.elim
    | again s₁ =>
      obtain ⟨h₁, hlevel₁, htokens₁, _⟩ := hr
      refine finds_enter h₁.stands h.ne_nil htokens₁ fun s₂ c₂ h₂ hlevel₂ htokens₂ => ?_
      have hlevel₂ : s₂.level = k + 1 + 1 := by omega
      refine ih h₂.stands hlevel₂ hblock unopened_dedent htokens₂ fun s' c' h' htokens' => ?_
      refine hfinds s' c' (h₁.trans (h₂.trans h')) ?_
      rw [htokens', List.append_assoc, List.cons_append]

/-- What is found from a later line on is found from behind the first one on. -/
theorem finds_hasLine_behind (h : HasLine (l :: ls) us) (hfirst : us ≠ tokensAll (l :: ls))
    (hc : c.Stands o) (hlevel : s.level = k + 1) (hls : EveryAll IsLine (l :: ls))
    (hmore : Unopened more) (htokens : c.tokens = blockTokens l.block ++ (tokensAll ls ++ more))
    (hfinds : ∀ s' c', Follows o c c' → c'.tokens = us ++ more →
      Finds (bodyRound receiver) o Q s' c') : Finds (bodyRound receiver) o Q s c := by
  obtain ⟨hl, hls⟩ := everyAll_cons.1 hls
  obtain ⟨_, hblock⟩ := every_iff.1 hl
  cases h with
  | here => exact absurd rfl hfirst
  | later h =>
    have hblock' : c.tokens = blockTokens l.block ++ (tokensAll [] ++ (tokensAll ls ++ more)) :=
      htokens
    refine finds_behind hc hlevel hblock (everyAll_nil.2 trivial) (unopened_tokensAll hls hmore)
      hblock' fun s₁ c₁ h₁ hlevel₁ htokens₁ => ?_
    exact finds_hasLine h h₁.stands hlevel₁ hls hmore htokens₁
      fun s' c' h' => hfinds s' c' (h₁.trans h')
  | under _ h =>
    refine finds_enter hc h.ne_nil htokens fun s₁ c₁ h₁ hlevel₁ htokens₁ => ?_
    refine finds_hasLine h h₁.stands hlevel₁ hblock unopened_dedent htokens₁
      fun s' c' h' htokens' => hfinds s' c' (h₁.trans h') ?_
    rw [htokens', List.append_assoc, List.cons_append]

/-- A body keeps the bindings that are found. -/
theorem ends_bodyRound_found :
    Ends .any (bodyRound receiver s) o c
      (AfterRound (fun s' _ => s.found <+: s'.found) fun found _ => found = s.found) := by
  have hself := List.prefix_refl s.found
  exact ends_bodyRound.2 ⟨fun _ => rfl, fun _ => hself,
    fun _ => ⟨fun _ => trivial, fun _ => rfl, fun _ _ => hself⟩, fun _ _ _ =>
      ⟨fun _ => ends_any fun _ _ => hself, fun _ => ends_any fun _ _ => List.prefix_append _ _⟩⟩

/-- The tokens from such a line on begin with it. -/
theorem HasLine.exists_line (h : HasLine ls us) (hls : EveryAll IsLine ls) :
    ∃ line rest, us = line ++ .newline :: rest ∧ IsLine line ∧ opensScope line = false := by
  induction h with
  | @here l ls hl =>
    obtain ⟨hline, _⟩ := every_iff.1 (everyAll_cons.1 hls).1
    refine ⟨l.line, blockTokens l.block ++ tokensAll ls, ?_, hline, hl⟩
    rw [tokensAll_cons, tokens_eq, List.append_assoc, List.cons_append]
  | later _ ih => exact ih (everyAll_cons.1 hls).2
  | under _ _ ih =>
    obtain ⟨line, rest, rfl, hline⟩ := ih (every_iff.1 (everyAll_cons.1 hls).1).2
    exact ⟨line, _, by rw [List.append_assoc, List.cons_append], hline⟩

/-- What is found on a line of the body is found in the body. -/
theorem finds_found {R : List Binding → Prop} (h : HasLine ls us) (hls : EveryAll IsLine ls)
    (hc : c.Stands o) (htokens : c.tokens = us ++ more)
    (hfound : Ends .any (lineBindings receiver) o c fun found _ =>
      ∃ bound, R bound ∧ bound <:+: found) :
    Finds (bodyRound receiver) o (fun found _ => ∃ bound, R bound ∧ bound <:+: found) s c := by
  obtain ⟨line, rest, rfl, hline, hscope⟩ := h.exists_line hls
  rw [List.append_assoc] at htokens
  refine finds_of_round ((ends_bodyRound_line hc hline hscope htokens).mono fun r c₁ hr => ?_)
  cases r with
  | stop found => exact hr.elim
  | again s₁ =>
    obtain ⟨_, _, _, found, hdone, hs₁⟩ := hr
    obtain ⟨bound, hR, hbound⟩ := (ends_iff_of_done hdone).1 hfound
    have hkept : bound <:+: s₁.found := by
      rw [hs₁]
      exact hbound.trans (List.suffix_append s.found found).isInfix
    refine finds_of_invariant (I := fun s' _ => bound <:+: s'.found) (fun s' c' hbound => ?_) hkept
    refine ends_bodyRound_found.mono fun r c'' hr => ?_
    cases r with
    | again s'' => exact hbound.trans hr.isInfix
    | stop found =>
      rw [afterRound_stop] at hr
      exact ⟨bound, hR, hr ▸ hbound⟩

/-! ### Function bodies -/

/-- From behind the colon of a function on, the tokens ahead at a line of its body that is in no
definition there. -/
inductive BodyLine : List Token → List Token → Prop
  /-- The rest of the line of the header. -/
  | inline {line more : List Token} (hline : IsLine line) :
    BodyLine (line ++ .newline :: more) (line ++ .newline :: more)
  /-- A line of the block. -/
  | block {block : List LogicalLine} {us more : List Token} (hblock : EveryAll IsLine block)
    (h : HasLine block us) :
    BodyLine (.newline :: .indent :: (tokensAll block ++ .dedent :: more)) (us ++ .dedent :: more)

/-- Behind the string literals at the start of a line, one of its tokens is next. -/
theorem exists_behind_strings {ls : List Lexeme} (hls : ls.map (·.token) = line ++ t :: ts)
    (hline : ∀ u ∈ line, u.isLayout = false) (ht : t.isLayout = false)
    (hstring : t.isString = false) :
    ∃ l, ls[stringCount ls]? = some l ∧ l.token.isLayout = false := by
  induction line generalizing ls with
  | nil =>
    obtain ⟨l, ls, rfl, rfl, _⟩ := List.map_eq_cons_iff.1 hls
    exact ⟨l, by simp [stringCount, hstring], ht⟩
  | cons u line ih =>
    obtain ⟨l, ls', rfl, rfl, hls'⟩ := List.map_eq_cons_iff.1 hls
    obtain ⟨hl, hline⟩ := List.forall_mem_cons.1 hline
    cases hs : l.token.isString with
    | false => exact ⟨l, by simp [stringCount, hs], hl⟩
    | true =>
      obtain ⟨l', hl', hline'⟩ := ih hls' hline
      exact ⟨l', by simpa [stringCount, hs] using hl', hline'⟩

/-- A line with a token that is no string is not documentation. -/
theorem ends_docstring_none (htokens : c.tokens = line ++ t :: ts)
    (hline : ∀ u ∈ line, u.isLayout = false) (ht : t.isLayout = false)
    (hstring : t.isString = false) :
    Ends w docstring o c fun _ c' => c' = c := by
  obtain ⟨l, hl, hlayout⟩ := exists_behind_strings htokens hline ht hstring
  have hnext : (c.advanceBy (stringCount c.rest)).next? = some l.token := by
    rw [next?_advanceBy, hl]
    rfl
  simp only [docstring, ends_bind, ends_ahead, ends_peekAt, hnext]
  rw [ends_ite, if_pos]
  · rfl
  · cases hl : l.token <;> simp_all [Token.isLayout, Token.isShift]

/-- A line of the block is come to whether or not there is documentation in front of it. -/
theorem ends_docstring_hasLine (h : HasLine block us) (hc : c.Stands o)
    (hblock : EveryAll IsLine block) (htokens : c.tokens = tokensAll block ++ .dedent :: more)
    (hus : us ++ .dedent :: more = line ++ t :: ts) (hline : ∀ u ∈ line, u.isLayout = false)
    (ht : t.isLayout = false) (hstring : t.isString = false)
    (hfinds : ∀ s' c', Follows o c c' → c'.tokens = us ++ .dedent :: more →
      Finds (bodyRound receiver) o Q s' c') :
    Ends .any docstring o c fun _ c' => Finds (bodyRound receiver) o Q ⟨1, []⟩ c' := by
  by_cases hfirst : us = tokensAll block
  · rw [← hfirst] at htokens
    refine (ends_docstring_none (htokens.trans hus) hline ht hstring).mono ?_
    rintro doc c' rfl
    exact hfinds _ c' (Follows.refl hc) htokens
  · refine ((ends_docstring hc).of_safe trivial).mono fun doc c' h' => ?_
    rcases h' with rfl | ⟨hpast, _⟩
    · exact finds_hasLine h hc (k := 0) rfl hblock unopened_dedent htokens hfinds
    · obtain ⟨l, ls, rfl⟩ := List.exists_cons_of_ne_nil h.ne_nil
      obtain ⟨⟨_, hl⟩, _⟩ := every_iff.1 (everyAll_cons.1 hblock).1
      rw [tokensAll_cons, tokens_eq, List.append_assoc, List.append_assoc] at htokens
      exact finds_hasLine_behind h hfirst hpast.stands (k := 0) rfl hblock unopened_dedent
        (hpast.tokens_eq htokens hl) fun s' c'' h' => hfinds s' c'' (hpast.toFollows.trans h')

/-- **What is found on a line of the body is found in the body**, from behind the colon on. -/
theorem ends_functionBody_bodyLine {R : List Binding → Prop} (h : BodyLine c.tokens us)
    (hc : c.Stands o) (hafter : c.afterNewline = false) (hus : us = line ++ t :: ts)
    (hline : ∀ u ∈ line, u.isLayout = false) (ht : t.isLayout = false)
    (hstring : t.isString = false)
    (hfound : ∀ c', Follows o c c' → c'.tokens = us →
      Ends .any (lineBindings receiver) o c' fun found _ => ∃ bound, R bound ∧ bound <:+: found) :
    Ends .any (functionBody receiver) o c fun body _ => ∃ bound, R bound ∧ bound <:+: body.2 := by
  generalize htokens : c.tokens = ts' at h
  cases h with
  | inline hrest =>
    refine (ends_functionBody_line (next?_ne_of_isLine hrest htokens rfl)).2 ?_
    refine (ends_docstring_none (htokens.trans hus) hline ht hstring).mono ?_
    rintro doc c' rfl
    rw [if_neg (by simp [hafter])]
    exact hfound c' (Follows.refl hc) htokens
  | @block block us more hblock h =>
    have h₁ := tokens_advance htokens
    have h₂ := tokens_advance h₁
    have hpass := hc.advance.trans hc.advance.stands.advance
    refine (ends_functionBody_block (next?_of_tokens htokens)).2 ⟨fun _ => ?_, fun _ => trivial⟩
    refine (ends_docstring_hasLine (Q := fun found _ => ∃ bound, R bound ∧ bound <:+: found) h
      hpass.stands hblock h₂ hus hline ht hstring fun s' c' h' htokens' => ?_).mono
        fun doc c' hfinds => hfinds _
    exact finds_found h hblock h'.stands htokens' (hfound c' (hpass.trans h') htokens')

/-- The block of a body is entered in front of its lines. -/
theorem BodyLine.entered (h : BodyLine c.tokens us) (hnewline : c.next? = some .newline) :
    c.advance.next? = some .indent := by
  generalize htokens : c.tokens = ts at h
  cases h with
  | inline hline => exact absurd hnewline (next?_ne_of_isLine hline htokens rfl)
  | block => exact next?_of_tokens (tokens_advance htokens)

/-! ### Assignments in a body -/

section Assignment

variable {isAsync : Bool} {name self : String} {parameters : List Parameter}
  {returns : Option Expression} {c₁ : Cursor} {pre behind : List Token} {before : List Target}
  {fields : List String}

/-- The tokens of a line before one of its statements are no layout. -/
theorem BeforeStatement.isLayout (h : BeforeStatement self pre) :
    ∀ t ∈ pre, t.isLayout = false := by
  cases h with
  | first => exact nofun
  | semicolon h => exact List.forall_mem_append.2 ⟨h.line, by simp [Token.isLayout, Token.isShift]⟩
  | colon h => exact List.forall_mem_append.2 ⟨h.line, by simp [Token.isLayout, Token.isShift]⟩

/-- **What is unpacked in a function body.**  Where a statement may begin, on a line of the body
that is in no definition there, a display is assigned to as many targets as it has elements.  If
all of them are attributes of the receiver, each is recorded with its element.  If names are among
them, the attributes behind the last name are recorded: a single one with the whole display, and
several with no value. -/
theorem function_unpacks (ds : List Decorator) (hc : c.Stands o)
    (hheader : functionHeader o c = .done (isAsync, name, parameters, returns) c₁)
    (hself : receiverName? parameters = some self)
    (hline : BodyLine c₁.tokens
      (pre ++ (targetTokens self (before ++ fields.map .field) ++ .equals :: behind)))
    (hpre : BeforeStatement self pre) (hbefore : EndsInName before) (hne : fields ≠ [])
    (hcount : 2 ≤ before.length + fields.length)
    (hdisplay : DisplaysAt o c₁ behind (before.length + fields.length)) :
    ∃ f c', functionDefinition ds o c = .done f c' ∧ ∃ e elements c₂ c₃ bound,
      Follows o c₁ c₂ ∧ c₂.tokens = behind ∧ expressionList o c₂ = .done e c₃ ∧
        e.elements? = some elements ∧ elements.length = before.length + fields.length ∧
          bound <:+: f.receiverBindings ∧ bound.map (·.target) = fields ∧
            (before = [] → bound.map (·.value) = elements.map some) ∧
              (before ≠ [] → bound.map (·.value) =
                if fields.length = 1 then [some e] else List.replicate fields.length none) := by
  obtain ⟨-, h₁, -, hafter⟩ := (ends_iff_of_done hheader).1 (ends_functionHeader hc)
  obtain ⟨f, c', hf⟩ := exists_functionDefinition ds hc hheader hline.entered
  have hbody : Ends .any (functionBody (some self)) o c₁ fun body _ => ∃ bound,
      Unpacked o c₁ behind (before.length + fields.length) fields bound ∧ bound <:+: body.2 := by
    have hahead : ∀ t ∈ pre ++ targetTokens self (before ++ fields.map .field),
        t.isLayout = false := List.forall_mem_append.2 ⟨hpre.isLayout, isLayout_targetTokens⟩
    refine ends_functionBody_bodyLine hline h₁.stands hafter (List.append_assoc ..).symm hahead rfl
      rfl fun c₂ h₂ htokens₂ => ?_
    refine (ends_lineBindings_assignment h₂.stands hpre hbefore hne htokens₂
      (hdisplay.of_follows h₂)).mono fun found c₃ ⟨bound, hbound, hfound⟩ => ?_
    exact ⟨bound, hbound.of_follows h₂, hfound⟩
  have hfound : Ends .any (functionDefinition ds) o c fun f _ => ∃ bound,
      Unpacked o c₁ behind (before.length + fields.length) fields bound ∧
        bound <:+: f.receiverBindings := by
    simp only [functionDefinition_eq, ends_bind, ends_peekStart, ends_spanFrom, ends_pure]
    refine (ends_iff_of_done hheader).2 ?_
    rw [hself]
    exact hbody.mono fun body c₂ h => h
  obtain ⟨bound, ⟨e, elements, c₂, c₃, h₂, hbehind, he, helements, hlength, htargets, hvalues⟩,
    hinfix⟩ := (ends_iff_of_done hf).1 hfound
  refine ⟨f, c', hf, e, elements, c₂, c₃, bound, h₂, hbehind, he, helements, hlength, hinfix,
    htargets, fun hnil => ?_, fun hcons => ?_⟩
  · have hfields : fields.length = elements.length := by simp [hlength, hnil]
    rw [hvalues, hfields, targetValues_elements helements (by omega)]
  · have hpos := List.length_pos_iff.2 hcons
    rw [hvalues, targetValues_whole helements (by omega)]

end Assignment

/-! ### Pairs of numbers -/

/-- Two numbers at the end of a line are a display. -/
theorem displaysAt_numbers (x y : String) :
    DisplaysAt o c (.number x :: .comma :: .number y :: .newline :: ts) 2 := by
  rintro ⟨rest, lastStop, afterNewline, made⟩ _ htokens
  obtain ⟨⟨_, _⟩, ls₁, rfl, rfl, h₁⟩ := List.map_eq_cons_iff.1 htokens
  obtain ⟨⟨_, _⟩, ls₂, rfl, rfl, h₂⟩ := List.map_eq_cons_iff.1 h₁
  obtain ⟨⟨_, _⟩, ls₃, rfl, rfl, h₃⟩ := List.map_eq_cons_iff.1 h₂
  obtain ⟨⟨_, _⟩, ls₄, rfl, rfl, h₄⟩ := List.map_eq_cons_iff.1 h₃
  exact ⟨_, _, _, rfl, rfl, rfl, fun h => nomatch (show some Token.newline = some .equals from h)⟩

/-- A method that unpacks a pair behind a condition. -/
def pairedTargets : String := "class A:\n def m(self):\n  if f(0): self.a, self.b = 1, 2\n"

/-- The tokens of a condition on the line of an assignment. -/
def conditionTokens : List Token :=
  [.identifier "if", .identifier "f", .openParen, .number "0", .closeParen]

/-- The hypotheses of `function_unpacks` are satisfiable: both attributes have their element. -/
theorem function_unpacks_pairedTargets : ∃ tokens c f c' e elements bound,
    tokenize pairedTargets = .ok tokens ∧ Follows ⟨pairedTargets.toList, ""⟩ (.first tokens) c ∧
      functionDefinition [] ⟨pairedTargets.toList, ""⟩ c = .done f c' ∧
        Expression.elements? e = some elements ∧ bound <:+: f.receiverBindings ∧
          bound.map (·.target) = ["a", "b"] ∧ bound.map (·.value) = elements.map some := by
  obtain ⟨tokens, htokens, hread⟩ := exists_tokens pairedTargets (fun ls =>
    match functionHeader ⟨pairedTargets.toList, ""⟩ ((Cursor.first ls).advanceBy 5) with
    | .done (_, _, parameters, _) c₁ => receiverName? parameters == some "self" &&
      decide (c₁.tokens = .newline :: .indent :: (tokensAll [⟨conditionTokens ++ .colon ::
        targetTokens "self" [.field "a", .field "b"] ++
          [.equals, .number "1", .comma, .number "2"], []⟩] ++ [.dedent, .dedent]))
    | _ => false) (by decide +kernel)
  split at hread
  · rename_i isAsync name parameters returns c₁ hheader
    simp only [Bool.and_eq_true, beq_iff_eq, decide_eq_true_eq] at hread
    obtain ⟨hself, htokens₁⟩ := hread
    have hline : BodyLine c₁.tokens (conditionTokens ++ [.colon] ++
        (targetTokens "self" ([] ++ ["a", "b"].map .field) ++ .equals ::
          .number "1" :: .comma :: .number "2" :: .newline :: [.dedent, .dedent])) := by
      rw [htokens₁]
      exact .block (by decide) (.here rfl)
    have hpre : BeforeStatement "self" (conditionTokens ++ [.colon]) := by
      have hheaders : HeadersBalanced conditionTokens := by decide
      refine .colon ⟨by decide, rfl, hheaders.headersOpen, by simp, .inr fun q hq => ?_⟩
        fun p field heq => ?_
      · exact absurd (hq.subset List.mem_cons_self) (by decide)
      · have hlast := congrArg List.getLast? heq
        simp [conditionTokens, Target.tokens] at hlast
    have hfollows : Follows ⟨pairedTargets.toList, ""⟩ (.first tokens)
        ((Cursor.first tokens).advanceBy 5) := (stands_first "" htokens).advanceBy 5
    obtain ⟨f, c', hf, e, elements, _, _, bound, _, _, _, helements, _, hbound, htargets, hvalues,
      _⟩ := function_unpacks [] hfollows.stands hheader hself hline hpre
        (fun _ hlast => by cases hlast) (by decide) (by decide) (displaysAt_numbers "1" "2")
    exact ⟨tokens, _, f, c', e, elements, bound, htokens, hfollows, hf, helements, hbound,
      htargets, hvalues rfl⟩
  · cases hread

/-- A method that unpacks a pair to a name and an attribute of its receiver. -/
def mixedTargets : String := "class A:\n def m(self):\n  x, self.b = 1, 2\n"

/-- The attribute behind the name is recorded with the pair and not with its second element. -/
theorem mixedTargets_unpaired : ∃ tokens header c₁ f c' e elements c₃,
    tokenize mixedTargets = .ok tokens ∧
      functionHeader ⟨mixedTargets.toList, ""⟩ ((Cursor.first tokens).advanceBy 5) =
        .done header c₁ ∧
      functionDefinition [] ⟨mixedTargets.toList, ""⟩ ((Cursor.first tokens).advanceBy 5) =
        .done f c' ∧
      receiverName? header.2.2.1 = some "self" ∧
      BodyLine c₁.tokens (targetTokens "self" [.name "x", .field "b"] ++ .equals ::
        (c₁.advanceBy 8).tokens) ∧
      expressionList ⟨mixedTargets.toList, ""⟩ (c₁.advanceBy 8) = .done e c₃ ∧
      Expression.elements? e = some elements ∧ elements.map (·.text) = ["1", "2"] ∧
      f.receiverBindings.map (fun b => (b.target, b.value.map (·.text))) =
        [("b", some "(1, 2)")] := by
  obtain ⟨tokens, htokens, hread⟩ := exists_tokens mixedTargets (fun ls =>
    match functionHeader ⟨mixedTargets.toList, ""⟩ ((Cursor.first ls).advanceBy 5),
      functionDefinition [] ⟨mixedTargets.toList, ""⟩ ((Cursor.first ls).advanceBy 5) with
    | .done header c₁, .done f _ =>
      match expressionList ⟨mixedTargets.toList, ""⟩ (c₁.advanceBy 8) with
      | .done e _ => receiverName? header.2.2.1 == some "self" &&
        decide (c₁.tokens = .newline :: .indent :: (tokensAll [⟨
          targetTokens "self" [.name "x", .field "b"] ++
            [.equals, .number "1", .comma, .number "2"], []⟩] ++ [.dedent, .dedent])) &&
        (e.elements?.map fun elements => elements.map (·.text)) == some ["1", "2"] &&
        f.receiverBindings.map (fun b => (b.target, b.value.map (·.text))) ==
          [("b", some "(1, 2)")]
      | _ => false
    | _, _ => false) (by decide +kernel)
  split at hread
  · rename_i header c₁ f c' hheader hf
    split at hread
    · rename_i e c₃ he
      simp only [Bool.and_eq_true, beq_iff_eq, decide_eq_true_eq] at hread
      obtain ⟨⟨⟨hself, htokens₁⟩, hmap⟩, hbindings⟩ := hread
      obtain ⟨elements, helements, htexts⟩ := Option.map_eq_some_iff.1 hmap
      have hbehind : (c₁.advanceBy 8).tokens =
          [.number "1", .comma, .number "2", .newline, .dedent, .dedent] := by
        rw [Cursor.tokens, rest_advanceBy, List.map_drop, ← Cursor.tokens, htokens₁]
        rfl
      refine ⟨tokens, header, c₁, f, c', e, elements, c₃, htokens, hheader, hf, hself, ?_, he,
        helements, htexts, hbindings⟩
      rw [hbehind, htokens₁]
      exact .block (by decide) (.here rfl)
    · cases hread
  · cases hread

end Outline
end Lineage
