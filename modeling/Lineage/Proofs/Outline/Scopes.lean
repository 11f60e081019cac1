/-
# Bindings of a function body start outside of the definitions in it

A definition inside a function body, a line that begins with `def`, `async def`, `class` or
`@` and the block under it (`IsNested`), is passed over as a whole
(`ends_passStatement_nested`): a step through the body begins before it or behind it, never in
it (`Outside`), and a line that is read for bindings is none of its own.  So the bindings of a
function are identifiers elsewhere in its block (`starts_bodyBindings`), and with the ends of
indented suites this says how each definition of a source is read (`readsBlocks`).
-/

import Lineage.Proofs.Outline.Suites

namespace Lineage
namespace Outline

open Source LogicalLine Reading Cursor

variable {o : Origin} {w : Endings} {c c' : Cursor} {t : Token} {n k level start stop : Nat}
  {l : Lexeme} {ls a line before region behind : List Lexeme}

/-! ### Nested definitions -/

/-- The tokens begin a definition or a decorator. -/
def opensScope : List Token → Bool
  | .defKeyword :: _ | .classKeyword :: _ | .atSign :: _ => true
  | .asyncKeyword :: .defKeyword :: _ => true
  | _ => false

/-- The tokens of a line that begins with `def`, `async def`, `class` or `@`. -/
structure IsDefinitionLine (line : List Lexeme) : Prop where
  inLine : ∀ l ∈ line, l.token.isLayout = false
  opens : opensScope (line.map (·.token)) = true

/-- A nested definition: a line that begins one, and if it ends with a colon also the block
behind it. -/
inductive IsNested : List Lexeme → Prop
  | line {line : List Lexeme} {newline : Lexeme} (hline : IsDefinitionLine line)
    (hnewline : newline.token = .newline) : IsNested (line ++ [newline])
  | block {line block : List Lexeme} {newline indent dedent : Lexeme}
    (hline : IsDefinitionLine line) (hcolon : line.getLast?.map (·.token) = some .colon)
    (hnewline : newline.token = .newline) (hindent : indent.token = .indent)
    (hblock : Balanced (block.map (·.token))) (hdedent : dedent.token = .dedent) :
    IsNested (line ++ newline :: indent :: (block ++ [dedent]))

/-- Behind the lexemes a line begins, or they are none. -/
def LineBegins (ls : List Lexeme) : Prop := ∀ l, ls.getLast? = some l → l.token.isLayout = true

/-- Behind an end of the lexemes the same line begins. -/
theorem LineBegins.of_suffix (h : LineBegins before) (ha : a <:+ before) : LineBegins a := by
  obtain ⟨p, rfl⟩ := ha
  intro l hl
  exact h l (by rw [List.getLast?_append, hl, Option.some_or])

/-- Behind a definition as many levels are open as before it. -/
theorem IsNested.balancedFrom (h : IsNested region) : BalancedFrom 0 (region.map (·.token)) := by
  have hshift : ∀ {line : List Lexeme}, IsDefinitionLine line →
      ∀ t ∈ line.map (·.token), t.isShift = false := by
    intro line hline t ht
    obtain ⟨l, hl, rfl⟩ := List.mem_map.1 ht
    exact (Bool.or_eq_false_iff.1 (hline.inLine l hl)).2
  cases h with
  | line hline hnewline =>
    rw [List.map_append, List.map_singleton, hnewline]
    exact (balancedFrom_nil.other rfl).append (hshift hline)
  | @block line block newline indent dedent hline hcolon hnewline hindent hblock hdedent =>
    have hbehind : BalancedFrom 1 (block.map (·.token) ++ [.dedent]) :=
      BalancedFrom.concat (show BalancedFrom 0 _ from hblock) balancedFrom_nil.dedent
    simp only [List.map_append, List.map_cons, List.map_nil, hnewline, hindent, hdedent]
    exact (hbehind.indent.other rfl).append (hshift hline)

/-- What opens a scope does so in front of any further tokens. -/
theorem opensScope_append {ts us : List Token} (h : opensScope ts = true) :
    opensScope (ts ++ us) = true := by
  unfold opensScope at h
  split at h
  · rfl
  · rfl
  · rfl
  · rfl
  · cases h

/-- A nested definition opens a scope. -/
theorem IsNested.opens (h : IsNested region) : opensScope (region.map (·.token)) = true := by
  cases h with
  | line hline =>
    rw [List.map_append]
    exact opensScope_append hline.opens
  | block hline =>
    rw [List.map_append]
    exact opensScope_append hline.opens

/-- A scope opens with a token of a line. -/
theorem isLayout_of_opensScope {ts : List Token} (h : opensScope (t :: ts) = true) :
    t.isLayout = false := by
  cases t with
  | defKeyword => rfl
  | classKeyword => rfl
  | atSign => rfl
  | asyncKeyword => rfl
  | _ => cases h

/-- In front of a nested definition a scope opens. -/
theorem IsNested.opensScope_tokens (h : IsNested region) (hrest : c.rest = region ++ behind) :
    opensScope c.tokens = true := by
  rw [Cursor.tokens, hrest, List.map_append]
  exact opensScope_append h.opens

/-- A scope opens with the tokens ahead if a definition or a decorator begins with the next one. -/
theorem opensScope_tokens : opensScope c.tokens = c.startsScope := by
  rw [startsScope, Cursor.startsFunction]
  cases hnext : c.next? with
  | none =>
    rw [Cursor.tokens, next?_eq_none_iff.1 hnext]
    rfl
  | some t =>
    rw [← head?_tokens, tokens_eq_cons hnext]
    cases c.advance.tokens with
    | nil => cases t <;> rfl
    | cons u us => cases t <;> cases u <;> rfl

/-- Balanced tokens are passed with the levels that are open around them. -/
theorem blockLength?_append (h : BalancedFrom level (ls.map (·.token))) :
    blockLength? (k + 1 + level) (ls ++ behind) =
      (blockLength? (k + 1) behind).map (· + ls.length) := by
  induction ls generalizing level with
  | nil =>
    obtain rfl : level = 0 := by simpa using h.2.symm
    simp
  | cons l ls ih =>
    rw [List.map_cons] at h
    have hgrow : ∀ m : Option Nat, (m.map (· + ls.length)).map (· + 1) =
        m.map (· + (ls.length + 1)) := by
      intro m
      rw [Option.map_map]
      rfl
    by_cases hindent : l.token = .indent
    · rw [hindent] at h
      rw [List.cons_append, blockLength?_indent hindent, Nat.add_assoc (k + 1),
        ih (balancedFrom_indent_iff.1 h)]
      exact hgrow _
    · by_cases hdedent : l.token = .dedent
      · rw [hdedent] at h
        cases level with
        | zero => exact absurd h not_balancedFrom_dedent
        | succ level =>
          rw [List.cons_append, show k + 1 + (level + 1) = (k + level) + 2 by omega,
            blockLength?_dedent hdedent, show k + level + 1 = k + 1 + level by omega,
            ih (balancedFrom_dedent_iff.1 h)]
          exact hgrow _
      · have hshift := isShift_eq_false hindent hdedent
        rw [List.cons_append, blockLength?_other hshift, ih ((balancedFrom_other_iff hshift).1 h)]
        exact hgrow _

/-- A block is as long as what is in it, with its `indent` and its `dedent`. -/
theorem blockLength?_block {block : List Lexeme} {indent dedent : Lexeme}
    (hindent : indent.token = .indent) (hblock : Balanced (block.map (·.token)))
    (hdedent : dedent.token = .dedent) :
    blockLength? 0 (indent :: (block ++ dedent :: behind)) = some (block.length + 2) := by
  have hinner : blockLength? (0 + 1 + 0) (block ++ dedent :: behind) = some (1 + block.length) := by
    rw [blockLength?_append (show BalancedFrom 0 _ from hblock), blockLength?_last hdedent]
    rfl
  rw [blockLength?_indent hindent, hinner, Option.map_some, Nat.add_comm 1]

/-- A block ends before balanced tokens, or behind them. -/
theorem blockLength?_cases (h : BalancedFrom 0 (region.map (·.token)))
    (hn : blockLength? (k + 1) (a ++ (region ++ behind)) = some n) :
    n ≤ a.length ∨ a.length + region.length ≤ n := by
  induction a generalizing k n with
  | nil =>
    rw [List.nil_append, ← Nat.add_zero (k + 1), blockLength?_append h] at hn
    obtain ⟨m, _, rfl⟩ := Option.map_eq_some_iff.1 hn
    right
    rw [List.length_nil]
    omega
  | cons l a ih =>
    rw [List.cons_append] at hn
    rw [List.length_cons]
    by_cases hindent : l.token = .indent
    · rw [blockLength?_indent hindent] at hn
      obtain ⟨m, hm, rfl⟩ := Option.map_eq_some_iff.1 hn
      have hcases := ih hm
      omega
    · by_cases hdedent : l.token = .dedent
      · cases k with
        | zero =>
          rw [blockLength?_last hdedent] at hn
          obtain rfl := Option.some.inj hn
          omega
        | succ k =>
          rw [blockLength?_dedent hdedent] at hn
          obtain ⟨m, hm, rfl⟩ := Option.map_eq_some_iff.1 hn
          have hcases := ih hm
          omega
      · rw [blockLength?_other (isShift_eq_false hindent hdedent)] at hn
        obtain ⟨m, hm, rfl⟩ := Option.map_eq_some_iff.1 hn
        have hcases := ih hm
        omega

/-! ### Places outside of a definition -/

/-- The lexemes ahead begin before the region or behind it. -/
def Outside (before region behind ls : List Lexeme) : Prop :=
  (∃ a, a <:+ before ∧ ls = a ++ (region ++ behind)) ∨ ls <:+ behind

/-- An end of two stretches that is at least as long as the second begins in the first. -/
theorem exists_append_of_suffix (h : ls <:+ a ++ behind) (hle : behind.length ≤ ls.length) :
    ∃ a', a' <:+ a ∧ ls = a' ++ behind := by
  obtain ⟨a', rfl⟩ := List.suffix_of_suffix_length_le (List.suffix_append a behind) h hle
  obtain ⟨p, hp⟩ := h
  rw [← List.append_assoc] at hp
  exact ⟨a', ⟨p, List.append_cancel_right hp⟩, rfl⟩

/-- A line that begins before the end of another one ends no further than there. -/
theorem Cursor.length_lt_lineEnd (hrest : c.rest = a ++ behind) (ha : LineBegins a) (hne : a ≠ []) :
    behind.length < c.lineEnd.length := by
  obtain ⟨first, last, hsplit⟩ := (List.eq_nil_or_concat a).resolve_left hne
  rw [List.concat_eq_append] at hsplit
  subst hsplit
  have hlast : last.token.isLayout = true := ha last (by simp)
  rw [lineEnd, Cursor.tokens, hrest, List.append_assoc, List.map_append, List.dropWhile_append]
  split
  · simp [hlast]
  · simp
    omega

/-- A line that begins before the end of another one is not passed further than to that end. -/
theorem Cursor.PastLine.exists_suffix (h : PastLine o c c') (hrest : c.rest = a ++ behind)
    (ha : LineBegins a) (hne : a ≠ []) : ∃ a', a' <:+ a ∧ c'.rest = a' ++ behind := by
  have hend := length_lt_lineEnd hrest ha hne
  refine exists_append_of_suffix (hrest ▸ h.rest) ?_
  rcases h.past with ⟨hline, _⟩ | ⟨hline, _⟩
  · rw [hline, List.length_cons, length_tokens] at hend
    exact Nat.le_of_lt_succ hend
  · rw [hline, length_tokens] at hend
    exact Nat.le_of_lt hend

/-- A block of known length is passed. -/
theorem ends_passBlock_of_length {Q : Unit → Cursor → Prop} (hn : blockLength? 0 c.rest = some n) :
    Ends w passBlock o c Q ↔ Q () (c.advanceBy n) := by
  simp only [passBlock, ends_bind, ends_ahead, hn, ends_orFault_some, ends_pass]

/-- A statement is a line, and behind a colon the block under it. -/
theorem ends_passStatement_iff {Q : Unit → Cursor → Prop} :
    Ends w passStatement o c Q ↔
      if (statement false c.rest).endsInColon = true ∧
          (c.advanceBy (statement false c.rest).length).next? = some .indent then
        Ends w passBlock o (c.advanceBy (statement false c.rest).length) Q
      else Q () (c.advanceBy (statement false c.rest).length) := by
  simp only [passStatement, ends_bind, ends_ahead, ends_pass, ends_ite, ends_check, ends_pure,
    beq_iff_eq]
  by_cases hcolon : (statement false c.rest).endsInColon = true
  · simp only [hcolon, if_true, true_and]
  · simp only [hcolon, if_false, false_and, Bool.false_eq_true]

/-- The rest of a line, passed as a statement. -/
theorem statement_append {newline : Lexeme} (hline : ∀ l ∈ line, l.token.isLayout = false)
    (hnewline : newline.token = .newline) (colon : Bool) :
    statement colon (line ++ newline :: behind) =
      ⟨line.length + 1, line.getLast?.elim colon (·.token = .colon)⟩ := by
  induction line generalizing colon with
  | nil =>
    rw [List.nil_append, statement, if_pos hnewline]
    rfl
  | cons l line ih =>
    obtain ⟨hl, hline⟩ := List.forall_mem_cons.1 hline
    have hother : l.token ≠ .newline := fun h => by rw [h] at hl; cases hl
    have hshift := (Bool.or_eq_false_iff.1 hl).2
    rw [List.cons_append, statement, if_neg hother, if_neg (by simp [hshift]), ih hline,
      List.getLast?_cons]
    cases line.getLast? <;> rfl

/-- **A definition that is passed over is passed as a whole.** -/
theorem ends_passStatement_nested (hc : c.Stands o) (hregion : IsNested region)
    (hrest : c.rest = region ++ behind) :
    Ends .any passStatement o c fun _ c' => c'.Stands o ∧ c'.rest <:+ behind := by
  have hpast := hc.advanceBy (statement false c.rest).length
  rw [ends_passStatement_iff]
  cases hregion with
  | @line line newline hline hnewline =>
    have hbehind : (c.advanceBy (statement false c.rest).length).rest = behind := by
      rw [rest_advanceBy, hrest, List.append_assoc, List.singleton_append,
        statement_append hline.inLine hnewline]
      simp
    split
    · rename_i hindent
      exact ((ends_passBlock hpast.stands hindent.2).of_safe trivial).mono
        fun _ c' h => ⟨h.stands, hbehind ▸ h.rest⟩
    · exact ⟨hpast.stands, hbehind ▸ List.suffix_refl _⟩
  | @block line block newline indent dedent hline hcolon hnewline hindent hblock hdedent =>
    have hstatement : statement false c.rest = ⟨line.length + 1, true⟩ := by
      obtain ⟨last, hlast, hcolon⟩ := Option.map_eq_some_iff.1 hcolon
      rw [hrest, List.append_assoc, List.cons_append, statement_append hline.inLine hnewline, hlast]
      simp [hcolon]
    have hbehind : (c.advanceBy (statement false c.rest).length).rest =
        indent :: (block ++ dedent :: behind) := by
      rw [rest_advanceBy, hstatement, hrest]
      simp
    have hlength : blockLength? 0 (c.advanceBy (statement false c.rest).length).rest =
        some (block.length + 2) := by
      rw [hbehind, blockLength?_block hindent hblock hdedent]
    rw [if_pos ⟨by rw [hstatement], next?_eq_some_iff.2 ⟨_, _, hbehind, hindent⟩⟩,
      ends_passBlock_of_length hlength]
    refine ⟨(hpast.stands.advanceBy _).stands, ?_⟩
    rw [rest_advanceBy, hbehind]
    simp

/-- A statement before a definition ends before it, or its block holds it. -/
theorem ends_passStatement_outside (hc : c.Stands o) (hregion : IsNested region)
    (hbefore : LineBegins before) (hne : before ≠ [])
    (hrest : c.rest = before ++ (region ++ behind)) :
    Ends .any passStatement o c fun _ c' => c'.Stands o ∧ Outside before region behind c'.rest := by
  have hpast := hc.pastLine_statement false
  obtain ⟨a, ha, hrest'⟩ := hpast.exists_suffix hrest hbefore hne
  rw [ends_passStatement_iff]
  split
  · rename_i hindent
    cases a with
    | nil =>
      have hopens := hregion.opensScope_tokens hrest'
      rw [tokens_eq_cons hindent.2] at hopens
      cases isLayout_of_opensScope hopens
    | cons l a =>
      obtain ⟨_, _, heq, hl⟩ := next?_eq_some_iff.1 hindent.2
      obtain ⟨rfl, _⟩ := List.cons.inj (hrest'.symm.trans heq)
      obtain ⟨n, hn, hlength⟩ := exists_blockLength?_cons hl (a ++ (region ++ behind))
      rw [← List.cons_append, ← hrest'] at hlength
      rw [ends_passBlock_of_length hlength]
      refine ⟨(hpast.stands.advanceBy _).stands, ?_⟩
      rw [rest_advanceBy, hrest', List.cons_append, List.drop_succ_cons]
      have ha : a <:+ before := (List.suffix_cons l a).trans ha
      rcases blockLength?_cases hregion.balancedFrom hn with hle | hge
      · exact .inl ⟨a.drop n, (List.drop_suffix n a).trans ha, List.drop_append_of_le_length hle⟩
      · right
        rw [List.drop_append, List.drop_append, List.drop_eq_nil_of_le (by omega : a.length ≤ n),
          List.drop_eq_nil_of_le (by omega : region.length ≤ n - a.length)]
        exact List.drop_suffix _ behind
  · exact ⟨hpast.stands, .inl ⟨a, ha, hrest'⟩⟩

/-! ### Where bindings start -/

/-- The binding starts at an identifier among the lexemes. -/
def StartsIn (ls : List Lexeme) (b : Binding) : Prop :=
  ∃ l ∈ ls, l.token.isIdentifier = true ∧ b.span.start = l.extent.start

/-- What starts in a stretch starts in any that has the lexemes of it. -/
theorem StartsIn.mono {ls' : List Lexeme} {b : Binding} (h : StartsIn ls b) (hls : ls ⊆ ls') :
    StartsIn ls' b := by
  obtain ⟨l, hl, h⟩ := h
  exact ⟨l, hls hl, h⟩

/-- Targets that are paired with values start with their statement. -/
theorem starts_bindEach {typeHint : Option Expression} {targets : List String}
    {values : List (Option Expression)} :
    Ends .any (bindEach typeHint start stop targets values) o c fun bound _ =>
      ∀ b ∈ bound, b.span.start = start := by
  induction targets generalizing values c with
  | nil => exact fun _ hb => nomatch hb
  | cons target targets ih =>
    cases values with
    | nil => trivial
    | cons value values =>
      simp only [bindEach, ends_bind, ends_makeSpan, ends_pure]
      exact ih.mono fun bound _ hbound => List.forall_mem_cons.2 ⟨rfl, hbound⟩

/-- The targets of an assignment start with their statement, group by group. -/
theorem starts_bindGroups {value typeHint : Option Expression} {groups : List (List String)} :
    Ends .any (bindGroups value typeHint start stop groups) o c fun bound _ =>
      ∀ b ∈ bound, b.span.start = start := by
  induction groups generalizing c with
  | nil => exact fun _ hb => nomatch hb
  | cons targets groups ih =>
    simp only [bindGroups, ends_bind, ends_pure]
    refine starts_bindEach.mono fun bound _ hbound => ih.mono fun bound' _ hbound' => ?_
    exact List.forall_mem_append.2 ⟨hbound, hbound'⟩

/-- Where targets on the receiver are found, an identifier is next. -/
theorem starts_receiverTargets {receiver : String} :
    Ends .any (receiverTargets receiver) o c fun found _ =>
      found.isSome → ∃ name, c.next? = some (.identifier name) := by
  -- targets are found from the place where the first one is
  refine ends_repeatRounds_any
    (I := fun _ c' => c' = c ∨ ∃ name, c.next? = some (.identifier name)) ?_ (.inl rfl)
  intro targets c' hI
  simp only [receiverRound, ends_bind, ends_peek, ends_peekAt]
  split
  · rename_i name field hname _ _
    have hfirst : ∃ name, c.next? = some (.identifier name) :=
      hI.elim (fun hsame => ⟨name, hsame ▸ hname⟩) id
    simp only [ends_ite, ends_bind, ends_pass, ends_accept, ends_pure, afterRound_stop,
      afterRound_again, ↓reduceIte, Bool.false_eq_true]
    split
    · exact ⟨fun _ => .inr hfirst, fun _ _ => hfirst⟩
    · exact fun hnone => by cases hnone
  · exact fun hnone => by cases hnone

/-- The bindings of targets on the receiver start with their statement. -/
theorem starts_receiverValues {receiver : String} {targets : List String} :
    Ends .any (receiverValues receiver start targets) o c fun found _ =>
      ∀ bound, found = some bound → ∀ b ∈ bound, b.span.start = start := by
  simp only [receiverValues, ends_bind, ends_check, ends_ite, ends_pass, ends_accept, ends_lastStop,
    ends_pure, ↓reduceIte, Bool.false_eq_true]
  have hfound : ∀ {value typeHint : Option Expression} {stop : Nat} {groups : List (List String)}
      {c : Cursor}, Ends .any (bindGroups value typeHint start stop groups) o c fun bound _ =>
        ∀ bound', some bound = some bound' → ∀ b ∈ bound', b.span.start = start :=
    starts_bindGroups.mono fun bound _ h bound' heq => Option.some.inj heq ▸ h
  split
  · exact ends_any fun _ _ => ends_any fun _ _ => hfound
  · exact ⟨fun _ => ends_any fun _ _ => hfound, fun _ _ hnone => by cases hnone⟩

/-- A receiver binding starts at the identifier ahead. -/
theorem starts_receiverBinding {receiver : String} :
    Ends .any (receiverBinding receiver) o c fun found _ => ∀ bound, found = some bound →
      (∃ name, c.next? = some (.identifier name)) ∧
        ∀ b ∈ bound, b.span.start = (c.place o).start := by
  simp only [receiverBinding, ends_bind, ends_peekStart]
  refine starts_receiverTargets.mono fun targets c₁ hnext => ?_
  split
  · exact fun _ hnone => by cases hnone
  · exact starts_receiverValues.mono fun found _ hfound bound heq => ⟨hnext rfl, hfound bound heq⟩

/-- The bindings of one assignment in a line start at its first token, an identifier. -/
theorem starts_lineBinding {receiver : Option String} {s : LineState} :
    Ends .any (lineBinding receiver s) o c fun found _ => ∀ bound, found = some bound →
      (∃ name, c.next? = some (.identifier name)) ∧
        ∀ b ∈ bound, b.span.start = (c.place o).start := by
  unfold lineBinding
  split
  · rw [ends_ite]
    split
    · refine ends_tentative (fun _ _ hnone => by cases hnone) ?_
      exact starts_receiverBinding.mono fun found _ h b hb bound heq =>
        h bound (hb.trans heq)
    · exact fun _ hnone => by cases hnone
  · exact fun _ hnone => by cases hnone

/-- The lexemes ahead on the line. -/
def Cursor.lineRest (c : Cursor) : List Lexeme := c.rest.takeWhile (!·.token.isLayout)

/-- The rest of the line at a later place of it is an end of the line. -/
theorem Cursor.OnLine.lineRest_suffix (h : OnLine o c c') : c'.lineRest <:+ c.lineRest := by
  have hends : (c'.rest.dropWhile (!·.token.isLayout)).map (·.token) =
      (c.rest.dropWhile (!·.token.isLayout)).map (·.token) := by
    have hline := h.lineEnd
    rwa [Cursor.lineEnd, Cursor.lineEnd, Cursor.tokens, Cursor.tokens, List.dropWhile_map,
      List.dropWhile_map] at hline
  have hlength := congrArg List.length hends
  rw [List.length_map, List.length_map] at hlength
  have hsame : c'.rest.dropWhile (!·.token.isLayout) = c.rest.dropWhile (!·.token.isLayout) :=
    (List.suffix_of_suffix_length_le ((List.dropWhile_suffix _).trans h.rest)
      (List.dropWhile_suffix _) (Nat.le_of_eq hlength)).eq_of_length hlength
  obtain ⟨passed, hpassed⟩ := h.rest
  refine ⟨passed, (List.append_left_inj (c.rest.dropWhile (!·.token.isLayout))).1 ?_⟩
  rw [List.append_assoc, lineRest, lineRest, ← hsame, List.takeWhile_append_dropWhile, hpassed,
    hsame, List.takeWhile_append_dropWhile]

/-- The token ahead is on the line, and stands where the place is. -/
theorem Cursor.exists_mem_lineRest (hnext : c.next? = some t) (ht : t.isLayout = false) :
    ∃ l ∈ c.lineRest, l.token = t ∧ c.place o = l.extent := by
  obtain ⟨l, ls, hrest, rfl⟩ := next?_eq_some_iff.1 hnext
  refine ⟨l, ?_, rfl, by rw [place, hrest]⟩
  rw [lineRest, hrest, List.takeWhile_cons_of_pos (by simp [ht])]
  exact List.mem_cons_self

/-- A round over a line adds bindings that start on the line. -/
theorem starts_lineRound {receiver : Option String} {s : LineState}
    (hs : ∀ b ∈ s.found, StartsIn ls b) (hline : c.lineRest ⊆ ls) :
    Ends .any (lineRound receiver s) o c
      (AfterRound (fun s' _ => ∀ b ∈ s'.found, StartsIn ls b) fun bound _ =>
        ∀ b ∈ bound, StartsIn ls b) := by
  refine ends_lineRound.2 ⟨fun _ => hs, fun _ => hs, fun _ _ _ => ?_⟩
  refine starts_lineBinding.mono fun found c₁ h => ⟨fun bound hbound => ?_, fun _ => hs⟩
  obtain ⟨⟨name, hnext⟩, hstarts⟩ := h bound hbound
  obtain ⟨l, hl, hname, hplace⟩ := exists_mem_lineRest (o := o) hnext rfl
  refine List.forall_mem_append.2 ⟨hs, fun b hb => ⟨l, hline hl, by rw [hname]; rfl, ?_⟩⟩
  rw [hstarts b hb, hplace]

/-- **The bindings of a line start on it.** -/
theorem starts_lineBindings {receiver : Option String} (hc : c.Stands o) :
    Ends .any (lineBindings receiver) o c fun bound _ => ∀ b ∈ bound, StartsIn c.lineRest b := by
  refine ends_repeatRounds_any
    (I := fun s c' => OnLine o c c' ∧ ∀ b ∈ s.found, StartsIn c.lineRest b) ?_
    ⟨OnLine.refl hc, fun _ hb => nomatch hb⟩
  rintro s c' ⟨honline, hfound⟩
  refine ((onLine_lineRound honline.stands).of_safe trivial).and
    (starts_lineRound hfound honline.lineRest_suffix.subset) |>.mono fun r c'' hr => ?_
  cases r with
  | again s' => exact ⟨honline.trans hr.1.1, hr.2⟩
  | stop bound => exact hr.2

/-! ### Function bodies -/

/-- A place before the region, or behind it, in an end of what stands before is so in all of it. -/
theorem Outside.of_suffix (h : Outside a region behind ls) (ha : a <:+ before) :
    Outside before region behind ls :=
  h.imp_left fun ⟨a', ha', hls⟩ => ⟨a', ha'.trans ha, hls⟩

/-- A line that begins before the end of another one does not go beyond that end. -/
theorem Cursor.lineRest_subset (hrest : c.rest = a ++ behind) (ha : LineBegins a) (hne : a ≠ []) :
    c.lineRest ⊆ a := by
  have hline : c.lineRest <+: a ++ behind := hrest ▸ List.takeWhile_prefix _
  rcases List.prefix_or_prefix_of_prefix hline (List.prefix_append a behind) with hle | hge
  · exact hle.subset
  · have hlast := ha _ (List.getLast?_eq_some_getLast hne)
    have hinside := List.all_eq_true.1 List.all_takeWhile _ (hge.subset (List.getLast_mem hne))
    rw [hlast] at hinside
    cases hinside

section Body

variable (hregion : IsNested region) (hbefore : LineBegins before)
  (h : Outside before region behind c.rest)

include hregion h

/-- A layout token outside of the region is passed without entering it. -/
theorem Outside.advance (hnext : c.next? = some t) (ht : t.isLayout = true) :
    Outside before region behind c.advance.rest := by
  rcases h with ⟨a, ha, hrest⟩ | hsuffix
  · cases a with
    | nil =>
      have hopens := hregion.opensScope_tokens hrest
      rw [tokens_eq_cons hnext] at hopens
      rw [isLayout_of_opensScope hopens] at ht
      cases ht
    | cons l a =>
      refine .inl ⟨a, (List.suffix_cons l a).trans ha, ?_⟩
      rw [rest_advance, hrest]
      rfl
  · rw [rest_advance]
    exact .inr ((List.drop_suffix 1 c.rest).trans hsuffix)

include hbefore

/-- Where no definition begins, a line ends before the region or stands behind it. -/
theorem Outside.cases_of_line (hopens : opensScope c.tokens = false) :
    (∃ a, a <:+ before ∧ a ≠ [] ∧ LineBegins a ∧ c.rest = a ++ (region ++ behind)) ∨
      c.rest <:+ behind := by
  rcases h with ⟨a, ha, hrest⟩ | hsuffix
  · refine .inl ⟨a, ha, ?_, hbefore.of_suffix ha, hrest⟩
    rintro rfl
    rw [hregion.opensScope_tokens hrest] at hopens
    cases hopens
  · exact .inr hsuffix

/-- A line that begins outside of the region ends outside of it. -/
theorem Outside.pastLine (hopens : opensScope c.tokens = false) (hpast : PastLine o c c') :
    Outside before region behind c'.rest := by
  rcases h.cases_of_line hregion hbefore hopens with ⟨a, ha, hne, hbegins, hrest⟩ | hsuffix
  · obtain ⟨a', ha', hrest'⟩ := hpast.exists_suffix hrest hbegins hne
    exact .inl ⟨a', ha'.trans ha, hrest'⟩
  · exact .inr (hpast.rest.trans hsuffix)

/-- A line that begins outside of the region is made of lexemes from outside. -/
theorem Outside.lineRest_subset (hopens : opensScope c.tokens = false) :
    c.lineRest ⊆ before ++ behind := by
  rcases h.cases_of_line hregion hbefore hopens with ⟨a, ha, hne, hbegins, hrest⟩ | hsuffix
  · exact fun l hl => List.mem_append_left behind
      (ha.subset (Cursor.lineRest_subset hrest hbegins hne hl))
  · exact fun l hl => List.mem_append_right before
      (hsuffix.subset ((List.takeWhile_prefix _).subset hl))

/-- A statement that begins outside of the region ends outside of it. -/
theorem Outside.passStatement (hc : c.Stands o) : Ends .any passStatement o c fun _ c' =>
    c'.Stands o ∧ Outside before region behind c'.rest := by
  rcases h with ⟨a, ha, hrest⟩ | hsuffix
  · by_cases hne : a = []
    · subst hne
      exact (ends_passStatement_nested hc hregion hrest).mono fun _ c' h => ⟨h.1, .inr h.2⟩
    · exact (ends_passStatement_outside hc hregion (hbefore.of_suffix ha) hne hrest).mono
        fun _ c' h => ⟨h.1, h.2.of_suffix ha⟩
  · exact ((ends_passStatement hc).of_safe trivial).mono fun _ c' ⟨c₁, hpast, h⟩ =>
      ⟨h.stands, .inr ((h.rest.trans hpast.rest).trans hsuffix)⟩

/-- A docstring that begins outside of the region ends outside of it. -/
theorem Outside.docstring (hc : c.Stands o) : Ends .any docstring o c fun _ c' =>
    c'.Stands o ∧ Outside before region behind c'.rest := by
  refine ((ends_docstring hc).of_safe trivial).mono fun doc c' h' => ?_
  rcases h' with rfl | ⟨hpast, text, hnext⟩
  · exact ⟨hc, h⟩
  · have hopens : opensScope c.tokens = false := by rw [tokens_eq_cons hnext]; rfl
    exact ⟨hpast.stands, h.pastLine hregion hbefore hopens hpast⟩

/-- One step through a function body goes from a place outside of the region to another one. -/
theorem starts_bodyRound {receiver : Option String} {s : BodyState} (hc : c.Stands o)
    (hs : ∀ b ∈ s.found, StartsIn (before ++ behind) b) :
    Ends .any (bodyRound receiver s) o c (AfterRound
      (fun s' c' => c'.Stands o ∧ Outside before region behind c'.rest ∧
        ∀ b ∈ s'.found, StartsIn (before ++ behind) b)
      fun bound _ => ∀ b ∈ bound, StartsIn (before ++ behind) b) := by
  refine ends_bodyRound.2 ⟨fun _ => hs, fun hindent => ?_, fun hdedent =>
    ⟨fun _ => trivial, fun _ => hs, fun _ _ => ?_⟩, fun t hnext ht => ⟨fun _ => ?_,
      fun hopens => ?_⟩⟩
  · exact ⟨hc.advance.stands, h.advance hregion hindent rfl, hs⟩
  · exact ⟨hc.advance.stands, h.advance hregion hdedent rfl, hs⟩
  · exact (h.passStatement hregion hbefore hc).mono fun _ c' h' => ⟨h'.1, h'.2, hs⟩
  · rw [← opensScope_tokens] at hopens
    refine (((ends_lineBindings hc).of_safe trivial).and (starts_lineBindings hc)).mono ?_
    rintro bound c' ⟨hpast, hbound⟩
    refine ⟨hpast.stands, h.pastLine hregion hbefore hopens hpast, ?_⟩
    exact List.forall_mem_append.2 ⟨hs, fun b hb =>
      (hbound b hb).mono (h.lineRest_subset hregion hbefore hopens)⟩

/-- **The bindings of a function body start outside of the definitions in it.** -/
theorem starts_bodyBindings {receiver : Option String} (hc : c.Stands o) :
    Ends .any (bodyBindings receiver) o c fun bound _ =>
      ∀ b ∈ bound, StartsIn (before ++ behind) b := by
  refine ends_repeatRounds_any (I := fun s c' => c'.Stands o ∧
    Outside before region behind c'.rest ∧ ∀ b ∈ s.found, StartsIn (before ++ behind) b) ?_
    ⟨hc, h, fun _ hb => nomatch hb⟩
  rintro s c' ⟨hc, h, hs⟩
  exact starts_bodyRound hregion hbefore h hc hs

end Body

/-- From behind the colon of a function with an indented block. -/
theorem starts_functionBody {receiver : Option String} {newline indent : Lexeme}
    (hregion : IsNested region) (hbefore : LineBegins before) (hc : c.Stands o)
    (hrest : c.rest = newline :: indent :: (before ++ (region ++ behind)))
    (hnewline : newline.token = .newline) :
    Ends .any (functionBody receiver) o c fun body _ =>
      ∀ b ∈ body.2, StartsIn (before ++ behind) b := by
  have hnext : c.next? = some .newline := next?_eq_some_iff.2 ⟨_, _, hrest, hnewline⟩
  refine (ends_functionBody_block hnext).2 ⟨fun _ => ?_, fun _ => trivial⟩
  have hpass := hc.advance.trans hc.advance.stands.advance
  have h : Outside before region behind c.advance.advance.rest := by
    refine .inl ⟨before, List.suffix_refl _, ?_⟩
    rw [rest_advance, rest_advance, hrest]
    rfl
  refine (h.docstring hregion hbefore hpass.stands).mono ?_
  rintro doc c₁ ⟨hc₁, h₁⟩
  exact starts_bodyBindings hregion hbefore h₁ hc₁

/-- The binding starts before all of the lexemes or behind them. -/
def Binding.Apart (b : Binding) (ls : List Lexeme) : Prop :=
  (∀ l ∈ ls, b.span.start < l.extent.start) ∨ ∀ l ∈ ls, l.extent.stop ≤ b.span.start

/-- The bindings start outside of every definition that is nested in the body. -/
def Inert (body : List Lexeme) (bindings : List Binding) : Prop :=
  ∀ before region after, body = before ++ (region ++ after) → LineBegins before → IsNested region →
    ∀ b ∈ bindings, b.Apart region

/-- What starts at an identifier outside of the region starts apart from it. -/
theorem StartsIn.apart {b : Binding} (h : StartsIn (before ++ behind) b)
    (hordered : (before ++ (region ++ behind)).Pairwise (·.extent.stop ≤ ·.extent.start))
    (hwidth : ∀ l ∈ before, l.token.isIdentifier = true → l.extent.start < l.extent.stop) :
    b.Apart region := by
  obtain ⟨_, hbehind, hbefore⟩ := List.pairwise_append.1 hordered
  obtain ⟨l, hl, hidentifier, hstart⟩ := h
  rcases List.mem_append.1 hl with hl | hl
  · refine .inl fun r hr => ?_
    rw [hstart]
    exact Nat.lt_of_lt_of_le (hwidth l hl hidentifier)
      (hbefore l hl r (List.mem_append_left behind hr))
  · refine .inr fun r hr => ?_
    rw [hstart]
    exact (List.pairwise_append.1 hbehind).2.2 r hr l hl

/-- An identifier has a stretch of the source. -/
theorem start_lt_stop_of_isIdentifier {text : List Char} {tokens : List Lexeme}
    (h : tokenizeChars text = .ok tokens) (hl : l ∈ tokens)
    (hidentifier : l.token.isIdentifier = true) : l.extent.start < l.extent.stop := by
  obtain ⟨_, hle, hstart, hstop⟩ := (placed_of_tokenizeChars h).of_mem hl
  obtain ⟨cs, hcs⟩ := Text.exists_slice? hstart hstop hle
  have hspelled := spelled_of_tokenizeChars h hl cs hcs
  cases ht : l.token with
  | identifier name =>
    rw [ht] at hspelled
    obtain ⟨_, first, rest, rfl, _⟩ := hspelled
    exact Text.lt_of_slice?_eq_some hcs (List.cons_ne_nil first rest)
  | _ => rw [ht] at hidentifier; cases hidentifier

/-! ### Definitions -/

/-- How a definition with an indented block is read that begins at the place `c`. -/
structure ReadsBlocks (o : Origin) (c : Cursor) : Prop where
  /-- A class that is read has a header, and if a block is behind it, it ends just behind that
  block. -/
  class_block : ∀ depth ds k c', classWithin depth ds o c = .done k c' →
    ∃ header c₁, classHeader o c = .done header c₁ ∧
      (c₁.next? = some .newline → ∃ body, HasBlock c₁ body c')
  /-- So it is with a function, and its bindings start outside of the definitions in the block. -/
  function_block : ∀ ds f c', functionDefinition ds o c = .done f c' →
    ∃ header c₁, functionHeader o c = .done header c₁ ∧
      (c₁.next? = some .newline → ∃ body, HasBlock c₁ body c' ∧ Inert body f.receiverBindings)
  /-- If the block of a function is entered the function is read, whatever is in the block. -/
  function_entered : ∀ ds header c₁, functionHeader o c = .done header c₁ →
    c₁.next? = some .newline → c₁.advance.next? = some .indent →
      ∃ f c', functionDefinition ds o c = .done f c'

/-- In front of a function that has the name, a function begins. -/
theorem startsFunction_of_namesFunction {name : String} (h : c.NamesFunction name) :
    c.startsFunction = true := by
  rcases h with ⟨hdef, _⟩ | ⟨hasync, hdef, _⟩
  · rw [Cursor.startsFunction, hdef]
    rfl
  · rw [Cursor.startsFunction, hasync, hdef]
    rfl

section Definitions

variable {text : List Char} {module : String} {tokens : List Lexeme}
  (htokens : tokenizeChars text = .ok tokens) (h : Follows ⟨text, module⟩ (.first tokens) c)

include htokens h

/-- A definition begins on a line. -/
theorem exists_inside (hstart : c.StartsDefinition) : ∃ n, Inside (Comes n) c.tokens := by
  obtain ⟨ls, hls, htree⟩ := exists_layoutTree htokens
  obtain ⟨passed, hpassed⟩ := h.rest
  have hfirst : Amid (Comes 0) (passed.map (·.token) ++ c.tokens) := by
    refine .inl (behind_of ⟨ls, hls, ?_⟩)
    rw [Cursor.tokens, ← List.map_append, hpassed]
    exact htree
  obtain ⟨n, hamid⟩ := exists_amid hfirst
  exact ⟨n, hamid.inside_of_definition between_comes hstart⟩

/-- A class that is read to its end is read to the end of its block. -/
theorem ends_classWithin_block (depth : Nat) (ds : List Decorator) :
    Ends .any (classWithin depth ds) ⟨text, module⟩ c fun _ c' =>
      ∃ header c₁, classHeader ⟨text, module⟩ c = .done header c₁ ∧
        (c₁.next? = some .newline → ∃ body, HasBlock c₁ body c') := by
  cases depth with
  | zero => trivial
  | succ depth =>
    simp only [classWithin, classOver_eq, ends_bind, ends_peekStart, ends_spanFrom, ends_pure]
    refine ((ends_classHeader h.stands).of_safe trivial).found.mono ?_
    rintro header c₁ ⟨hheader, hclass, _, c₀, h₀, hcolon, hc₁⟩
    have h₁ : OnLine ⟨text, module⟩ c c₁ :=
      hc₁ ▸ h₀.onLine.trans (h₀.stands.onLine_advance hcolon rfl)
    by_cases hnewline : c₁.next? = some .newline
    · obtain ⟨n, hin⟩ := exists_inside htokens h (.inl hclass)
      refine (ends_classSuite (keepsTree_classWithin depth) h₁.stands hnewline between_comes
        (h₁.inside hin)).mono ?_
      rintro body c₂ ⟨hfollows, _, us, hsuite, hwithin⟩
      obtain ⟨inner, hblock⟩ := exists_hasBlock hfollows hsuite hwithin
      exact ⟨header, c₁, hheader, fun _ => ⟨inner, hblock.rest_eq, hblock.balanced⟩⟩
    · exact ends_any fun _ _ => ⟨header, c₁, hheader, fun hnext => absurd hnext hnewline⟩

/-- The bindings of a function body start outside of the definitions in its block. -/
theorem inert_of_functionBody {receiver : Option String} {body : Option String × List Binding}
    {inner : List Lexeme} (hbody : functionBody receiver ⟨text, module⟩ c = .done body c')
    (hblock : HasBlock c inner c') : Inert inner body.2 := by
  rintro before region after rfl hbefore hregion b hb
  obtain ⟨newline, indent, dedent, hrest, hnewline, _, _⟩ := hblock.rest_eq
  have hrest : c.rest =
      newline :: indent :: (before ++ (region ++ (after ++ dedent :: c'.rest))) := by
    rw [hrest]
    simp only [List.append_assoc]
  have hstarts := (ends_iff_of_done hbody).1
    (starts_functionBody hregion hbefore h.stands hrest hnewline)
  refine (hstarts b hb).apart ?_ fun l hl => ?_
  · have hordered := h.stands.2.pairwise
    rw [hrest] at hordered
    exact hordered.tail.tail
  · refine start_lt_stop_of_isIdentifier htokens (h.rest.subset ?_)
    rw [hrest]
    exact List.mem_cons_of_mem _ (List.mem_cons_of_mem _ (List.mem_append_left _ hl))

/-- A function that is read to its end is read to the end of its block. -/
theorem ends_functionDefinition_block (ds : List Decorator) :
    Ends .any (functionDefinition ds) ⟨text, module⟩ c fun f c' =>
      ∃ header c₁, functionHeader ⟨text, module⟩ c = .done header c₁ ∧
        (c₁.next? = some .newline →
          ∃ body, HasBlock c₁ body c' ∧ Inert body f.receiverBindings) := by
  simp only [functionDefinition_eq, ends_bind, ends_peekStart, ends_spanFrom, ends_pure]
  refine ((ends_functionHeader h.stands).of_safe trivial).found.mono ?_
  rintro header c₁ ⟨hheader, hnames, h₁, _, _⟩
  by_cases hnewline : c₁.next? = some .newline
  · obtain ⟨n, hin⟩ := exists_inside htokens h (.inr (startsFunction_of_namesFunction hnames))
    refine (((settles_functionBody c₁ h₁.stands (Nat.lt_succ_self _)).of_safe trivial).and
      (ends_functionSuite h₁.stands hnewline between_comes.unopened (h₁.inside hin))).found.mono ?_
    rintro body c₂ ⟨hbody, hfollows, _, _, us, hsuite, hwithin⟩
    obtain ⟨inner, hblock⟩ := exists_hasBlock hfollows hsuite hwithin
    have hinert := inert_of_functionBody htokens (h.trans h₁.toFollows) hbody hblock
    exact ⟨header, c₁, hheader, fun _ => ⟨inner, ⟨hblock.rest_eq, hblock.balanced⟩, hinert⟩⟩
  · exact ends_any fun _ _ => ⟨header, c₁, hheader, fun hnext => absurd hnext hnewline⟩

end Definitions

/-- **Definitions with an indented block are read to the end of that block, and function
bodies are inert.**  At every place of a source that its reading can reach, a class or a
function that is read ends just behind the `dedent` of its block; a function is read once its
block is entered; and no binding that is recorded for it starts in a definition inside of the
block. -/
theorem readsBlocks {source module : String} {tokens : List Lexeme}
    (h : tokenize source = .ok tokens)
    (hc : Follows ⟨source.toList, module⟩ (.first tokens) c) :
    ReadsBlocks ⟨source.toList, module⟩ c where
  class_block depth ds _ _ hclass :=
    (ends_iff_of_done hclass).1 (ends_classWithin_block h hc depth ds)
  function_block ds _ _ hfunction :=
    (ends_iff_of_done hfunction).1 (ends_functionDefinition_block h hc ds)
  function_entered _ _ _ hheader _ hindent :=
    exists_functionDefinition _ hc.stands hheader fun _ => hindent

/-- A method with a function in it. -/
def functionInMethod : String :=
  "class A:\n def m(self):\n  self.x = 1\n  def g():\n   self.y = 2\n  self.z = 3\n"

/-- The method is read from behind the header of the class and the `indent`. -/
theorem readsBlocks_functionInMethod : ∃ tokens c, tokenize functionInMethod = .ok tokens ∧
    Follows ⟨functionInMethod.toList, ""⟩ (.first tokens) c ∧
    (∃ f c', functionDefinition [] ⟨functionInMethod.toList, ""⟩ c = .done f c' ∧
      f.receiverBindings.map (·.target) = ["x", "z"]) ∧
    ReadsBlocks ⟨functionInMethod.toList, ""⟩ c := by
  obtain ⟨tokens, htokens, hmethod⟩ := exists_tokens functionInMethod (fun ls =>
    match functionDefinition [] ⟨functionInMethod.toList, ""⟩ ((Cursor.first ls).advanceBy 5) with
    | .done f _ => f.receiverBindings.map (·.target) == ["x", "z"]
    | _ => false) (by decide +kernel)
  split at hmethod
  · rename_i f c' hfunction
    have hfollows : Follows ⟨functionInMethod.toList, ""⟩ (.first tokens)
        ((Cursor.first tokens).advanceBy 5) := (stands_first "" htokens).advanceBy 5
    exact ⟨tokens, _, htokens, hfollows, ⟨f, c', hfunction, by simpa using hmethod⟩,
      readsBlocks htokens hfollows⟩
  · cases hmethod

end Outline
end Lineage
