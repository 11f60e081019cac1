/-
# The layout tree of a source

The tokens of a source are those of a tree: logical lines, each with the block of lines
under it (`exists_layoutTree`), and of one tree only (`layoutTree_unique`).  A place in the
tree is known by the tokens ahead: the rest of a line (`Inside`), the block under a line
(`Behind`), and the ends of the blocks that are open (`Within`).  The layout is read
lexeme by lexeme, and one lexeme is put in front of what comes behind it (`comes_step`).
-/

import Lineage.Proofs.Source.Placement

namespace Lineage
namespace Source

/-- A logical line and the block of lines under it, which may be empty. -/
inductive LogicalLine where
  | mk (line : List Token) (block : List LogicalLine)

namespace LogicalLine

/-- The tokens of the line itself. -/
def line : LogicalLine → List Token
  | ⟨line, _⟩ => line

/-- The lines of the block under the line. -/
def block : LogicalLine → List LogicalLine
  | ⟨_, block⟩ => block

mutual

/-- The tokens of a line and its block. -/
def tokens : LogicalLine → List Token
  | ⟨line, block⟩ =>
    line ++ .newline :: (if block.isEmpty then [] else .indent :: (tokensAll block ++ [.dedent]))

/-- The tokens of lines and their blocks. -/
def tokensAll : List LogicalLine → List Token
  | [] => []
  | l :: ls => l.tokens ++ tokensAll ls

end

/-- The tokens of a block with its borders. -/
def blockTokens (block : List LogicalLine) : List Token :=
  if block.isEmpty then [] else .indent :: (tokensAll block ++ [.dedent])

mutual

/-- The line and all lines under it have the property. -/
def Every (P : List Token → Prop) : LogicalLine → Prop
  | ⟨line, block⟩ => P line ∧ EveryAll P block

/-- All lines and those under them have the property. -/
def EveryAll (P : List Token → Prop) : List LogicalLine → Prop
  | [] => True
  | l :: ls => l.Every P ∧ EveryAll P ls

end

end LogicalLine

open LogicalLine

variable {P : List Token → Prop} {l : LogicalLine} {ls block : List LogicalLine}
  {ts rest : List Token} {n : Nat}

/-- Without lines there are no tokens. -/
@[simp] theorem tokensAll_nil : tokensAll [] = [] := by rw [tokensAll]

/-- The tokens of a first line stand in front of those of the others. -/
@[simp] theorem tokensAll_cons : tokensAll (l :: ls) = l.tokens ++ tokensAll ls := by rw [tokensAll]

/-- The tokens of a line, its `newline`, and the block under it. -/
theorem tokens_eq : l.tokens = l.line ++ .newline :: blockTokens l.block := by
  cases l
  rw [LogicalLine.tokens]
  rfl

/-- An empty block has no borders. -/
@[simp] theorem blockTokens_nil : blockTokens [] = [] := rfl

/-- A block stands between its `indent` and its `dedent`. -/
@[simp] theorem blockTokens_cons :
    blockTokens (l :: ls) = .indent :: (tokensAll (l :: ls) ++ [.dedent]) := rfl

/-- Where there are no lines, every line has the property. -/
@[simp] theorem everyAll_nil : EveryAll P [] ↔ True := by rw [EveryAll]

/-- All lines have the property if the first one and the others do. -/
@[simp] theorem everyAll_cons : EveryAll P (l :: ls) ↔ l.Every P ∧ EveryAll P ls := by rw [EveryAll]

/-- All lines of two parts have the property if those of either part do. -/
theorem everyAll_append {ls' : List LogicalLine} :
    EveryAll P (ls ++ ls') ↔ EveryAll P ls ∧ EveryAll P ls' := by
  induction ls with
  | nil => simp
  | cons l ls ih => rw [List.cons_append, everyAll_cons, everyAll_cons, ih, and_assoc]

/-- A line and those under it have the property if it has and all lines of its block do. -/
theorem every_iff : l.Every P ↔ P l.line ∧ EveryAll P l.block := by
  cases l
  rw [Every]
  rfl

mutual

/-- Whether a line and all lines under it have a property can be decided. -/
instance decidableEvery [DecidablePred P] : (l : LogicalLine) → Decidable (l.Every P)
  | ⟨line, block⟩ =>
    have := decidableEveryAll block
    decidable_of_iff (P line ∧ EveryAll P block) (by rw [Every])

/-- Whether all of some lines have a property can be decided. -/
instance decidableEveryAll [DecidablePred P] : (ls : List LogicalLine) → Decidable (EveryAll P ls)
  | [] => isTrue (by simp)
  | l :: ls =>
    have := decidableEvery l
    have := decidableEveryAll ls
    decidable_of_iff (l.Every P ∧ EveryAll P ls) everyAll_cons.symm

end

/-- A line has tokens, and no layout among them. -/
def IsLine (line : List Token) : Prop := line ≠ [] ∧ ∀ t ∈ line, t.isLayout = false

/-- Whether tokens are a line can be decided. -/
instance : DecidablePred IsLine := fun _ => inferInstanceAs (Decidable (_ ∧ _))

/-- The tokens are those of the lines. -/
structure IsLayoutTree (ls : List LogicalLine) (ts : List Token) : Prop where
  lines : EveryAll IsLine ls
  tokens : ts = tokensAll ls

/-! ### Places in the tree -/

/-- Tokens inside `n` blocks, with lines before the end of each; `ts` are behind the last. -/
def Within (ts : List Token) : Nat → List Token → Prop
  | 0, us => us = ts
  | n + 1, us => ∃ block rest, us = tokensAll block ++ .dedent :: rest ∧ EveryAll IsLine block ∧
      Within ts n rest

/-- Tokens behind a line: the block under it, and then what `W` says. -/
def Behind (W : List Token → Prop) (ts : List Token) : Prop :=
  ∃ block rest, ts = blockTokens block ++ rest ∧ EveryAll IsLine block ∧ W rest

/-- Tokens inside a line: its rest, and then what is behind it. -/
def Inside (W : List Token → Prop) (ts : List Token) : Prop :=
  ∃ line rest, ts = line ++ .newline :: rest ∧ (∀ t ∈ line, t.isLayout = false) ∧ Behind W rest

variable {W : List Token → Prop} {us : List Token} {t : Token}

/-- A line may have no block under it. -/
theorem behind_of (h : W ts) : Behind W ts := ⟨[], ts, rfl, by simp, h⟩

/-- Behind a line stands the block under it, the end of a block, or a line. -/
theorem Behind.cases (h : Behind (Within ts (n + 1)) us) :
    (∃ rest, us = .indent :: rest ∧ Within ts (n + 2) rest) ∨
      (∃ rest, us = .dedent :: rest ∧ Within ts n rest) ∨
        ∃ t rest, us = t :: rest ∧ t.isLayout = false ∧ Inside (Within ts (n + 1)) us := by
  obtain ⟨block, rest, rfl, hblock, more, rest, rfl, hmore, hwithin⟩ := h
  cases block with
  | cons l block =>
    refine .inl ⟨_, rfl, l :: block, _, by simp, hblock, more, rest, rfl, hmore, hwithin⟩
  | nil =>
    cases more with
    | nil => exact .inr (.inl ⟨rest, rfl, hwithin⟩)
    | cons l more =>
      obtain ⟨hl, hmore⟩ := everyAll_cons.1 hmore
      obtain ⟨⟨hne, hline⟩, hunder⟩ := every_iff.1 hl
      obtain ⟨t, line, heq⟩ := List.exists_cons_of_ne_nil hne
      have htokens : blockTokens [] ++ (tokensAll (l :: more) ++ .dedent :: rest) =
          l.line ++ .newline :: (blockTokens l.block ++ (tokensAll more ++ .dedent :: rest)) := by
        simp [tokens_eq]
      refine .inr (.inr ⟨t, _, by rw [htokens, heq]; rfl, hline t (heq ▸ List.mem_cons_self), ?_⟩)
      exact ⟨l.line, _, htokens, hline, l.block, _, rfl, hunder, more, rest, rfl, hmore, hwithin⟩

/-- Inside a line, its `newline` is the first layout ahead. -/
theorem inside_iff : Inside W us ↔
    ∃ rest, us.dropWhile (!·.isLayout) = .newline :: rest ∧ Behind W rest := by
  constructor
  · rintro ⟨line, rest, rfl, hline, hbehind⟩
    refine ⟨rest, ?_, hbehind⟩
    rw [List.dropWhile_append_of_pos fun t ht => by simp [hline t ht]]
    rfl
  · rintro ⟨rest, hrest, hbehind⟩
    refine ⟨us.takeWhile (!·.isLayout), rest, ?_, fun t ht => ?_, hbehind⟩
    · rw [← hrest, List.takeWhile_append_dropWhile]
    · simpa using List.all_eq_true.1 List.all_takeWhile t ht

/-- A token inside a line is passed. -/
theorem Inside.tail (h : Inside W (t :: us)) :
    t = .newline ∧ Behind W us ∨ t.isLayout = false ∧ Inside W us := by
  obtain ⟨line, rest, heq, hline, hbehind⟩ := h
  cases line with
  | nil =>
    obtain ⟨rfl, rfl⟩ := List.cons.inj heq
    exact .inl ⟨rfl, hbehind⟩
  | cons u line =>
    obtain ⟨rfl, rfl⟩ := List.cons.inj heq
    exact .inr ⟨hline _ List.mem_cons_self, line, rest, rfl,
      fun v hv => hline v (List.mem_cons_of_mem _ hv), hbehind⟩

/-- A line begins in front of what is behind it. -/
theorem inside_of_line (hl : l.Every IsLine) (h : W ts) : Inside W (l.tokens ++ ts) := by
  obtain ⟨⟨_, hline⟩, hblock⟩ := every_iff.1 hl
  refine ⟨l.line, blockTokens l.block ++ ts, ?_, hline, l.block, ts, rfl, hblock, h⟩
  rw [tokens_eq, List.append_assoc, List.cons_append]

/-! ### Existence -/

/-- Tokens inside `n` blocks, up to the end of the source. -/
def Comes (n : Nat) (ts : List Token) : Prop :=
  ∃ ls, EveryAll IsLine ls ∧ Within (tokensAll ls) n ts

/-- One more line in front of what comes. -/
theorem Comes.cons (h : Comes n ts) (hl : l.Every IsLine) : Comes n (l.tokens ++ ts) := by
  obtain ⟨ls, hls, hwithin⟩ := h
  cases n with
  | zero => exact ⟨l :: ls, everyAll_cons.2 ⟨hl, hls⟩, by rw [hwithin, Within, tokensAll_cons]⟩
  | succ n =>
    obtain ⟨block, rest, rfl, hblock, hwithin⟩ := hwithin
    exact ⟨ls, hls, l :: block, rest, by rw [tokensAll_cons, List.append_assoc],
      everyAll_cons.2 ⟨hl, hblock⟩, hwithin⟩

/-- The end of a block in front of what comes is one block further in. -/
theorem Comes.dedent (h : Comes n ts) : Comes (n + 1) (.dedent :: ts) := by
  obtain ⟨ls, hls, hwithin⟩ := h
  exact ⟨ls, hls, [], ts, rfl, by simp, hwithin⟩

/-- Blocks are closed. -/
theorem Comes.dedents {m : Nat} (h : Comes m ts) (k : Nat) :
    Comes (m + k) (List.replicate k .dedent ++ ts) := by
  induction k with
  | zero => exact h
  | succ k ih => exact ih.dedent

/-- A token in front of the rest of its line: a line, with the block under it. -/
theorem Inside.exists_line (h : Inside W ts) (ht : t.isLayout = false) :
    ∃ (l : LogicalLine) (rest : List Token), t :: ts = l.tokens ++ rest ∧ l.Every IsLine ∧
      W rest := by
  obtain ⟨line, _, rfl, hline, block, rest, rfl, hblock, hW⟩ := h
  refine ⟨⟨t :: line, block⟩, rest, ?_, every_iff.2 ⟨⟨by simp [LogicalLine.line], ?_⟩, hblock⟩, hW⟩
  · simp [tokens_eq, LogicalLine.line, LogicalLine.block]
  · simpa [LogicalLine.line, ht] using hline

/-- A token in front of the rest of its line comes in the same blocks. -/
theorem Inside.comes (h : Inside (Comes n) ts) (ht : t.isLayout = false) : Comes n (t :: ts) := by
  obtain ⟨l, rest, heq, hl, hcomes⟩ := h.exists_line ht
  exact heq ▸ hcomes.cons hl

/-- A block is opened in front of a line. -/
theorem Inside.behind (h : Inside (Comes (n + 1)) ts) (ht : t.isLayout = false) :
    Behind (Comes n) (.indent :: t :: ts) := by
  obtain ⟨l, rest, heq, hl, ls, hls, block, rest', rfl, hblock, hwithin⟩ := h.exists_line ht
  refine ⟨l :: block, rest', ?_, everyAll_cons.2 ⟨hl, hblock⟩, ls, hls, hwithin⟩
  rw [heq]
  simp

/-- What comes when the layout is in that state. -/
def Layout.Comes (s : Layout) (ts : List Token) : Prop :=
  match s.columns with
  | [] => s.atLineStart = true → Source.Comes 0 ts
  | _ :: outer =>
    if s.atLineStart then Behind (Source.Comes outer.length) ts
    else Inside (Source.Comes outer.length) ts

/-- What is added at the end of a source comes. -/
theorem comes_finish (s : Layout) (stop : Nat) : s.Comes ((s.finish stop).map (·.token)) := by
  have hdedents : ∀ k, Comes k (List.replicate k .dedent) := fun k => by
    have hnil : Comes 0 [] := ⟨[], by simp, by simp [Within]⟩
    simpa using hnil.dedents k
  unfold Layout.Comes Layout.finish
  cases hcolumns : s.columns with
  | nil =>
    intro hstart
    simpa [hstart] using hdedents 0
  | cons top outer =>
    cases s.atLineStart with
    | true => exact behind_of (by simpa using hdedents outer.length)
    | false => exact ⟨[], _, by simp, by simp, behind_of (hdedents outer.length)⟩

/-- A line is opened in one of the blocks that are open, or in a new one. -/
theorem comes_openLine? {s : Layout} {kept : List Nat} {column : Nat} {shifts : List Token}
    {t : Token} (hstart : s.atLineStart = true)
    (h : Layout.openLine? s.columns column = some (kept, shifts)) (ht : t.isLayout = false) :
    ∃ top outer, kept = top :: outer ∧
      ∀ ts, Inside (Comes outer.length) ts → s.Comes (shifts ++ t :: ts) := by
  unfold Layout.Comes
  unfold Layout.openLine? at h
  cases hcolumns : s.columns with
  | nil =>
    rw [hcolumns] at h
    obtain ⟨rfl, rfl⟩ := Prod.mk.inj (Option.some.inj h)
    exact ⟨column, [], rfl, fun _ hinside _ => hinside.comes ht⟩
  | cons top outer =>
    rw [hcolumns] at h
    dsimp only at h ⊢
    simp only [hstart, if_true]
    split at h
    · obtain ⟨rfl, rfl⟩ := Prod.mk.inj (Option.some.inj h)
      exact ⟨column, top :: outer, rfl, fun _ hinside => hinside.behind ht⟩
    · split at h
      · rename_i hhead
        obtain ⟨rfl, rfl⟩ := Prod.mk.inj (Option.some.inj h)
        obtain ⟨kept, hkept⟩ := List.head?_eq_some_iff.1 hhead
        have hle : (column :: kept).length ≤ (top :: outer).length := by
          rw [← hkept]
          exact (List.dropWhile_suffix _).length_le
        rw [hkept]
        refine ⟨column, kept, rfl, fun ts hinside => behind_of ?_⟩
        have hlevel : kept.length + ((top :: outer).length - (column :: kept).length) =
            outer.length := by
          rw [List.length_cons, List.length_cons] at hle ⊢
          omega
        exact hlevel ▸ (hinside.comes ht).dedents _
      · cases h

/-- Inside a line there is an open column. -/
def Layout.Sound (s : Layout) : Prop := s.columns = [] → s.atLineStart = true

/-- One lexeme is in front of what comes behind it. -/
theorem comes_step {s s' : Layout} {f : FlatLexeme} {now : List Lexeme} (hs : s.Sound)
    (hf : f.token.isShift = false) (h : s.Step f now s') :
    s'.Sound ∧ ∀ ts, s'.Comes ts → s.Comes (now.map (·.token) ++ ts) := by
  have hlayout : f.token ≠ .newline → f.token.isLayout = false := fun hother => by
    simp [Token.isLayout, hf, hother]
  cases h with
  | lineEnd hnewline _ hinside =>
    refine ⟨fun _ => rfl, fun ts hcomes => ?_⟩
    unfold Layout.Comes at hcomes ⊢
    cases hcolumns : s.columns with
    | nil => simp [hs hcolumns] at hinside
    | cons top outer =>
      simp only [hcolumns, hinside, Bool.false_eq_true, if_false, if_true] at hcomes ⊢
      exact ⟨[], ts, by simp [hnewline], by simp, hcomes⟩
  | noLine => exact ⟨hs, fun _ hcomes => hcomes⟩
  | @lineStart _ shifts hother hstart hopen =>
    obtain ⟨top, outer, rfl, hopened⟩ := comes_openLine? hstart hopen (hlayout hother)
    refine ⟨fun hnil => absurd hnil (List.cons_ne_nil _ _), fun ts hcomes => ?_⟩
    have hshifts : (shifts.map fun t => (⟨t, .point f.extent.start⟩ : Lexeme)).map (·.token) =
        shifts := by
      rw [List.map_map]
      exact List.map_id _
    rw [List.map_append, hshifts, List.append_assoc]
    exact hopened ts hcomes
  | inLine hother hinside =>
    refine ⟨hs, fun ts hcomes => ?_⟩
    unfold Layout.Comes at hcomes ⊢
    cases hcolumns : s.columns with
    | nil => exact fun hstart => by simp [hinside] at hstart
    | cons top outer =>
      simp only [hcolumns, hinside, Bool.false_eq_true, if_false] at hcomes ⊢
      obtain ⟨line, rest, htokens, hline, hbehind⟩ := hcomes
      refine ⟨f.token :: line, rest, by simp [htokens], ?_, hbehind⟩
      simpa [hlayout hother] using hline

/-- What is read of a source comes in the blocks that its lexemes open. -/
theorem comes_read {flat : List FlatLexeme} {s : Layout} {stop : Nat} {fault : Option Extent}
    {out : List Lexeme} (hflat : ∀ f ∈ flat, f.token.isShift = false) (hs : s.Sound)
    (h : Layout.read stop fault s flat = .ok out) : s.Comes (out.map (·.token)) := by
  induction flat generalizing s out with
  | nil =>
    obtain ⟨_, rfl⟩ := Layout.read_nil h
    exact comes_finish s stop
  | cons f flat ih =>
    obtain ⟨now, s', later, hstep, hlater, rfl⟩ := Layout.read_cons h
    obtain ⟨hs', hcomes⟩ := comes_step hs (hflat f List.mem_cons_self) hstep
    rw [List.map_append]
    exact hcomes _ (ih (fun f hf => hflat f (List.mem_cons_of_mem _ hf)) hs' hlater)

/-- No flat lexeme is a change of indentation. -/
theorem isShift_of_mem_flatFrom {cs : List Char} {pending : Nat} {p : Position} {f : FlatLexeme}
    (h : f ∈ (flatFrom pending p cs).lexemes) : f.token.isShift = false := by
  induction cs generalizing pending p with
  | nil => cases h
  | cons c cs ih =>
    cases pending with
    | succ k => exact ih h
    | zero =>
      rw [flatFrom] at h
      cases hscan : scan (c :: cs) with
      | bad k => simp [hscan] at h
      | skip k => exact ih (by simpa [hscan] using h)
      | token t k =>
        rcases List.mem_cons.1 (by simpa [hscan] using h) with rfl | hmem
        · exact (readable_of_scan hscan).2
        · exact ih hmem

/-- **The tokens of a source are those of a tree of lines.** -/
theorem exists_layoutTree {text : List Char} {tokens : List Lexeme}
    (h : tokenizeChars text = .ok tokens) : ∃ ls, IsLayoutTree ls (tokens.map (·.token)) := by
  obtain ⟨ls, hls, htokens⟩ : Comes 0 (tokens.map (·.token)) :=
    comes_read (fun f hf => isShift_of_mem_flatFrom hf) (fun _ => rfl) h rfl
  exact ⟨ls, hls, htokens⟩

/-! ### Uniqueness -/

/-- No line begins with the tokens. -/
def EndsBlock (ts : List Token) : Prop := ∀ t, ts.head? = some t → t = .dedent

/-- The end of a source ends a block. -/
theorem endsBlock_nil : EndsBlock [] := fun _ ht => nomatch ht

/-- A `dedent` ends a block. -/
theorem endsBlock_dedent : EndsBlock (.dedent :: ts) := fun _ ht => (Option.some.inj ht).symm

/-- Two lines in front of their `newline` are the same if what is made of them is. -/
theorem line_eq_of_append {a b : List Token} {x y : List Token}
    (ha : ∀ t ∈ a, t.isLayout = false) (hb : ∀ t ∈ b, t.isLayout = false)
    (h : a ++ .newline :: x = b ++ .newline :: y) : a = b ∧ x = y := by
  induction a generalizing b with
  | nil =>
    cases b with
    | nil => exact ⟨rfl, (List.cons.inj h).2⟩
    | cons t b =>
      obtain ⟨rfl, _⟩ := List.cons.inj h
      exact absurd (hb _ List.mem_cons_self) (by decide)
  | cons t a ih =>
    cases b with
    | nil =>
      obtain ⟨rfl, _⟩ := List.cons.inj h
      exact absurd (ha _ List.mem_cons_self) (by decide)
    | cons u b =>
      obtain ⟨rfl, htail⟩ := List.cons.inj h
      obtain ⟨rfl, rfl⟩ := ih (fun v hv => ha v (List.mem_cons_of_mem _ hv))
        (fun v hv => hb v (List.mem_cons_of_mem _ hv)) htail
      exact ⟨rfl, rfl⟩

/-- Lines begin with a token that is none of the layout. -/
theorem exists_tokensAll_cons (h : EveryAll IsLine (l :: ls)) :
    ∃ t ts, tokensAll (l :: ls) = t :: ts ∧ t.isLayout = false := by
  obtain ⟨⟨hne, hline⟩, _⟩ := every_iff.1 (everyAll_cons.1 h).1
  obtain ⟨t, line, hl⟩ := List.exists_cons_of_ne_nil hne
  exact ⟨t, _, by rw [tokensAll_cons, tokens_eq, hl]; rfl, hline t (hl ▸ List.mem_cons_self)⟩

/-- Where lines are ahead no block ends. -/
theorem not_endsBlock_tokensAll (h : EveryAll IsLine (l :: ls)) :
    ¬EndsBlock (tokensAll (l :: ls) ++ ts) := by
  obtain ⟨t, us, heq, ht⟩ := exists_tokensAll_cons h
  rw [heq]
  intro hends
  rw [hends t rfl] at ht
  cases ht

/-- Behind a line comes no `indent` but that of its block. -/
theorem head?_tokensAll_append (h : EveryAll IsLine ls) (hends : EndsBlock ts) :
    (tokensAll ls ++ ts).head? ≠ some .indent := by
  cases ls with
  | nil =>
    intro hhead
    cases hends _ hhead
  | cons l ls =>
    obtain ⟨t, us, heq, ht⟩ := exists_tokensAll_cons h
    rw [heq]
    intro hhead
    rw [Option.some.inj hhead] at ht
    cases ht

/-- Lines with the same tokens are the same, and so is what ends them. -/
theorem tokensAll_inj {a b : List LogicalLine} {x y : List Token} (ha : EveryAll IsLine a)
    (hb : EveryAll IsLine b) (hx : EndsBlock x) (hy : EndsBlock y)
    (h : tokensAll a ++ x = tokensAll b ++ y) : a = b ∧ x = y := by
  -- every line and every block takes a token, so what is behind it is shorter
  induction hn : (tokensAll a ++ x).length using Nat.strongRecOn generalizing a b x y with
  | _ n ih =>
    rcases a with - | ⟨⟨line, under⟩, a⟩ <;> rcases b with - | ⟨⟨line', under'⟩, b⟩
    · exact ⟨rfl, h⟩
    · rw [tokensAll_nil, List.nil_append] at h
      exact absurd (h ▸ hx) (not_endsBlock_tokensAll hb)
    · rw [tokensAll_nil, List.nil_append] at h
      exact absurd (h ▸ hy) (not_endsBlock_tokensAll ha)
    · obtain ⟨⟨hline, hunder⟩, hmore⟩ := (everyAll_cons.1 ha).imp_left every_iff.1
      obtain ⟨⟨hline', hunder'⟩, hmore'⟩ := (everyAll_cons.1 hb).imp_left every_iff.1
      simp only [tokensAll_cons, tokens_eq, LogicalLine.line, LogicalLine.block, List.append_assoc,
        List.cons_append] at h hline hline' hunder hunder' hn
      obtain ⟨rfl, hbehind⟩ := line_eq_of_append hline.2 hline'.2 h
      have hless : (blockTokens under ++ (tokensAll a ++ x)).length < n := by
        simp only [← hn, List.length_append, List.length_cons]
        omega
      have hsame : under = under' ∧ tokensAll a ++ x = tokensAll b ++ y := by
        rcases under with - | ⟨l, under⟩ <;> rcases under' with - | ⟨m, under'⟩
        · exact ⟨rfl, hbehind⟩
        · exact absurd (congrArg List.head? hbehind) (head?_tokensAll_append hmore hx)
        · exact absurd (congrArg List.head? hbehind).symm (head?_tokensAll_append hmore' hy)
        · simp only [blockTokens_cons, List.cons_append, List.append_assoc, List.nil_append,
            List.cons.injEq, true_and, List.length_cons] at hbehind hless
          obtain ⟨heq, hrest⟩ := ih _ (Nat.lt_of_succ_lt hless) hunder hunder' endsBlock_dedent
            endsBlock_dedent hbehind rfl
          exact ⟨heq, (List.cons.inj hrest).2⟩
      obtain ⟨rfl, hrest⟩ := hsame
      rw [List.length_append] at hless
      obtain ⟨rfl, rfl⟩ := ih _ (Nat.lt_of_le_of_lt (Nat.le_add_left _ _) hless) hmore hmore' hx hy
        hrest rfl
      exact ⟨rfl, rfl⟩

/-- The tokens of a source are those of one tree only. -/
theorem layoutTree_unique {a b : List LogicalLine} (ha : IsLayoutTree a ts)
    (hb : IsLayoutTree b ts) : a = b := by
  refine (tokensAll_inj ha.lines hb.lines endsBlock_nil endsBlock_nil ?_).1
  rw [← ha.tokens, ← hb.tokens]

end Source
end Lineage
