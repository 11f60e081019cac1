/-
# Tokens are spelled by the source

A flat lexeme is what `scan` finds at its place (`exists_scanned`): an identifier is the
word that stands there, a number its digits (`SpelledBy`).  The layout adds tokens that
have no text, so this holds of all lexemes of a source (`spelled_of_tokenizeChars`).
-/

import Lineage.Proofs.Source.Placement

namespace Lineage
namespace Source

open Text

variable {text cs done rest : List Char} {t : Token} {l : Lexeme} {f : FlatLexeme}
  {m n pending : Nat} {p : Position}

/-! ### Words and numbers -/

/-- A word: a character that starts an identifier, then some that continue it. -/
def IsWord (cs : List Char) : Prop :=
  ∃ c rest, cs = c :: rest ∧ startsIdentifier c = true ∧ ∀ c ∈ rest, continuesIdentifier c = true

/-- The text of an identifier or a number is what is written there. -/
def SpelledBy : Token → List Char → Prop
  | .identifier text, cs => text = String.ofList cs ∧ IsWord cs
  | .number text, cs => text = String.ofList cs
  | _, _ => True

/-- A word has no dot. -/
theorem IsWord.not_mem_dot (h : IsWord cs) : '.' ∉ cs := by
  have hstart : startsIdentifier '.' = false := by decide
  have hcontinue : continuesIdentifier '.' = false := by decide
  obtain ⟨c, rest, rfl, hc, hrest⟩ := h
  intro hmem
  rcases List.mem_cons.1 hmem with rfl | hmem
  · rw [hstart] at hc
    cases hc
  · rw [hrest _ hmem] at hcontinue
    cases hcontinue

/-- What the pattern of words takes is a word. -/
theorem isWord_take_wordLength (h : 0 < wordLength cs) : IsWord (cs.take (wordLength cs)) := by
  unfold wordLength at h ⊢
  split
  · rename_i c cs
    dsimp only at h
    split at h
    · rename_i hc
      refine ⟨c, cs.takeWhile continuesIdentifier, ?_, hc, fun c hc => ?_⟩
      · rw [if_pos hc, Nat.add_comm, List.take_succ_cons, runLength]
        exact congrArg (c :: ·) (List.prefix_iff_eq_take.1 (List.takeWhile_prefix _)).symm
      · exact List.all_eq_true.1 List.all_takeWhile c hc
    · exact absurd h (Nat.lt_irrefl 0)
  · exact absurd h (Nat.lt_irrefl 0)

/-- A word spells the token that it is. -/
theorem spelledBy_wordToken (h : IsWord cs) : SpelledBy (wordToken (String.ofList cs)) cs := by
  have hkeywords : ∀ k ∈ keywords, ∀ cs, SpelledBy k.2 cs := by
    simp [keywords, SpelledBy]
  rcases wordToken_cases (String.ofList cs) with hidentifier | hkeyword
  · rw [hidentifier]
    exact ⟨rfl, h⟩
  · exact hkeywords _ hkeyword cs

/-! ### Scans -/

/-- What one of the patterns matches is spelled by the characters that it takes. -/
theorem spelledBy_of_mem_candidates (h : .token t n ∈ candidates cs) (hn : 0 < n) :
    SpelledBy t (cs.take n) := by
  have hfixed : ∀ f ∈ fixedTokens, ∀ cs, SpelledBy f.2 cs := by
    simp [fixedTokens, SpelledBy]
  rcases candidate_cases h with ⟨rfl, -⟩ | hlexical
  · trivial
  · cases hlexical with
    | word => exact spelledBy_wordToken (isWord_take_wordLength hn)
    | number => rfl
    | fixed hmem => exact hfixed _ hmem _

/-- **The token that is scanned is spelled by the characters that it takes.** -/
theorem spelledBy_of_scan (h : scan cs = .token t n) : SpelledBy t (cs.take n) := by
  rcases scan_token_cases h with hstring | ⟨hmem, hn⟩
  · rw [eq_string_of_scanString? hstring]
    trivial
  · exact spelledBy_of_mem_candidates hmem hn

/-! ### Flat lexemes -/

/-- The lexeme is what is scanned behind the text `done`. -/
structure Scanned (text : List Char) (f : FlatLexeme) (done rest : List Char) (n : Nat) :
    Prop where
  text_eq : text = done ++ rest
  scan_eq : scan rest = .token f.token n
  extent_eq : f.extent = ⟨byteLength done, byteLength (done ++ rest.take n)⟩
  column_eq : f.column = (Position.first.after done).column

/-- A flat lexeme is scanned from a place on where the text before it ends. -/
theorem exists_scanned_flatFrom (htext : text = done ++ rest)
    (hp : p = Position.first.after done) (hf : f ∈ (flatFrom pending p rest).lexemes) :
    ∃ done rest n, Scanned text f done rest n := by
  have hoffset : ∀ cs, (Position.first.after cs).offset = byteLength cs := fun cs => by
    rw [Position.offset_after]
    exact Nat.zero_add _
  induction rest generalizing pending p done with
  | nil => cases hf
  | cons c cs ih =>
    have hdone : text = (done ++ [c]) ++ cs := by rw [htext]; simp
    have hadvance : p.advance c = Position.first.after (done ++ [c]) := by
      rw [Position.after_append, hp]
      rfl
    cases pending with
    | succ k => exact ih hdone hadvance hf
    | zero =>
      rw [flatFrom] at hf
      cases hscan : scan (c :: cs) with
      | bad k =>
        rw [hscan] at hf
        cases hf
      | skip k =>
        rw [hscan] at hf
        exact ih hdone hadvance hf
      | token t k =>
        rw [hscan] at hf
        rcases List.mem_cons.1 hf with rfl | hf
        · refine ⟨done, c :: cs, k, htext, hscan, ?_, congrArg Position.column hp⟩
          rw [hp, hoffset, ← Position.after_append, hoffset]
          rfl
        · exact ih hdone hadvance hf

/-- **A flat lexeme is what is scanned at its place.** -/
theorem exists_scanned (hf : f ∈ (flatLexemes text).lexemes) :
    ∃ done rest n, Scanned text f done rest n :=
  exists_scanned_flatFrom (List.nil_append text).symm rfl hf

/-- The token is spelled by the stretch of the text that it has. -/
def Spelled (text : List Char) (l : Lexeme) : Prop :=
  ∀ cs, slice? text l.extent.start l.extent.stop = some cs → SpelledBy l.token cs

/-- What is scanned is spelled by its stretch of the text. -/
theorem Scanned.spelled (h : Scanned text f done rest n) : Spelled text f.toLexeme := by
  intro cs hcs
  have htext : text = done ++ (rest.take n ++ rest.drop n) := by
    rw [List.take_append_drop]
    exact h.text_eq
  rw [h.extent_eq, htext, slice?_append] at hcs
  rw [← Option.some.inj hcs]
  exact spelledBy_of_scan h.scan_eq

/-! ### Layout -/

/-- Layout tokens are spelled by anything. -/
theorem spelled_of_isLayout (h : l.token.isLayout = true) : Spelled text l := by
  intro cs _
  cases ht : l.token with
  | identifier s => rw [ht] at h; cases h
  | number s => rw [ht] at h; cases h
  | _ => trivial

/-- The lexemes of a step are the one that is read, and changes of indentation. -/
theorem mem_of_mem_step {s s' : Layout} {now : List Lexeme} (h : s.Step f now s') (hl : l ∈ now) :
    l = f.toLexeme ∨ l.token.isShift = true := by
  cases h with
  | lineEnd => exact .inl (List.mem_singleton.1 hl)
  | noLine => cases hl
  | lineStart _ _ hopen =>
    rcases List.mem_append.1 hl with hl | hl
    · obtain ⟨t, ht, rfl⟩ := List.mem_map.1 hl
      exact .inr (isShift_of_openLine? hopen t ht)
    · exact .inl (List.mem_singleton.1 hl)
  | inLine => exact .inl (List.mem_singleton.1 hl)

/-- What is added at the end of a source is layout. -/
theorem isLayout_of_mem_finish {s : Layout} {stop : Nat} (hl : l ∈ s.finish stop) :
    l.token.isLayout = true := by
  rcases List.mem_append.1 hl with hl | hl
  · split at hl
    · cases hl
    · rw [List.mem_singleton.1 hl]
      rfl
  · rw [List.eq_of_mem_replicate hl]
    rfl

/-- The lexemes of a source are its flat ones and those of its layout. -/
theorem mem_of_mem_read {flat : List FlatLexeme} {s : Layout} {stop : Nat} {fault : Option Extent}
    {out : List Lexeme} (h : Layout.read stop fault s flat = .ok out) (hl : l ∈ out) :
    l ∈ flat.map (·.toLexeme) ∨ l.token.isLayout = true := by
  induction flat generalizing s out with
  | nil =>
    obtain ⟨_, rfl⟩ := Layout.read_nil h
    exact .inr (isLayout_of_mem_finish hl)
  | cons f flat ih =>
    obtain ⟨now, s', later, hstep, hlater, rfl⟩ := Layout.read_cons h
    rcases List.mem_append.1 hl with hl | hl
    · rcases mem_of_mem_step hstep hl with rfl | hshift
      · exact .inl List.mem_cons_self
      · exact .inr (by rw [Token.isLayout, hshift, Bool.or_true])
    · exact (ih hlater hl).imp_left (List.mem_cons_of_mem _)

/-- **The tokens of a source are spelled by it.** -/
theorem spelled_of_tokenizeChars {tokens : List Lexeme} (h : tokenizeChars text = .ok tokens)
    (hl : l ∈ tokens) : Spelled text l := by
  rcases mem_of_mem_read h hl with hflat | hlayout
  · obtain ⟨f, hf, rfl⟩ := List.mem_map.1 hflat
    obtain ⟨_, _, _, hscanned⟩ := exists_scanned hf
    exact hscanned.spelled
  · exact spelled_of_isLayout hlayout

end Source
end Lineage
