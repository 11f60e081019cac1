/-
# What is scanned as a token

A token that is scanned is a literal, or the longest of the matches of the other patterns
(`scan_token_cases`).  A literal begins with letters of a prefix and a quote, and it is closed
by three quotes or by one (`quoted_cases`).  The other patterns are those of gaps, among which
only a line break is a token, and those of words, numbers and tokens with one spelling
(`Lexical`).  What is said of every token of a source is shown for these.
-/

import Lineage.Source.Scan

namespace Lineage
namespace Source

open Text

variable {cs p r : List Char} {quote : Char} {s : Scan} {t : Token} {n : Nat}

/-! ### Literals -/

/-- A letter of a string prefix is no quote. -/
theorem isQuote_of_isStringLetter {c : Char} (h : isStringLetter c = true) : isQuote c = false := by
  have hletters : "rRbBuUfF".toList.all (fun c => !isQuote c) = true := by decide
  rw [isStringLetter, List.contains_iff_mem] at h
  simpa only [Bool.not_eq_true'] using List.all_eq_true.1 hletters c h

/-- What may stand before the quotes of a literal. -/
def IsStringPrefix (p : List Char) : Prop := p.length ≤ 2 ∧ ∀ c ∈ p, isStringLetter c = true

/-- The empty prefix is one. -/
theorem isStringPrefix_nil : IsStringPrefix [] := ⟨by decide, fun _ h => nomatch h⟩

/-- A prefix has no quotes. -/
theorem IsStringPrefix.isQuote_eq_false (h : IsStringPrefix p) : ∀ c ∈ p, isQuote c = false :=
  fun c hc => isQuote_of_isStringLetter (h.2 c hc)

/-- A literal begins with letters of a prefix and a quote. -/
theorem stringStart?_eq_some_iff {lead : Nat} : stringStart? cs = some (lead, quote) ↔
    ∃ p r, cs = p ++ quote :: r ∧ p.length = lead ∧ IsStringPrefix p ∧ isQuote quote = true := by
  constructor
  · intro h
    unfold stringStart? at h
    split at h
    · cases h
    · rename_i a cs
      split at h
      · rename_i ha
        obtain ⟨rfl, rfl⟩ := Prod.mk.inj (Option.some.inj h)
        exact ⟨[], cs, rfl, rfl, isStringPrefix_nil, ha⟩
      · split at h
        · rename_i ha
          split at h
          · cases h
          · rename_i b cs
            split at h
            · rename_i hb
              obtain ⟨rfl, rfl⟩ := Prod.mk.inj (Option.some.inj h)
              exact ⟨[a], cs, rfl, rfl, ⟨by simp, by simpa using ha⟩, hb⟩
            · split at h
              · rename_i hb
                split at h
                · cases h
                · rename_i d cs
                  split at h
                  · rename_i hd
                    obtain ⟨rfl, rfl⟩ := Prod.mk.inj (Option.some.inj h)
                    exact ⟨[a, b], cs, rfl, rfl, ⟨by simp, by simpa using ⟨ha, hb⟩⟩, hd⟩
                  · cases h
              · cases h
        · cases h
  · rintro ⟨p, r, rfl, rfl, ⟨hlength, hletters⟩, hquote⟩
    have hletter : ∀ {c}, isStringLetter c = true → isQuote c = false := isQuote_of_isStringLetter
    rcases p with - | ⟨a, - | ⟨b, - | ⟨d, p⟩⟩⟩
    · simp [stringStart?, hquote]
    · have ha := hletters a List.mem_cons_self
      simp [stringStart?, hquote, ha, hletter ha]
    · have ha := hletters a List.mem_cons_self
      have hb := hletters b (List.mem_cons_of_mem _ List.mem_cons_self)
      simp [stringStart?, hquote, ha, hb, hletter ha, hletter hb]
    · simp at hlength

/-- What is found at a prefix and a quote. -/
theorem scanString?_quoted (hp : IsStringPrefix p) (hquote : isQuote quote = true) :
    scanString? (p ++ quote :: r) =
      if r.take 2 = [quote, quote] then
        match tripleLength? quote (r.drop 2) with
        | some n => some (.token (.string (String.ofList
            ((p ++ quote :: r).take (p.length + 3 + n)))) (p.length + 3 + n))
        | none => some (.bad (p.length + 3))
      else if (r.drop (bodyLength quote r)).head? = some quote then
        some (.token (.string (String.ofList
          ((p ++ quote :: r).take (p.length + bodyLength quote r + 2))))
          (p.length + bodyLength quote r + 2))
      else if bodyLength quote r = 0 then none
      else some (.bad (p.length + 1 + bodyLength quote r)) := by
  have hstart := stringStart?_eq_some_iff.2 ⟨p, r, rfl, rfl, hp, hquote⟩
  have hthree : (quote :: r).take 3 = [quote, quote, quote] ↔ r.take 2 = [quote, quote] := by simp
  unfold scanString?
  rw [hstart]
  cases htriple : tripleLength? quote (r.drop 2) with
  | none =>
    simp only [Option.bind_eq_bind, Option.bind_some, List.drop_left, hthree,
      List.drop_succ_cons, List.drop_zero, Nat.add_comm 1 (bodyLength quote r), htriple]
  | some n =>
    simp only [Option.bind_eq_bind, Option.bind_some, List.drop_left, hthree,
      List.drop_succ_cons, List.drop_zero, Nat.add_comm 1 (bodyLength quote r), htriple]

/-- The start of a literal that is found. -/
theorem exists_quoted (h : scanString? cs = some s) :
    ∃ p quote r, cs = p ++ quote :: r ∧ IsStringPrefix p ∧ isQuote quote = true := by
  unfold scanString? at h
  obtain ⟨⟨lead, quote⟩, hstart, _⟩ := Option.bind_eq_some_iff.1 h
  obtain ⟨p, r, rfl, -, hp, hquote⟩ := stringStart?_eq_some_iff.1 hstart
  exact ⟨p, quote, r, rfl, hp, hquote⟩

/-- A literal that is found is closed by three quotes or by one. -/
theorem quoted_cases (hp : IsStringPrefix p) (hquote : isQuote quote = true)
    (h : scanString? (p ++ quote :: r) = some (.token t n)) :
    t = .string (String.ofList ((p ++ quote :: r).take n)) ∧
      ((r.take 2 = [quote, quote] ∧
          ∃ k, tripleLength? quote (r.drop 2) = some k ∧ n = p.length + 3 + k) ∨
        (r.take 2 ≠ [quote, quote] ∧ (r.drop (bodyLength quote r)).head? = some quote ∧
          n = p.length + bodyLength quote r + 2)) := by
  rw [scanString?_quoted hp hquote] at h
  split at h
  · rename_i htriple
    split at h
    · rename_i k hk
      obtain ⟨rfl, rfl⟩ := Scan.token.inj (Option.some.inj h)
      exact ⟨rfl, .inl ⟨htriple, k, hk, rfl⟩⟩
    · cases Option.some.inj h
  · rename_i hsingle
    split at h
    · rename_i hclosed
      obtain ⟨rfl, rfl⟩ := Scan.token.inj (Option.some.inj h)
      exact ⟨rfl, .inr ⟨hsingle, hclosed, rfl⟩⟩
    · split at h
      · cases h
      · cases Option.some.inj h

/-- The token of a literal has its text. -/
theorem eq_string_of_scanString? (h : scanString? cs = some (.token t n)) :
    t = .string (String.ofList (cs.take n)) := by
  obtain ⟨p, quote, r, rfl, hp, hquote⟩ := exists_quoted h
  exact (quoted_cases hp hquote h).1

/-! ### The other patterns -/

/-- A word is a keyword or an identifier. -/
theorem wordToken_cases (text : String) :
    wordToken text = .identifier text ∨ (text, wordToken text) ∈ keywords := by
  unfold wordToken
  cases h : keywords.lookup text with
  | none => exact .inl rfl
  | some word =>
    obtain ⟨l, r, hsplit, _⟩ := List.lookup_eq_some_iff.1 h
    exact .inr (hsplit ▸ List.mem_append_right l List.mem_cons_self)

/-- The matches of the patterns of gaps. -/
def gaps (cs : List Char) : List Scan :=
  [.skip (blanksLength cs), .skip (commentLength cs), .skip (joinLength cs),
    .token .newline (breakLength cs)]

/-- The matches of the other patterns. -/
def lexicals (cs : List Char) : List Scan :=
  [.token (wordToken (String.ofList (cs.take (wordLength cs)))) (wordLength cs),
    .token (.number (String.ofList (cs.take (decimalLength cs)))) (decimalLength cs),
    .token (.number (String.ofList (cs.take (pointedLength cs)))) (pointedLength cs),
    .token (.number (String.ofList (cs.take (radixLength cs)))) (radixLength cs)]
  ++ fixedTokens.filterMap fun f =>
    (after? f.1.toList cs).map fun _ => .token f.2 f.1.length

/-- The matches of all patterns are those of gaps and those of the others. -/
theorem candidates_eq (cs : List Char) : candidates cs = gaps cs ++ lexicals cs := rfl

/-- A word, a number or a token with one spelling, and the characters that it takes. -/
inductive Lexical (cs : List Char) : Token → Nat → Prop
  | word : Lexical cs (wordToken (String.ofList (cs.take (wordLength cs)))) (wordLength cs)
  | number {n : Nat} (h : n = decimalLength cs ∨ n = pointedLength cs ∨ n = radixLength cs) :
      Lexical cs (.number (String.ofList (cs.take n))) n
  | fixed {spelling : String} {t : Token} {rest : List Char} (hmem : (spelling, t) ∈ fixedTokens)
      (h : after? spelling.toList cs = some rest) : Lexical cs t spelling.length

/-- A match of the other patterns is a word, a number or a token with one spelling. -/
theorem exists_lexical (h : s ∈ lexicals cs) : ∃ t n, s = .token t n ∧ Lexical cs t n := by
  rcases List.mem_append.1 h with h | h
  · simp only [List.mem_cons, List.not_mem_nil, or_false] at h
    rcases h with rfl | rfl | rfl | rfl
    · exact ⟨_, _, rfl, .word⟩
    · exact ⟨_, _, rfl, .number (.inl rfl)⟩
    · exact ⟨_, _, rfl, .number (.inr (.inl rfl))⟩
    · exact ⟨_, _, rfl, .number (.inr (.inr rfl))⟩
  · obtain ⟨⟨spelling, t⟩, hf, hmap⟩ := List.mem_filterMap.1 h
    obtain ⟨rest, hrest, rfl⟩ := Option.map_eq_some_iff.1 hmap
    exact ⟨t, _, rfl, .fixed hf hrest⟩

/-- A token among those matches is a word, a number or a token with one spelling. -/
theorem lexical_of_mem (h : .token t n ∈ lexicals cs) : Lexical cs t n := by
  obtain ⟨_, _, heq, hlexical⟩ := exists_lexical h
  obtain ⟨rfl, rfl⟩ := Scan.token.inj heq
  exact hlexical

/-- A token among the matches is a line break, or none of a gap. -/
theorem candidate_cases (h : .token t n ∈ candidates cs) :
    t = .newline ∧ n = breakLength cs ∨ Lexical cs t n := by
  rcases List.mem_append.1 (candidates_eq cs ▸ h) with h | h
  · simp only [gaps, List.mem_cons, List.not_mem_nil, or_false, reduceCtorEq, false_or,
      Scan.token.injEq] at h
    exact .inl h
  · exact .inr (lexical_of_mem h)

/-! ### The longest match -/

/-- The longest match is one of them. -/
theorem foldl_longer_mem (l : List Scan) (s : Scan) : l.foldl Scan.longer s ∈ s :: l := by
  induction l generalizing s with
  | nil => exact List.mem_cons_self
  | cons a l ih =>
    rcases List.mem_cons.1 (ih (s.longer a)) with heq | hmem
    · rw [List.foldl_cons, heq, Scan.longer]
      split
      · exact List.mem_cons_of_mem _ List.mem_cons_self
      · exact List.mem_cons_self
    · exact List.mem_cons_of_mem _ (List.mem_cons_of_mem _ hmem)

/-- Another match is taken only if it is longer. -/
theorem foldl_longer_length (l : List Scan) (s : Scan) :
    l.foldl Scan.longer s = s ∨ s.length < (l.foldl Scan.longer s).length := by
  induction l generalizing s with
  | nil => exact .inl rfl
  | cons a l ih =>
    have hlonger : s.longer a = s ∨ s.length < (s.longer a).length := by
      unfold Scan.longer
      split
      · rename_i hlt
        exact .inr hlt
      · exact .inl rfl
    rw [List.foldl_cons]
    rcases ih (s.longer a) with heq | hlt
    · rw [heq]
      exact hlonger
    · rcases hlonger with heq | hlt'
      · rw [heq] at hlt ⊢
        exact .inr hlt
      · exact .inr (Nat.lt_trans hlt' hlt)

/-- **A token that is scanned** is a literal, or a match that takes characters. -/
theorem scan_token_cases (h : scan cs = .token t n) :
    scanString? cs = some (.token t n) ∨ .token t n ∈ candidates cs ∧ 0 < n := by
  unfold scan at h
  split at h
  · rename_i s hs
    exact .inl (hs.trans (congrArg some h))
  · have hmem := foldl_longer_mem (candidates cs) (.bad 0)
    have hlength := foldl_longer_length (candidates cs) (.bad 0)
    split at h
    · cases h
    · rw [h] at hmem hlength
      rcases List.mem_cons.1 hmem with heq | hmem
      · cases heq
      · rcases hlength with heq | hlt
        · cases heq
        · exact .inr ⟨hmem, hlt⟩

end Source
end Lineage
