/-
# What is between the quotes of a literal

The body of a literal is a row of characters and of pairs, a backslash with the character
that it takes (`Letter`).  The closing quotes are found by counting along it, and begin
nowhere before its end (`ClosedBy`): `exists_letters_triple` says so of three quotes,
`exists_letters_single` of one.  The value is found by other means, from the first quote and
the last bytes of the text alone, and yet it is that of the same body: the text is as long
as its quotes need, they end on a border of characters, and the pairs are replaced where the
count saw pairs (`IsLiteral.reads`).  So the literals of a source are read as they are cut
(`isLiteral_of_tokenize`).
-/

import Lineage.Proofs.Source.Literals
import Lineage.Proofs.Source.Spelling

namespace Lineage
namespace Source

open Text Outline

variable {cs lead quotes text : List Char} {c quote : Char} {body : List Letter} {l : Letter}
  {t : Token} {n : Nat}

/-! ### Bodies -/

/-- A part of a body: a character by itself, or a backslash with the one that it takes. -/
inductive Letter where
  | plain (c : Char) (ordinary : c ≠ '\\')
  | pair (c : Char)

/-- The pairs that stand for something else, by the character behind the backslash. -/
def escapes : List (Char × List Char) := [
  ('n', ['\n']), ('t', ['\t']), ('r', ['\r']), ('0', ['\x00']),
  ('\\', ['\\']), ('\'', ['\'']), ('"', ['"']), ('\n', [])]

namespace Letter

/-- The letter as it is written. -/
def written : Letter → List Char
  | plain c _ => [c]
  | pair c => ['\\', c]

/-- What the letter stands for: a pair that is not among `escapes` stands for itself. -/
def value : Letter → List Char
  | plain c _ => [c]
  | pair c => (escapes.lookup c).getD ['\\', c]

end Letter

/-- The body as it is written. -/
def written (body : List Letter) : List Char := body.flatMap Letter.written

/-- What the body stands for. -/
def bodyValue (body : List Letter) : List Char := body.flatMap Letter.value

/-- A body is written letter by letter. -/
theorem written_cons (l : Letter) (body : List Letter) :
    written (l :: body) = l.written ++ written body := List.flatMap_cons

/-- The pairs are replaced by a table, or by cases. -/
theorem value_pair (c : Char) : (Letter.pair c).value = unescape c := by
  unfold Letter.value unescape escapes
  simp only [List.lookup_cons, List.lookup_nil]
  repeat' split
  all_goals simp_all

/-- **Reading a body replaces its pairs**, from left to right, and nothing else. -/
theorem unescapeBody_written (body : List Letter) :
    unescapeBody (written body) = bodyValue body := by
  induction body with
  | nil => rfl
  | cons l body ih =>
    cases l with
    | plain c hc =>
      have hrest : unescapeBody (c :: written body) = c :: unescapeBody (written body) := by
        cases written body with
        | nil => rfl
        | cons d cs => rw [unescapeBody, if_neg hc]
      rw [written_cons, Letter.written, List.singleton_append, hrest, ih]
      rfl
    | pair c =>
      rw [written_cons, Letter.written, List.cons_append, List.singleton_append, unescapeBody,
        if_pos rfl, ih, ← value_pair]
      rfl

/-! ### The end of a body -/

/-- The quotes behind the body begin with no letter of it. -/
def ClosedBy (quotes : List Char) (body : List Letter) : Prop :=
  ∀ rest, rest <:+ body → rest ≠ [] → ¬ quotes <+: written rest ++ quotes

/-- An empty body is closed by its quotes. -/
theorem closedBy_nil (quotes : List Char) : ClosedBy quotes [] :=
  fun _ hrest hne _ => hne (List.suffix_nil.1 hrest)

/-- One more letter in front of a body that is closed, if the quotes do not begin with it. -/
theorem ClosedBy.cons (h : ClosedBy quotes body)
    (hl : ¬ quotes <+: l.written ++ (written body ++ quotes)) : ClosedBy quotes (l :: body) := by
  intro rest hrest hne
  rcases List.suffix_cons_iff.1 hrest with rfl | hrest
  · rwa [written_cons, List.append_assoc]
  · exact h rest hrest hne

/-- Three quotes are counted up to the first place where they stand between letters. -/
theorem exists_letters_triple (hquote : quote ≠ '\\') (h : tripleLength? quote cs = some n) :
    ∃ body rest, cs = written body ++ [quote, quote, quote] ++ rest ∧
      n = (written body).length + 3 ∧ ClosedBy [quote, quote, quote] body := by
  fun_induction tripleLength? quote cs generalizing n with
  | case1 => cases h
  | case2 => cases h
  | case3 => cases h
  | case4 b c cs ih =>
    obtain ⟨k, hk, rfl⟩ := Option.map_eq_some_iff.1 h
    obtain ⟨body, rest, heq, rfl, hclosed⟩ := ih hk
    refine ⟨.pair b :: body, rest, ?_, ?_, hclosed.cons fun hstart => ?_⟩
    · rw [written_cons, heq]
      rfl
    · rw [written_cons, Letter.written, List.length_append, List.length_cons,
        List.length_singleton]
      omega
    · exact hquote (List.cons_prefix_cons.1 hstart).1
  | case5 a b c cs hslash hthree =>
    obtain ⟨rfl, rfl, rfl⟩ := hthree
    obtain rfl := Option.some.inj h
    exact ⟨[], cs, rfl, rfl, closedBy_nil _⟩
  | case6 a b c cs hslash hthree ih =>
    obtain ⟨k, hk, rfl⟩ := Option.map_eq_some_iff.1 h
    obtain ⟨body, rest, heq, rfl, hclosed⟩ := ih hk
    refine ⟨.plain a hslash :: body, rest, ?_, ?_, hclosed.cons fun hstart => hthree ?_⟩
    · rw [written_cons, heq]
      rfl
    · rw [written_cons, Letter.written, List.length_append, List.length_singleton]
      omega
    · -- three quotes here would be the first three characters of the text
      have hhere : [quote, quote, quote] <+: a :: b :: c :: cs := by
        rw [heq]
        exact hstart.trans (List.prefix_append _ rest)
      obtain ⟨ha, hhere⟩ := List.cons_prefix_cons.1 hhere
      obtain ⟨hb, hhere⟩ := List.cons_prefix_cons.1 hhere
      exact ⟨ha.symm, hb.symm, (List.cons_prefix_cons.1 hhere).1.symm⟩

/-- A single quote is counted up to where it stands first between letters. -/
theorem exists_letters_single (hquote : quote ≠ '\\')
    (h : (cs.drop (bodyLength quote cs)).head? = some quote) :
    ∃ body rest, cs = written body ++ quote :: rest ∧
      bodyLength quote cs = (written body).length ∧ ClosedBy [quote] body := by
  induction cs using escape_induction with
  | nil => cases h
  | last =>
    have hzero : bodyLength quote ['\\'] = 0 := by simp [bodyLength]
    rw [hzero] at h
    exact absurd (Option.some.inj h).symm hquote
  | escape b cs ih =>
    rw [bodyLength_escape] at h ⊢
    split at h
    · exact absurd (Option.some.inj h).symm hquote
    · rename_i hb
      obtain ⟨body, rest, heq, hlength, hclosed⟩ := ih h
      refine ⟨.pair b :: body, rest, ?_, ?_, hclosed.cons fun hstart => ?_⟩
      · rw [written_cons, heq]
        rfl
      · rw [if_neg hb, hlength, written_cons, Letter.written, List.length_append,
          List.length_cons, List.length_singleton]
        omega
      · exact hquote (List.cons_prefix_cons.1 hstart).1
  | cons a cs ha ih =>
    rw [bodyLength_cons ha] at h ⊢
    split at h
    · rename_i hend
      obtain rfl := Option.some.inj h
      exact ⟨[], cs, rfl, if_pos hend, closedBy_nil _⟩
    · rename_i hend
      obtain ⟨body, rest, heq, hlength, hclosed⟩ := ih h
      refine ⟨.plain a ha :: body, rest, ?_, ?_, hclosed.cons fun hstart => ?_⟩
      · rw [written_cons, heq]
        rfl
      · rw [if_neg hend, hlength, written_cons, Letter.written, List.length_append,
          List.length_singleton]
        omega
      · exact hend (.inl (List.cons_prefix_cons.1 hstart).1.symm)

/-! ### Literals -/

/-- The text is a literal: at most two letters of a prefix, then a body between one quote or
three, which begin nowhere in the body.  They are three if three equal ones open it. -/
structure IsLiteral (text lead quotes : List Char) (body : List Letter) : Prop where
  text_eq : text = lead ++ (quotes ++ written body ++ quotes)
  lead_letters : IsStringPrefix lead
  quotes_eq : ∃ quote, isQuote quote = true ∧ (quotes = [quote] ∨ quotes = [quote, quote, quote])
  triple_iff : quotes.length = 3 ↔ ∃ quote, [quote, quote, quote] <+: text.drop lead.length
  closed : ClosedBy quotes body

/-- What the reader of values sees of a text: the quotes, and a body in front of the last of
them. -/
structure Reads (text quotes body : List Char) : Prop where
  count : quoteCount (text.dropWhile (!isQuote ·)) = quotes.length
  long : 2 * quotes.length ≤ byteLength (text.dropWhile (!isQuote ·))
  slice : slice? (text.dropWhile (!isQuote ·)) quotes.length
    (byteLength (text.dropWhile (!isQuote ·)) - quotes.length) = some body

/-- **A literal that is found is one.** -/
theorem isLiteral_of_scanString? (h : scanString? cs = some (.token t n)) :
    ∃ text lead quotes body, t = .string (String.ofList text) ∧
      IsLiteral text lead quotes body := by
  obtain ⟨p, quote, r, rfl, hp, hquote⟩ := exists_quoted h
  have hslash := ne_of_isQuote hquote (c := '\\') rfl
  obtain ⟨rfl, hcases⟩ := quoted_cases hp hquote h
  rcases hcases with ⟨htriple, k, hk, rfl⟩ | ⟨hsingle, hclosed, rfl⟩
  · obtain ⟨body, rest, hr, rfl, hbody⟩ := exists_letters_triple hslash hk
    have htext : p ++ quote :: r = p ++ ([quote, quote, quote] ++ written body ++
        [quote, quote, quote]) ++ rest := by
      rw [← List.take_append_drop 2 r, htriple, hr]
      simp
    have htake : (p ++ quote :: r).take (p.length + 3 + ((written body).length + 3)) =
        p ++ ([quote, quote, quote] ++ written body ++ [quote, quote, quote]) := by
      rw [htext]
      refine List.take_left' ?_
      simp only [List.length_append, List.length_cons, List.length_nil]
      omega
    refine ⟨_, p, [quote, quote, quote], body, rfl, htake, hp, ⟨quote, hquote, .inr rfl⟩,
      iff_of_true rfl ⟨quote, ?_⟩, hbody⟩
    rw [htake, List.drop_left, List.append_assoc]
    exact List.prefix_append _ _
  · obtain ⟨body, rest, rfl, hlength, hbody⟩ := exists_letters_single hslash hclosed
    have htext : p ++ quote :: (written body ++ quote :: rest) =
        p ++ ([quote] ++ written body ++ [quote]) ++ rest := by simp
    have htake : (p ++ quote :: (written body ++ quote :: rest)).take
        (p.length + bodyLength quote (written body ++ quote :: rest) + 2) =
          p ++ ([quote] ++ written body ++ [quote]) := by
      rw [htext, hlength]
      refine List.take_left' ?_
      simp only [List.length_append, List.length_cons, List.length_nil]
      omega
    refine ⟨_, p, [quote], body, rfl, htake, hp, ⟨quote, hquote, .inl rfl⟩,
      iff_of_false (by simp) ?_, hbody⟩
    rw [htake, List.drop_left]
    rintro ⟨q, hq⟩
    -- the second and the third of three quotes would open the text behind the first one
    obtain ⟨rfl, hq⟩ := List.cons_prefix_cons.1 hq
    refine hsingle (List.prefix_iff_eq_take.1 (hq.trans ⟨rest, ?_⟩)).symm
    simp

/-- What encloses a literal are quotes. -/
theorem IsLiteral.isQuote_of_mem (h : IsLiteral text lead quotes body) (hc : c ∈ quotes) :
    isQuote c = true := by
  obtain ⟨quote, hquote, rfl | rfl⟩ := h.quotes_eq
  · rw [List.mem_singleton.1 hc]
    exact hquote
  · have hc : c = quote := by simpa using hc
    rw [hc]
    exact hquote

/-- The first quote of a text is the first one of the literal. -/
theorem IsLiteral.span_eq (h : IsLiteral text lead quotes body) :
    text.takeWhile (!isQuote ·) = lead ∧
      text.dropWhile (!isQuote ·) = quotes ++ written body ++ quotes := by
  have hlead : ∀ c ∈ lead, (!isQuote c) = true := fun c hc => by
    rw [isQuote_of_isStringLetter (h.lead_letters.2 c hc)]
    rfl
  obtain ⟨quote, qs, hquotes⟩ : ∃ quote qs, quotes = quote :: qs := by
    obtain ⟨quote, _, rfl | rfl⟩ := h.quotes_eq <;> exact ⟨quote, _, rfl⟩
  have hquote : isQuote quote = true :=
    h.isQuote_of_mem (hquotes ▸ List.mem_cons_self)
  rw [h.text_eq, List.takeWhile_append_of_pos hlead, List.dropWhile_append_of_pos hlead, hquotes]
  simp [hquote]

/-- **The value of a literal is that of its body.**  The text is long enough for its quotes,
and what is between them is cut out on borders of characters. -/
theorem IsLiteral.reads (h : IsLiteral text lead quotes body) :
    Reads text quotes (written body) ∧ literalChars? text =
      some (if 'r' ∈ lead ∨ 'R' ∈ lead then written body else bodyValue body) := by
  obtain ⟨hbefore, hbehind⟩ := h.span_eq
  have hbytes := byteLength_of_isQuote fun c hc => h.isQuote_of_mem hc
  have hcount : quoteCount (quotes ++ written body ++ quotes) = quotes.length := by
    have hdrop : text.drop lead.length = quotes ++ written body ++ quotes := by
      rw [h.text_eq, List.drop_left]
    obtain ⟨quote, hquote, rfl | rfl⟩ := h.quotes_eq
    · refine quoteCount_single fun htake => ?_
      have hthree := h.triple_iff.2 ⟨quote, hdrop ▸ htake ▸ List.take_prefix 3 _⟩
      simp at hthree
    · rw [List.append_assoc]
      exact quoteCount_triple hquote
  have hlong : 2 * quotes.length ≤ byteLength (quotes ++ written body ++ quotes) := by
    rw [byteLength_append, byteLength_append, hbytes]
    omega
  have hslice : slice? (quotes ++ written body ++ quotes) quotes.length
      (byteLength (quotes ++ written body ++ quotes) - quotes.length) = some (written body) := by
    have hstop : byteLength (quotes ++ written body ++ quotes) - quotes.length =
        byteLength (quotes ++ written body) := by
      rw [byteLength_append _ quotes, hbytes, Nat.add_sub_cancel]
    rw [hstop, ← hbytes, List.append_assoc]
    exact slice?_append quotes (written body) quotes
  refine ⟨⟨hbehind ▸ hcount, hbehind ▸ hlong, hbehind ▸ hslice⟩, ?_⟩
  unfold literalChars?
  simp only [hbefore, hbehind, hcount, if_neg (Nat.not_lt.2 hlong), hslice, Option.map_some,
    Bool.or_eq_true, List.contains_iff_mem, unescapeBody_written]

/-! ### The literals of a source -/

/-- A string token is what the pattern of string literals matches. -/
theorem scanString?_of_scan {s : String} (h : scan cs = .token (.string s) n) :
    scanString? cs = some (.token (.string s) n) := by
  rcases scan_token_cases h with hstring | ⟨hmem, -⟩
  · exact hstring
  · cases (isOrdinary_of_mem_candidates hmem).1

/-- **The literals of a source are read as they are cut.**  A string token is a prefix of at
most two letters and a body between one quote or three, which begin nowhere in the body.  Its
value is found without an empty answer for a text that is too short, and without a cut inside
a character: it is the body as it is written if the prefix has an `r`, and otherwise the body
with its pairs replaced. -/
theorem isLiteral_of_tokenize {source : String} {tokens : List Lexeme} {token : Lexeme}
    {literal : String} (h : tokenize source = .ok tokens) (hmem : token ∈ tokens)
    (hliteral : token.token = .string literal) :
    ∃ lead quotes body, IsLiteral literal.toList lead quotes body ∧
      Reads literal.toList quotes (written body) ∧
      literalValue? literal = some (String.ofList
        (if 'r' ∈ lead ∨ 'R' ∈ lead then written body else bodyValue body)) := by
  rcases mem_of_mem_read h hmem with hflat | hlayout
  · obtain ⟨f, hf, rfl⟩ := List.mem_map.1 hflat
    obtain ⟨done, rest, n, hscanned⟩ := exists_scanned hf
    have hscan := hscanned.scan_eq
    rw [show f.token = .string literal from hliteral] at hscan
    obtain ⟨text, lead, quotes, body, htext, his⟩ :=
      isLiteral_of_scanString? (scanString?_of_scan hscan)
    obtain rfl := Token.string.inj htext
    obtain ⟨hreads, hvalue⟩ := his.reads
    refine ⟨lead, quotes, body, ?_, ?_, ?_⟩
    · rwa [String.toList_ofList]
    · rwa [String.toList_ofList]
    · rw [literalValue?, String.toList_ofList, hvalue, Option.map_some]
  · rw [hliteral] at hlayout
    cases hlayout

/-- A raw literal whose only pair hides a quote. -/
theorem isLiteral_of_tokenize_raw : ∃ tokens token,
    tokenize "x = r'\\''" = .ok tokens ∧ token ∈ tokens ∧ token.token = .string "r'\\''" ∧
      ∃ lead quotes body, IsLiteral "r'\\''".toList lead quotes body ∧
        Reads "r'\\''".toList quotes (written body) ∧
        literalValue? "r'\\''" = some (String.ofList
          (if 'r' ∈ lead ∨ 'R' ∈ lead then written body else bodyValue body)) := by
  obtain ⟨tokens, h, hread⟩ := exists_tokens "x = r'\\''" (fun ls =>
    ls.any fun token => decide (token.token = .string "r'\\''")) (by decide +kernel)
  obtain ⟨token, hmem, hliteral⟩ := List.any_eq_true.1 hread
  have hliteral := of_decide_eq_true hliteral
  exact ⟨tokens, token, h, hmem, hliteral, isLiteral_of_tokenize h hmem hliteral⟩

end Source
end Lineage
