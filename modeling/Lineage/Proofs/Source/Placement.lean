/-
# Tokens stand in the source in their order

The lexemes of a source lie one behind the other on borders of characters (`Placed`):
the flat ones because each begins behind the one before (`placed_flatFrom`), and with them
those of the layout, which are empty stretches between two of them (`placed_read`).  A
string literal among them is closed by the quotes it was opened with, so its value can be
read (`Readable`).
-/

import Lineage.Proofs.Source.Scanning
import Lineage.Source.Layout
import Lineage.Outline.Literal

namespace Lineage
namespace Source

open Text Outline

variable {text cs : List Char} {c quote : Char} {t : Token} {l : Lexeme} {ls : List Lexeme}
  {m n : Nat}

/-! ### Literals -/

/-- If the token is a string literal, it has a value. -/
def Readable : Token → Prop
  | .string literal => (literalValue? literal).isSome
  | _ => True

/-- A quote is one byte. -/
theorem utf8Size_of_isQuote (h : isQuote quote = true) : quote.utf8Size = 1 := by
  rcases (by simpa [isQuote] using h : quote = '"' ∨ quote = '\'') with rfl | rfl <;> rfl

/-- Quotes are as many bytes as characters. -/
theorem byteLength_of_isQuote {qs : List Char} (h : ∀ c ∈ qs, isQuote c = true) :
    byteLength qs = qs.length := by
  induction qs with
  | nil => rfl
  | cons q qs ih =>
    rw [byteLength_cons, utf8Size_of_isQuote (h q List.mem_cons_self),
      ih fun c hc => h c (List.mem_cons_of_mem q hc), List.length_cons, Nat.add_comm]

/-- What is opened and closed by as many quotes as are counted has a value. -/
theorem isSome_literalChars? {lead opening body closing : List Char}
    (hlead : ∀ c ∈ lead, isQuote c = false) (hne : opening ≠ [])
    (hopening : ∀ c ∈ opening, isQuote c = true) (hclosing : ∀ c ∈ closing, isQuote c = true)
    (hlength : closing.length = opening.length)
    (hcount : quoteCount (opening ++ body ++ closing) = opening.length) :
    (literalChars? (lead ++ (opening ++ body ++ closing))).isSome := by
  have hquoted : (lead ++ (opening ++ body ++ closing)).dropWhile (!isQuote ·) =
      opening ++ body ++ closing := by
    obtain ⟨q, qs, rfl⟩ := List.exists_cons_of_ne_nil hne
    rw [List.dropWhile_append_of_pos fun c hc => by simp [hlead c hc]]
    simp [hopening q List.mem_cons_self]
  unfold literalChars?
  simp only [hquoted, hcount]
  split
  · rfl
  · have hstop : byteLength (opening ++ body ++ closing) - opening.length =
        byteLength (opening ++ body) := by
      rw [byteLength_append _ closing, byteLength_of_isQuote hclosing, hlength, Nat.add_sub_cancel]
    have hstart : opening.length = byteLength opening := (byteLength_of_isQuote hopening).symm
    have hfrom : IsCut (opening ++ body ++ closing) (byteLength opening) :=
      ⟨opening, body ++ closing, List.append_assoc _ _ _, rfl⟩
    obtain ⟨out, hout⟩ := exists_slice? hfrom ⟨opening ++ body, closing, rfl, rfl⟩
      (by rw [byteLength_append]; exact Nat.le_add_right _ _)
    rw [hstop, hstart, hout]
    rfl

/-- A triple quote is found at the end of the text that is counted. -/
theorem exists_of_tripleLength? (h : tripleLength? quote cs = some n) :
    ∃ body rest, cs = body ++ [quote, quote, quote] ++ rest ∧ n = body.length + 3 := by
  fun_induction tripleLength? quote cs generalizing n with
  | case1 => cases h
  | case2 => cases h
  | case3 => cases h
  | case4 b c cs ih =>
    obtain ⟨k, hk, rfl⟩ := Option.map_eq_some_iff.1 h
    obtain ⟨body, rest, heq, rfl⟩ := ih hk
    exact ⟨_ :: b :: body, rest, by rw [heq]; rfl, by simp⟩
  | case5 a b c cs _ hquote =>
    obtain ⟨rfl, rfl, rfl⟩ := hquote
    obtain rfl := Option.some.inj h
    exact ⟨[], cs, rfl, rfl⟩
  | case6 a b c cs _ _ ih =>
    obtain ⟨k, hk, rfl⟩ := Option.map_eq_some_iff.1 h
    obtain ⟨body, rest, heq, rfl⟩ := ih hk
    exact ⟨a :: body, rest, by rw [heq]; rfl, by simp⟩

/-- Three quotes open a literal together. -/
theorem quoteCount_triple {rest : List Char} (h : isQuote quote = true) :
    quoteCount ([quote, quote, quote] ++ rest) = 3 := by
  rcases (by simpa [isQuote] using h : quote = '"' ∨ quote = '\'') with rfl | rfl <;> rfl

/-- Unless there are three of them, a single quote opens a literal. -/
theorem quoteCount_single {rest : List Char} (h : (quote :: rest).take 3 ≠ [quote, quote, quote]) :
    quoteCount (quote :: rest) = 1 := by
  unfold quoteCount
  rw [if_neg]
  rintro (heq | heq)
  · obtain rfl : quote = '"' := by simpa using congrArg List.head? heq
    exact h heq
  · obtain rfl : quote = '\'' := by simpa using congrArg List.head? heq
    exact h heq

/-- A prefix and a text between triple quotes. -/
theorem readable_triple {lead body : List Char} (hlead : ∀ c ∈ lead, isQuote c = false)
    (h : isQuote quote = true) :
    Readable (.string (String.ofList
      (lead ++ ([quote, quote, quote] ++ body ++ [quote, quote, quote])))) := by
  have hquotes : ∀ c ∈ [quote, quote, quote], isQuote c = true := by simpa using h
  rw [Readable, literalValue?, String.toList_ofList, Option.isSome_map]
  refine isSome_literalChars? hlead (List.cons_ne_nil _ _) hquotes hquotes rfl ?_
  rw [List.append_assoc]
  exact quoteCount_triple h

/-- A prefix and a text between single quotes that are not three. -/
theorem readable_single {lead body : List Char} (hlead : ∀ c ∈ lead, isQuote c = false)
    (h : isQuote quote = true)
    (hthree : ([quote] ++ body ++ [quote]).take 3 ≠ [quote, quote, quote]) :
    Readable (.string (String.ofList (lead ++ ([quote] ++ body ++ [quote])))) := by
  have hquotes : ∀ c ∈ [quote], isQuote c = true := by simpa using h
  rw [Readable, literalValue?, String.toList_ofList, Option.isSome_map]
  exact isSome_literalChars? hlead (List.cons_ne_nil _ _) hquotes hquotes rfl
    (quoteCount_single hthree)

/-- What is cut out up to a triple quote. -/
theorem readable_take_triple {p r : List Char} (hp : ∀ c ∈ p, isQuote c = false)
    (hquote : isQuote quote = true) (h : tripleLength? quote r = some n) :
    Readable (.string (String.ofList
      ((p ++ quote :: quote :: quote :: r).take (p.length + 3 + n)))) := by
  obtain ⟨body, rest, hr, rfl⟩ := exists_of_tripleLength? h
  have hlength : 3 + (body.length + 3) =
      ([quote, quote, quote] ++ body ++ [quote, quote, quote]).length := by simp; omega
  have hparts : quote :: quote :: quote :: r =
      [quote, quote, quote] ++ body ++ [quote, quote, quote] ++ rest := by simp [hr]
  rw [Nat.add_assoc, List.take_length_add_append, hparts, hlength, List.take_left]
  exact readable_triple hp hquote

/-- What is cut out up to a single quote. -/
theorem readable_take_single {p r : List Char} (hp : ∀ c ∈ p, isQuote c = false)
    (hquote : isQuote quote = true) (hthree : (quote :: r).take 3 ≠ [quote, quote, quote])
    (hend : (r.drop n).head? = some quote) :
    Readable (.string (String.ofList ((p ++ quote :: r).take (p.length + n + 2)))) := by
  obtain ⟨rest, hr⟩ := List.head?_eq_some_iff.1 hend
  have htake : (p ++ quote :: r).take (p.length + n + 2) =
      p ++ ([quote] ++ r.take n ++ [quote]) := by
    rw [Nat.add_assoc, List.take_length_add_append, List.take_succ_cons, List.take_add, hr]
    simp
  have hquoted : quote :: r = [quote] ++ r.take n ++ [quote] ++ rest := by
    have hparts := List.take_append_drop n r
    rw [hr] at hparts
    rw [List.append_assoc, List.append_assoc]
    exact congrArg (quote :: ·) hparts.symm
  rw [htake]
  refine readable_single hp hquote fun heq => hthree ?_
  have hlength : 3 ≤ ([quote] ++ r.take n ++ [quote]).length := by
    have hthree := congrArg List.length heq
    rw [List.length_take] at hthree
    simp only [List.length_cons, List.length_nil] at hthree
    omega
  rw [hquoted, List.take_append_of_le_length hlength]
  exact heq

/-- **A literal that is found has a value**: it ends with the quotes that it begins with. -/
theorem readable_of_scanString? (h : scanString? cs = some (.token t n)) : Readable t := by
  obtain ⟨p, quote, r, rfl, hp, hquote⟩ := exists_quoted h
  have hlead := hp.isQuote_eq_false
  obtain ⟨rfl, ⟨htriple, k, hk, rfl⟩ | ⟨hsingle, hend, rfl⟩⟩ := quoted_cases hp hquote h
  · obtain ⟨r, rfl⟩ : ∃ r', r = quote :: quote :: r' := by
      rcases r with - | ⟨a, - | ⟨b, r⟩⟩
      · simp at htriple
      · simp at htriple
      · obtain ⟨rfl, rfl⟩ : a = quote ∧ b = quote := by simpa using htriple
        exact ⟨r, rfl⟩
    exact readable_take_triple hlead hquote hk
  · exact readable_take_single hlead hquote (by simpa using hsingle) hend

/-! ### Flat lexemes -/

/-- Neither a literal nor a change of indentation. -/
def IsOrdinary (t : Token) : Prop := t.isString = false ∧ t.isShift = false

/-- Whether a token is ordinary can be decided. -/
instance (t : Token) : Decidable (IsOrdinary t) := inferInstanceAs (Decidable (_ ∧ _))

/-- Only a literal could be unreadable. -/
theorem readable_of_isOrdinary (h : IsOrdinary t) : Readable t := by
  cases t with
  | string text => cases h.1
  | _ => trivial

/-- A word is an ordinary token. -/
theorem isOrdinary_wordToken (text : String) : IsOrdinary (wordToken text) := by
  have hkeywords : ∀ k ∈ keywords, IsOrdinary k.2 := by decide
  rcases wordToken_cases text with hidentifier | hkeyword
  · rw [hidentifier]
    exact ⟨rfl, rfl⟩
  · exact hkeywords _ hkeyword

/-- What the patterns match is ordinary. -/
theorem isOrdinary_of_mem_candidates (h : .token t n ∈ candidates cs) : IsOrdinary t := by
  have hfixed : ∀ f ∈ fixedTokens, IsOrdinary f.2 := by decide
  rcases candidate_cases h with ⟨rfl, -⟩ | hlexical
  · exact ⟨rfl, rfl⟩
  · cases hlexical with
    | word => exact isOrdinary_wordToken _
    | number => exact ⟨rfl, rfl⟩
    | fixed hmem => exact hfixed _ hmem

/-- What is scanned is no change of indentation, and a literal has a value. -/
theorem readable_of_scan (h : scan cs = .token t n) : Readable t ∧ t.isShift = false := by
  rcases scan_token_cases h with hstring | ⟨hmem, -⟩
  · refine ⟨readable_of_scanString? hstring, ?_⟩
    rw [eq_string_of_scanString? hstring]
    rfl
  · have hordinary := isOrdinary_of_mem_candidates hmem
    exact ⟨readable_of_isOrdinary hordinary, hordinary.2⟩

/-- The lexemes stand in the text one behind the other, none before the offset. -/
def Placed (text : List Char) : Nat → List Lexeme → Prop
  | _, [] => True
  | n, l :: ls => n ≤ l.extent.start ∧ l.extent.start ≤ l.extent.stop ∧
      IsCut text l.extent.start ∧ IsCut text l.extent.stop ∧ Readable l.token ∧
      Placed text l.extent.stop ls

/-- Lexemes that stand behind an offset stand behind an earlier one. -/
theorem Placed.of_le (h : Placed text n ls) (hle : m ≤ n) : Placed text m ls := by
  cases ls with
  | nil => trivial
  | cons l ls => exact ⟨Nat.le_trans hle h.1, h.2⟩

/-- A lexeme further behind stands further behind. -/
theorem Placed.getElem? {i : Nat} (h : Placed text n ls) (hi : ls[i]? = some l) :
    n ≤ l.extent.start ∧ l.extent.start ≤ l.extent.stop ∧ IsCut text l.extent.start ∧
      IsCut text l.extent.stop := by
  induction ls generalizing n i with
  | nil => cases hi
  | cons a ls ih =>
    obtain ⟨hstart, hle, hcut, hcut', _, hrest⟩ := h
    cases i with
    | zero =>
      obtain rfl := Option.some.inj hi
      exact ⟨hstart, hle, hcut, hcut'⟩
    | succ i =>
      obtain ⟨hfrom, hbehind⟩ := ih hrest hi
      exact ⟨Nat.le_trans hstart (Nat.le_trans hle hfrom), hbehind⟩

/-- Each of the lexemes stands behind the offset, between borders of characters. -/
theorem Placed.of_mem (h : Placed text n ls) (hl : l ∈ ls) :
    n ≤ l.extent.start ∧ l.extent.start ≤ l.extent.stop ∧ IsCut text l.extent.start ∧
      IsCut text l.extent.stop := by
  obtain ⟨i, hi⟩ := List.getElem?_of_mem hl
  exact h.getElem? hi

/-- Lexemes stand one behind the other. -/
theorem Placed.pairwise (h : Placed text m ls) :
    ls.Pairwise (·.extent.stop ≤ ·.extent.start) := by
  induction ls generalizing m with
  | nil => exact .nil
  | cons l ls ih =>
    obtain ⟨_, _, _, _, _, hbehind⟩ := h
    exact List.pairwise_cons.2 ⟨fun l' hl' => (hbehind.of_mem hl').1, ih hbehind⟩

/-- Passing characters leads no further back. -/
theorem offset_le_after (p : Position) (cs : List Char) : p.offset ≤ (p.after cs).offset := by
  rw [Position.offset_after]
  exact Nat.le_add_right _ _

/-- Passing the first character of a stretch, the others are still to be passed. -/
theorem offset_after_take_le (p : Position) (c : Char) (cs : List Char) (k : Nat) :
    (p.after ((c :: cs).take k)).offset ≤ ((p.advance c).after (cs.take (k - 1))).offset := by
  cases k with
  | zero =>
    rw [List.take_zero, Position.after_nil]
    exact Nat.le_trans (Nat.le_add_right _ _) (offset_le_after (p.advance c) _)
  | succ k => simp

/-- The flat lexemes of a text stand in it one behind the other. -/
theorem placed_flatFrom {rest done : List Char} {pending : Nat} {p : Position}
    (htext : text = done ++ rest) (hp : p.offset = byteLength done)
    (hm : m ≤ (p.after (rest.take pending)).offset) :
    Placed text m ((flatFrom pending p rest).lexemes.map (·.toLexeme)) := by
  induction rest generalizing pending p done m with
  | nil => trivial
  | cons c cs ih =>
    have hdone : text = (done ++ [c]) ++ cs := by rw [htext]; simp
    have hadvance : (p.advance c).offset = byteLength (done ++ [c]) := by
      simp [Position.advance, hp]
    cases pending with
    | succ k =>
      rw [flatFrom]
      exact ih hdone hadvance (by simpa using hm)
    | zero =>
      rw [List.take_zero, Position.after_nil] at hm
      rw [flatFrom]
      cases hscan : scan (c :: cs) with
      | bad k => trivial
      | skip k =>
        refine ih hdone hadvance (Nat.le_trans ?_ (offset_after_take_le p c cs k))
        exact Nat.le_trans hm (offset_le_after p _)
      | token t k =>
        refine ⟨hm, offset_le_after p _, ⟨done, c :: cs, htext, hp.symm⟩,
          ⟨done ++ (c :: cs).take k, (c :: cs).drop k, ?_, ?_⟩, (readable_of_scan hscan).1,
          ih hdone hadvance (offset_after_take_le p c cs k)⟩
        · rw [htext, List.append_assoc, List.take_append_drop]
        · rw [byteLength_append, ← hp, ← Position.offset_after]
          rfl

/-! ### Layout -/

/-- Layout tokens stand between two lexemes. -/
theorem placed_points {shifts : List Token} (hshifts : ∀ t ∈ shifts, Readable t) (hle : m ≤ n)
    (hcut : IsCut text n) (h : Placed text n ls) :
    Placed text m (shifts.map (⟨·, .point n⟩) ++ ls) := by
  induction shifts generalizing m with
  | nil => exact h.of_le hle
  | cons t shifts ih =>
    exact ⟨hle, Nat.le_refl n, hcut, hcut, hshifts t List.mem_cons_self,
      ih (fun u hu => hshifts u (List.mem_cons_of_mem t hu)) (Nat.le_refl n)⟩

/-- Before a line stand changes of indentation. -/
theorem isShift_of_openLine? {columns kept : List Nat} {column : Nat} {shifts : List Token}
    (h : Layout.openLine? columns column = some (kept, shifts)) :
    ∀ t ∈ shifts, t.isShift = true := by
  unfold Layout.openLine? at h
  split at h
  · obtain ⟨_, rfl⟩ := Prod.mk.inj (Option.some.inj h)
    simp
  · split at h
    · obtain ⟨_, rfl⟩ := Prod.mk.inj (Option.some.inj h)
      simp [Token.isShift]
    · dsimp only at h
      split at h
      · obtain ⟨_, rfl⟩ := Prod.mk.inj (Option.some.inj h)
        intro t ht
        rw [List.eq_of_mem_replicate ht]
        rfl
      · cases h

/-- A change of indentation has nothing to read. -/
theorem readable_of_isShift (h : t.isShift = true) : Readable t := by
  cases t with
  | string text => cases h
  | _ => trivial

/-- What one lexeme does to the layout, and the lexemes that it stands for. -/
inductive Layout.Step (s : Layout) (l : FlatLexeme) : List Lexeme → Layout → Prop
  | lineEnd (hnewline : l.token = .newline) (hdepth : s.depth = 0)
      (hinside : s.atLineStart = false) : Step s l [l.toLexeme] { s with atLineStart := true }
  | noLine (hnewline : l.token = .newline) (hopen : s.depth = 0 → s.atLineStart = true) :
      Step s l [] s
  | lineStart {columns : List Nat} {shifts : List Token} (hother : l.token ≠ .newline)
      (hstart : s.atLineStart = true)
      (hopen : openLine? s.columns l.column = some (columns, shifts)) :
      Step s l (shifts.map (⟨·, .point l.extent.start⟩) ++ [l.toLexeme])
        ⟨columns, depthAfter s.depth l.token, false⟩
  | inLine (hother : l.token ≠ .newline) (hinside : s.atLineStart = false) :
      Step s l [l.toLexeme] { s with depth := depthAfter s.depth l.token }

/-- What the layout computes for a lexeme is what a step does. -/
theorem Layout.step_of_eq_ok {s s' : Layout} {l : FlatLexeme} {now : List Lexeme}
    (h : s.step l = .ok (now, s')) : s.Step l now s' := by
  unfold Layout.step at h
  split at h
  · rename_i hnewline
    split at h
    · rename_i hends
      obtain ⟨rfl, rfl⟩ := Prod.mk.inj (Except.ok.inj h)
      exact .lineEnd hnewline hends.1 hends.2
    · rename_i hends
      obtain ⟨rfl, rfl⟩ := Prod.mk.inj (Except.ok.inj h)
      exact .noLine hnewline fun hdepth => by simpa using not_and.1 hends hdepth
  · rename_i hother
    split at h
    · rename_i hstart
      split at h
      · cases h
      · rename_i hopen
        obtain ⟨rfl, rfl⟩ := Prod.mk.inj (Except.ok.inj h)
        exact .lineStart hother hstart hopen
    · rename_i hinside
      obtain ⟨rfl, rfl⟩ := Prod.mk.inj (Except.ok.inj h)
      exact .inLine hother (by simpa using hinside)

/-- At the end of the lexemes there is no fault, and what the layout adds is left. -/
theorem Layout.read_nil {stop : Nat} {fault : Option Extent} {s : Layout} {out : List Lexeme}
    (h : read stop fault s [] = .ok out) : fault = none ∧ out = s.finish stop := by
  unfold Layout.read at h
  split at h
  · cases h
  · exact ⟨rfl, (Except.ok.inj h).symm⟩

/-- A reading takes a step with the first lexeme, and reads the others. -/
theorem Layout.read_cons {stop : Nat} {fault : Option Extent} {s : Layout} {l : FlatLexeme}
    {flat : List FlatLexeme} {out : List Lexeme} (h : read stop fault s (l :: flat) = .ok out) :
    ∃ now s' later, s.Step l now s' ∧ read stop fault s' flat = .ok later ∧ out = now ++ later := by
  rw [Layout.read] at h
  split at h
  · cases h
  · rename_i now s' hstep
    split at h
    · cases h
    · rename_i later hlater
      exact ⟨now, s', later, step_of_eq_ok hstep, hlater, (Except.ok.inj h).symm⟩

/-- What the layout adds at the end of the source stands there. -/
theorem placed_finish (s : Layout) (hle : m ≤ byteLength text) :
    Placed text m (s.finish (byteLength text)) := by
  have hlexemes : s.finish (byteLength text) =
      ((if s.atLineStart then [] else [Token.newline]) ++
        List.replicate (s.columns.length - 1) Token.dedent).map
          (⟨·, .point (byteLength text)⟩) ++ [] := by
    unfold Layout.finish
    split <;> simp
  rw [hlexemes]
  refine placed_points (fun t ht => ?_) hle (isCut_byteLength text) trivial
  rcases List.mem_append.1 ht with ht | ht
  · split at ht
    · cases ht
    · rw [List.mem_singleton.1 ht]
      trivial
  · rw [List.eq_of_mem_replicate ht]
    trivial

/-- A step puts lexemes in front of what stands behind its own. -/
theorem placed_step {s s' : Layout} {l : FlatLexeme} {now later : List Lexeme}
    (h : s.Step l now s') (hself : ∀ m ≤ l.extent.start, Placed text m (l.toLexeme :: later))
    (hm : m ≤ l.extent.start) : Placed text m (now ++ later) := by
  cases h with
  | lineEnd => exact hself m hm
  | noLine =>
    obtain ⟨hstart, hstop, _, _, _, hbehind⟩ := hself m hm
    exact hbehind.of_le (Nat.le_trans hstart hstop)
  | lineStart _ _ hopen =>
    have hplaced := hself _ (Nat.le_refl _)
    rw [List.append_assoc]
    exact placed_points (fun t ht => readable_of_isShift (isShift_of_openLine? hopen t ht)) hm
      hplaced.2.2.1 hplaced
  | inLine => exact hself m hm

/-- What is read stands in the source one behind the other. -/
theorem placed_read {flat : List FlatLexeme} {s : Layout} {fault : Option Extent}
    {out : List Lexeme} (hplaced : Placed text m (flat.map (·.toLexeme)))
    (hle : m ≤ byteLength text)
    (h : Layout.read (byteLength text) fault s flat = .ok out) : Placed text m out := by
  induction flat generalizing s m out with
  | nil =>
    obtain ⟨_, rfl⟩ := Layout.read_nil h
    exact placed_finish s hle
  | cons l flat ih =>
    obtain ⟨hstart, hstop, hcut, hcut', hreadable, hrest⟩ := hplaced
    obtain ⟨now, s', later, hstep, hlater, rfl⟩ := Layout.read_cons h
    have hbehind := ih hrest hcut'.le_byteLength hlater
    exact placed_step hstep (fun _ hm => ⟨hm, hstop, hcut, hcut', hreadable, hbehind⟩) hstart

/-- **The tokens of a source stand in it in their order.** -/
theorem placed_of_tokenizeChars {tokens : List Lexeme} (h : tokenizeChars text = .ok tokens) :
    Placed text 0 tokens :=
  have hflat : Placed text 0 ((flatLexemes text).lexemes.map (·.toLexeme)) :=
    placed_flatFrom (List.nil_append text).symm rfl (Nat.zero_le _)
  placed_read hflat (Nat.zero_le _) h

/-- Tokens that a test finds are there, and pass the test. -/
theorem exists_tokens (source : String) (p : List Lexeme → Bool)
    (h : (match tokenize source with | .ok tokens => p tokens | .error _ => false) = true) :
    ∃ tokens, tokenize source = .ok tokens ∧ p tokens = true := by
  split at h
  · exact ⟨_, ‹_›, h⟩
  · cases h

end Source
end Lineage
