/-
# String literals

What a quote begins is told by the text behind it: the triple quote that closes it, or the
body up to a single one.  A literal that is closed within the first part of a text is closed
there before any gap (`scanString?_local`); what a quote begins in a line does not depend on
the lines behind it, unless three quotes open it (`scanString?_line`).
-/

import Lineage.Proofs.Source.Patterns

namespace Lineage
namespace Source

open Text

variable {cs p r x y v w : List Char} {c quote : Char} {s : Scan} {t : Token} {n : Nat}

/-! ### The start of a literal -/

/-- A quote is no character that is none. -/
theorem ne_of_isQuote (h : isQuote quote = true) (hc : isQuote c = false) : quote ≠ c := by
  rintro rfl
  rw [h] at hc
  cases hc

/-- No gap begins with a quote. -/
theorem not_mem_gapChars_of_isQuote (h : isQuote c = true) : c ∉ gapChars :=
  not_mem_of_holds (by decide) h

/-- No gap begins with a letter of a string prefix. -/
theorem not_mem_gapChars_of_isStringLetter (h : isStringLetter c = true) : c ∉ gapChars :=
  not_mem_of_holds (by decide) h

/-- Quotes are foreign to words, numbers and tokens with one spelling. -/
theorem mem_foreignChars_of_isQuote (h : isQuote c = true) : c ∈ foreignChars := by
  rcases (by simpa [isQuote] using h : c = '"' ∨ c = '\'') with rfl | rfl <;> decide

/-- A text that begins with two quotes has two characters. -/
theorem two_le_length_of_take (h : y.take 2 = [quote, quote]) : 2 ≤ y.length := by
  have hlength := congrArg List.length h
  rw [List.length_take, List.length_cons, List.length_singleton] at hlength
  omega

/-- The first two characters of a text, one by one. -/
theorem take_two_eq_iff {a b : Char} :
    y.take 2 = [a, b] ↔ y.head? = some a ∧ y.tail.head? = some b := by
  rcases y with - | ⟨c, - | ⟨d, y⟩⟩ <;> simp

/-- Two quotes before a gap are both in front of it. -/
theorem take_two_gap (hquote : isQuote quote = true) (hw : HeadIn gapChars w) :
    (y ++ w).take 2 = [quote, quote] ↔ y.take 2 = [quote, quote] := by
  have hhead : w.head? ≠ some quote := fun hhead =>
    not_mem_gapChars_of_isQuote hquote (hw quote hhead)
  constructor
  · rw [take_two_eq_iff, take_two_eq_iff]
    rintro ⟨hfirst, hsecond⟩
    rcases y with - | ⟨a, - | ⟨b, y⟩⟩
    · exact absurd hfirst hhead
    · exact absurd hsecond hhead
    · exact ⟨hfirst, hsecond⟩
  · intro htwo
    rw [List.take_append_of_le_length (two_le_length_of_take htwo), htwo]

/-- What is taken of a quoted text does not depend on what stands behind it. -/
theorem take_quoted (h : n ≤ (p ++ quote :: y).length) (u : List Char) :
    (p ++ quote :: (y ++ u)).take n = (p ++ quote :: y).take n := by
  rw [← List.cons_append, ← List.append_assoc, List.take_append_of_le_length h]

/-! ### The end of a literal -/

/-- A text in triple quotes has its closing ones at least. -/
theorem three_le_of_tripleLength? (h : tripleLength? quote cs = some n) : 3 ≤ n := by
  obtain ⟨body, _, _, rfl⟩ := exists_of_tripleLength? h
  exact Nat.le_add_left 3 _

/-- A pair with a backslash does not close the text. -/
theorem tripleLength?_escape (quote b : Char) (cs : List Char) :
    tripleLength? quote ('\\' :: b :: cs) = (tripleLength? quote cs).map (· + 2) := by
  cases cs with
  | nil => rfl
  | cons c cs => rw [tripleLength?, if_pos rfl]

/-- Any other character closes the text if it begins the three quotes. -/
theorem tripleLength?_cons {a : Char} (ha : a ≠ '\\') (quote : Char) (cs : List Char) :
    tripleLength? quote (a :: cs) = if a = quote ∧ cs.take 2 = [quote, quote] then some 3
      else (tripleLength? quote cs).map (· + 1) := by
  rcases cs with - | ⟨b, - | ⟨c, cs⟩⟩
  · simp [tripleLength?]
  · simp [tripleLength?]
  · simp [tripleLength?, ha]

/-- The quotes that close a text close every longer one. -/
theorem tripleLength?_append (h : tripleLength? quote y = some n) (v : List Char) :
    tripleLength? quote (y ++ v) = some n := by
  fun_induction tripleLength? quote y generalizing n with
  | case1 => cases h
  | case2 => cases h
  | case3 => cases h
  | case4 b c cs ih =>
    obtain ⟨k, hk, rfl⟩ := Option.map_eq_some_iff.1 h
    simpa [tripleLength?] using ih hk
  | case5 a b c cs hslash hquote =>
    obtain rfl := Option.some.inj h
    rw [List.cons_append, List.cons_append, List.cons_append, tripleLength?, if_neg hslash,
      if_pos hquote]
  | case6 a b c cs hslash hquote ih =>
    obtain ⟨k, hk, rfl⟩ := Option.map_eq_some_iff.1 h
    simpa [tripleLength?, hslash, hquote] using ih hk

/-- Quotes within the first part of a text close that part. -/
theorem tripleLength?_of_append (h : tripleLength? quote (y ++ v) = some n) (hle : n ≤ y.length) :
    tripleLength? quote y = some n := by
  have hthree := three_le_of_tripleLength? h
  fun_induction tripleLength? quote y generalizing n with
  | case1 => exact absurd (Nat.le_trans hthree hle) (by decide)
  | case2 => exact absurd (Nat.le_trans hthree hle) (by simp)
  | case3 => exact absurd (Nat.le_trans hthree hle) (by simp)
  | case4 b c cs ih =>
    simp only [List.cons_append, tripleLength?, if_true] at h
    obtain ⟨k, hk, rfl⟩ := Option.map_eq_some_iff.1 h
    rw [ih hk (by simpa using hle) (three_le_of_tripleLength? hk), Option.map_some]
  | case5 a b c cs hslash hquote =>
    rw [List.cons_append, List.cons_append, List.cons_append, tripleLength?, if_neg hslash,
      if_pos hquote] at h
    exact h
  | case6 a b c cs hslash hquote ih =>
    simp only [List.cons_append, tripleLength?, if_neg hslash, if_neg hquote] at h
    obtain ⟨k, hk, rfl⟩ := Option.map_eq_some_iff.1 h
    rw [ih hk (by simpa using hle) (three_le_of_tripleLength? hk), Option.map_some]

/-- Induction along a text that a backslash takes two characters of. -/
theorem escape_induction {P : List Char → Prop} (nil : P []) (last : P ['\\'])
    (escape : ∀ b y, P y → P ('\\' :: b :: y)) (cons : ∀ a y, a ≠ '\\' → P y → P (a :: y)) :
    ∀ y, P y
  | [] => nil
  | [a] => if h : a = '\\' then h ▸ last else cons a [] h nil
  | a :: b :: y =>
    if h : a = '\\' then h ▸ escape b y (escape_induction nil last escape cons y)
    else cons a (b :: y) h (escape_induction nil last escape cons (b :: y))

/-- A body goes on up to a quote or a line end. -/
theorem bodyLength_cons {a : Char} (ha : a ≠ '\\') : bodyLength quote (a :: cs) =
    if a = quote ∨ a = '\r' ∨ a = '\n' then 0 else bodyLength quote cs + 1 := by
  cases cs <;> simp [bodyLength, ha]

/-- A pair with a backslash belongs to the body, unless the line ends behind the backslash. -/
theorem bodyLength_escape {b : Char} : bodyLength quote ('\\' :: b :: cs) =
    if b = '\n' then 0 else bodyLength quote cs + 2 := by
  rw [bodyLength, if_pos rfl]

/-- A body that is closed within the first part of a text is closed there before any rest. -/
theorem bodyLength_local (hquote : quote ≠ '\\') (v w : List Char) :
    ((y ++ v).drop (bodyLength quote (y ++ v))).head? = some quote →
      bodyLength quote (y ++ v) < y.length →
        bodyLength quote (y ++ w) = bodyLength quote (y ++ v) := by
  induction y using escape_induction with
  | nil => exact fun _ hlt => absurd hlt (Nat.not_lt_zero _)
  | last =>
    -- a backslash in front of the rest takes its first character too, or ends the body
    rcases v with - | ⟨b, v⟩
    · intro hclosed _
      exact absurd (by simpa [bodyLength] using hclosed.symm) hquote
    · rw [List.singleton_append, bodyLength_escape]
      split
      · intro hclosed _
        exact absurd (Option.some.inj hclosed).symm hquote
      · intro _ hlt
        simp at hlt
  | escape b y ih =>
    simp only [List.cons_append, bodyLength_escape]
    split
    · intros
      rfl
    · intro hclosed hlt
      rw [ih (by simpa using hclosed) (by simpa using hlt)]
  | cons a y ha ih =>
    simp only [List.cons_append, bodyLength_cons ha]
    split
    · intros
      rfl
    · intro hclosed hlt
      rw [ih (by simpa using hclosed) (by simpa using hlt)]

/-- A body is within its line, whatever is behind that. -/
theorem bodyLength_line (quote : Char) (y v w : List Char) :
    bodyLength quote (y ++ '\n' :: v) = bodyLength quote (y ++ '\n' :: w) ∧
      bodyLength quote (y ++ '\n' :: w) ≤ y.length := by
  have hbreak : ∀ cs, bodyLength quote ('\n' :: cs) = 0 := fun cs => by
    rw [bodyLength_cons (by decide), if_pos (.inr (.inr rfl))]
  induction y using escape_induction with
  | nil => simp [hbreak]
  | last => simp [bodyLength_escape]
  | escape b y ih =>
    simp only [List.cons_append, bodyLength_escape, List.length_cons]
    split
    · exact ⟨rfl, Nat.zero_le _⟩
    · exact ⟨by rw [ih.1], by omega⟩
  | cons a y ha ih =>
    simp only [List.cons_append, bodyLength_cons ha, List.length_cons]
    split
    · exact ⟨rfl, Nat.zero_le _⟩
    · exact ⟨by rw [ih.1], by omega⟩

/-! ### What is found at a quote -/

/-- Where no literal is found at a quote, no letters before it make it one. -/
theorem scanString?_quoted_eq_none_iff (hp : IsStringPrefix p) (hquote : isQuote quote = true) :
    scanString? (p ++ quote :: r) = none ↔ r.take 2 ≠ [quote, quote] ∧
      (r.drop (bodyLength quote r)).head? ≠ some quote ∧ bodyLength quote r = 0 := by
  rw [scanString?_quoted hp hquote]
  by_cases htriple : r.take 2 = [quote, quote]
  · rw [if_pos htriple]
    cases tripleLength? quote (r.drop 2) <;> simp [htriple]
  · rw [if_neg htriple]
    by_cases hclosed : (r.drop (bodyLength quote r)).head? = some quote
    · simp [hclosed]
    · rw [if_neg hclosed]
      simp only [ne_eq, htriple, hclosed, not_false_eq_true, true_and]
      split <;> simp_all

/-- The letters before a quote are all of a word. -/
theorem wordLength_letters (hletters : ∀ c ∈ p, isStringLetter c = true)
    (hquote : isQuote quote = true) : wordLength (p ++ quote :: r) = p.length := by
  have hstarts : "rRbBuUfF".toList.all startsIdentifier = true := by decide
  have hcontinues : "rRbBuUfF".toList.all continuesIdentifier = true := by decide
  have hmem : ∀ c ∈ p, c ∈ "rRbBuUfF".toList := fun c hc => List.contains_iff_mem.1 (hletters c hc)
  cases p with
  | nil => exact Confined.wordLength.eq_zero (headIn_cons (mem_foreignChars_of_isQuote hquote))
  | cons c p =>
    have hstart := List.all_eq_true.1 hstarts c (hmem c List.mem_cons_self)
    have hrun : ∀ d ∈ p, continuesIdentifier d = true := fun d hd =>
      List.all_eq_true.1 hcontinues d (hmem d (List.mem_cons_of_mem _ hd))
    have hstop : continuesIdentifier quote = false :=
      eq_false_of_mem (by decide) (mem_foreignChars_of_isQuote hquote)
    rw [List.cons_append, wordLength, if_pos hstart, runLength,
      List.takeWhile_append_of_pos hrun, List.takeWhile_cons, hstop]
    simp [Nat.add_comm]

/-- A literal is a token, or bad. -/
theorem ne_skip_of_scanString? (h : scanString? cs = some s) (n : Nat) : s ≠ .skip n := by
  rintro rfl
  obtain ⟨p, quote, r, rfl, hp, hquote⟩ := exists_quoted h
  rw [scanString?_quoted hp hquote] at h
  split at h
  · split at h <;> cases Option.some.inj h
  · split at h
    · cases Option.some.inj h
    · split at h
      · cases h
      · cases Option.some.inj h

/-- A closing is found within the text. -/
theorem length_le_of_tripleLength? (h : tripleLength? quote cs = some n) : n ≤ cs.length := by
  obtain ⟨body, rest, rfl, rfl⟩ := exists_of_tripleLength? h
  simp

/-- A literal takes characters, and no more than there are. -/
theorem length_le_of_scanString? (h : scanString? cs = some (.token t n)) :
    0 < n ∧ n ≤ cs.length := by
  obtain ⟨p, quote, r, rfl, hp, hquote⟩ := exists_quoted h
  obtain ⟨-, ⟨htriple, k, hk, rfl⟩ | ⟨-, hclosed, rfl⟩⟩ := quoted_cases hp hquote h
  · have hle := length_le_of_tripleLength? hk
    have htwo := two_le_length_of_take htriple
    rw [List.length_drop] at hle
    rw [List.length_append, List.length_cons]
    omega
  · have hlt : bodyLength quote r < r.length := by
      refine Nat.lt_of_not_le fun hge => ?_
      rw [List.drop_eq_nil_of_le hge] at hclosed
      cases hclosed
    rw [List.length_append, List.length_cons]
    omega

/-! ### Literals before a gap -/

/-- What begins both a text and its first part is the start of that part. -/
theorem exists_append_of_length_le {y ds : List Char} (h : x ++ v = y ++ ds)
    (hle : y.length ≤ x.length) : ∃ m, x = y ++ m := by
  obtain ⟨m, hm⟩ := List.prefix_of_prefix_length_le ⟨ds, h.symm⟩ (List.prefix_append x v) hle
  exact ⟨m, hm.symm⟩

/-- A text before a gap begins a literal only within itself. -/
theorem exists_quoted_within (h : scanString? (x ++ w) = some s) (hw : HeadIn gapChars w) :
    ∃ p quote y, x = p ++ quote :: y ∧ IsStringPrefix p ∧ isQuote quote = true := by
  obtain ⟨p, quote, r, hx, hp, hquote⟩ := exists_quoted h
  rcases Nat.lt_or_ge p.length x.length with hlt | hge
  · obtain ⟨_, y, rfl, hr⟩ := exists_cons_of_length_lt hx hlt
    obtain ⟨rfl, _⟩ := List.cons.inj hr
    exact ⟨p, quote, y, rfl, hp, hquote⟩
  · -- else the gap would begin with a letter or with the quote
    exfalso
    obtain ⟨m, rfl⟩ := exists_append_of_length_le hx.symm hge
    rw [List.append_assoc] at hx
    have hm := List.append_cancel_left hx
    cases m with
    | nil => exact not_mem_gapChars_of_isQuote hquote (hw quote (by rw [hm]; rfl))
    | cons d m =>
      have hd := hp.2 d (List.mem_append_right x List.mem_cons_self)
      exact not_mem_gapChars_of_isStringLetter hd (hw d (by rw [hm]; rfl))

/-- A literal within the first part of a text is found there before any gap. -/
theorem scanString?_local (h : scanString? (x ++ v) = some (.token t n)) (hn : n ≤ x.length)
    (hw : HeadIn gapChars w) : scanString? (x ++ w) = some (.token t n) := by
  obtain ⟨p, quote, r, hx, hp, hquote⟩ := exists_quoted h
  rw [hx] at h
  obtain ⟨rfl, hcases⟩ := quoted_cases hp hquote h
  have hlt : p.length < x.length := by
    rcases hcases with ⟨_, k, _, rfl⟩ | ⟨_, _, rfl⟩ <;> omega
  obtain ⟨_, y, rfl, hr⟩ := exists_cons_of_length_lt hx hlt
  rw [List.cons_append] at hr
  obtain ⟨rfl, rfl⟩ := List.cons.inj hr
  have htake := (take_quoted hn v).trans (take_quoted hn w).symm
  rw [List.length_append, List.length_cons] at hn
  rw [htake, List.append_assoc, List.cons_append, scanString?_quoted hp hquote]
  rcases hcases with ⟨htriple, k, hk, rfl⟩ | ⟨hsingle, hclosed, rfl⟩
  · have hy : 2 ≤ y.length := by omega
    rw [List.take_append_of_le_length hy] at htriple ⊢
    rw [List.drop_append_of_le_length hy] at hk ⊢
    have hle : k ≤ (y.drop 2).length := by
      rw [List.length_drop]
      omega
    rw [if_pos htriple, tripleLength?_append (tripleLength?_of_append hk hle)]
  · have hbody : bodyLength quote (y ++ v) < y.length := by omega
    have hsame := bodyLength_local (ne_of_isQuote hquote rfl) v w hclosed hbody
    have htwo : (y ++ w).take 2 ≠ [quote, quote] := by
      rw [ne_eq, take_two_gap hquote hw]
      intro htwo
      rw [List.take_append_of_le_length (two_le_length_of_take htwo)] at hsingle
      exact hsingle htwo
    have hhead : ((y ++ w).drop (bodyLength quote (y ++ v))).head? = some quote := by
      rw [List.drop_append_of_le_length (Nat.le_of_lt hbody)] at hclosed ⊢
      have hne : y.drop (bodyLength quote (y ++ v)) ≠ [] :=
        List.length_pos_iff.1 (by rw [List.length_drop]; omega)
      rwa [List.head?_append_of_ne_nil _ hne] at hclosed ⊢
    rw [if_neg htwo, hsame, if_pos hhead]

/-- A quote that begins no literal is bad. -/
theorem scan_lone_quote (hquote : isQuote quote = true) (h : scanString? (quote :: r) = none) :
    scan (quote :: r) = .bad 1 := by
  rcases scan_lexical_cases (not_mem_gapChars_of_isQuote hquote) h with ⟨hbad, _⟩ | ⟨hmem, hpos, _⟩
  · exact hbad
  · obtain ⟨_, f, hf, hlength⟩ := exists_confined hmem
    rw [hlength, hf.eq_zero (headIn_cons (mem_foreignChars_of_isQuote hquote))] at hpos
    exact absurd hpos (Nat.lt_irrefl 0)

/-- The letters before a quote are scanned as a word if no literal is found there. -/
theorem length_scan_letters (hp : IsStringPrefix p) (hne : p ≠ []) (hquote : isQuote quote = true)
    (h : scanString? (p ++ quote :: r) = none) : (scan (p ++ quote :: r)).length = p.length := by
  obtain ⟨c, p, rfl⟩ := List.exists_cons_of_ne_nil hne
  have hc := not_mem_gapChars_of_isStringLetter (hp.2 c List.mem_cons_self)
  rw [List.cons_append] at h ⊢
  have hword : .token (wordToken (String.ofList ((c :: (p ++ quote :: r)).take (p.length + 1))))
      (p.length + 1) ∈ lexicals (c :: (p ++ quote :: r)) := by
    have hlength : wordLength (c :: (p ++ quote :: r)) = p.length + 1 :=
      wordLength_letters hp.2 hquote
    rw [← hlength]
    exact .head _
  rcases scan_lexical_cases hc h with ⟨_, hzero⟩ | ⟨hscan, _, hmax⟩
  · exact absurd (hzero _ hword) (Nat.succ_ne_zero _)
  · obtain ⟨_, f, hf, hlength⟩ := exists_confined hscan
    refine Nat.le_antisymm ?_ (hmax _ hword)
    rw [hlength]
    exact hf.within (c :: p) _ (headIn_cons (mem_foreignChars_of_isQuote hquote))

/-! ### Literals in a line -/

/-- Three quotes that open a literal in the line `x` close it there or nowhere, whichever of
the two texts stands behind the line. -/
def ClosesInLine (x v w : List Char) : Prop :=
  ∀ p quote y, x = p ++ quote :: y → IsStringPrefix p → isQuote quote = true →
    y.take 2 = [quote, quote] →
      tripleLength? quote (y.drop 2 ++ '\n' :: w) = tripleLength? quote (y.drop 2 ++ '\n' :: v) ∧
        ∀ n, tripleLength? quote (y.drop 2 ++ '\n' :: v) = some n → n ≤ (y.drop 2).length

/-- A line break is the beginning of a gap. -/
theorem headIn_line (v : List Char) : HeadIn gapChars ('\n' :: v) := headIn_cons (by decide)

/-- A literal between triple quotes that close it in its line or nowhere. -/
theorem scanString?_line_triple (hp : IsStringPrefix p) (hquote : isQuote quote = true)
    (htriple : y.take 2 = [quote, quote])
    (hsame : tripleLength? quote (y.drop 2 ++ '\n' :: w) =
      tripleLength? quote (y.drop 2 ++ '\n' :: v))
    (hwithin : ∀ n, tripleLength? quote (y.drop 2 ++ '\n' :: v) = some n → n ≤ (y.drop 2).length) :
    scanString? (p ++ quote :: (y ++ '\n' :: w)) =
      scanString? (p ++ quote :: (y ++ '\n' :: v)) := by
  have hlength := two_le_length_of_take htriple
  rw [scanString?_quoted hp hquote, scanString?_quoted hp hquote,
    if_pos ((take_two_gap hquote (headIn_line w)).2 htriple),
    if_pos ((take_two_gap hquote (headIn_line v)).2 htriple),
    List.drop_append_of_le_length hlength, List.drop_append_of_le_length hlength, hsame]
  cases hclosed : tripleLength? quote (y.drop 2 ++ '\n' :: v) with
  | none => rfl
  | some n =>
    have hn : p.length + 3 + n ≤ (p ++ quote :: y).length := by
      have hn := hwithin n hclosed
      rw [List.length_drop] at hn
      rw [List.length_append, List.length_cons]
      omega
    dsimp only
    rw [take_quoted hn, take_quoted hn]

/-- A literal between single quotes, or what is found without the one that closes it. -/
theorem scanString?_line_single (hp : IsStringPrefix p) (hquote : isQuote quote = true)
    (hsingle : y.take 2 ≠ [quote, quote]) (v w : List Char) :
    scanString? (p ++ quote :: (y ++ '\n' :: w)) =
      scanString? (p ++ quote :: (y ++ '\n' :: v)) := by
  obtain ⟨hbody, hle⟩ := bodyLength_line quote y w v
  have hhead : ∀ u, ((y ++ '\n' :: u).drop (bodyLength quote (y ++ '\n' :: v))).head? =
      (y.drop (bodyLength quote (y ++ '\n' :: v))).head?.or (some '\n') := by
    intro u
    rw [List.drop_append_of_le_length hle, List.head?_append, List.head?_cons]
  rw [scanString?_quoted hp hquote, scanString?_quoted hp hquote,
    if_neg (mt (take_two_gap hquote (headIn_line w)).1 hsingle),
    if_neg (mt (take_two_gap hquote (headIn_line v)).1 hsingle), hbody, hhead, hhead]
  split
  · rename_i hclosed
    have hlt : bodyLength quote (y ++ '\n' :: v) < y.length := by
      refine Nat.lt_of_le_of_ne hle fun heq => ?_
      rw [heq, List.drop_length] at hclosed
      exact ne_of_isQuote hquote (c := '\n') rfl (Option.some.inj hclosed).symm
    have hn : p.length + bodyLength quote (y ++ '\n' :: v) + 2 ≤ (p ++ quote :: y).length := by
      rw [List.length_append, List.length_cons]
      omega
    rw [take_quoted hn, take_quoted hn]
  · rfl

/-- **What a quote begins in a line does not depend on the lines behind it**, if the line
closes what it opens with three quotes. -/
theorem scanString?_line (h : ClosesInLine x v w) :
    scanString? (x ++ '\n' :: w) = scanString? (x ++ '\n' :: v) := by
  by_cases hstart : ∃ p quote y, x = p ++ quote :: y ∧ IsStringPrefix p ∧ isQuote quote = true
  · obtain ⟨p, quote, y, rfl, hp, hquote⟩ := hstart
    rw [List.append_assoc, List.append_assoc, List.cons_append, List.cons_append]
    by_cases htriple : y.take 2 = [quote, quote]
    · obtain ⟨hsame, hwithin⟩ := h p quote y rfl hp hquote htriple
      exact scanString?_line_triple hp hquote htriple hsame hwithin
    · exact scanString?_line_single hp hquote htriple v w
  · have hnone : ∀ u, scanString? (x ++ '\n' :: u) = none := by
      intro u
      by_contra hsome
      obtain ⟨s, hsome⟩ := Option.ne_none_iff_exists'.1 hsome
      exact hstart (exists_quoted_within hsome (headIn_line u))
    rw [hnone, hnone]

end Source
end Lineage
