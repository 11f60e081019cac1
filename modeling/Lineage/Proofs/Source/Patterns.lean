/-
# Patterns end at a gap

A gap is what stands between tokens or ends a line; it begins with one of a few characters
(`gapChars`).  Words, numbers and the tokens with one spelling take none of them and no
quote, and what they find within the first part of a text, they find in it alone
(`Confined`).  So what is behind a gap does not change which of them match, or for how long
(`lexicals_congr`), and at a gap nothing matches but its own pattern (`scan_gap`).
-/

import Lineage.Proofs.Source.Spelling
import Mathlib.Data.List.Basic

namespace Lineage
namespace Source

open Text

variable {cs cs' x v w : List Char} {c : Char} {f g : List Char → Nat} {p q : Char → Bool}
  {s : Scan} {t : Token} {n : Nat}

/-! ### Gaps -/

/-- The characters that a gap begins with: those of blanks, comments, joined lines and line
breaks. -/
def gapChars : List Char := [' ', '\t', '\x0c', '#', '\\', '\n', '\r']

/-- The characters that no word, no number and no token with one spelling has. -/
def foreignChars : List Char := '"' :: '\'' :: gapChars

/-- The text ends, or goes on with one of the characters. -/
def HeadIn (chars v : List Char) : Prop := ∀ c, v.head? = some c → c ∈ chars

/-- The end of a text counts as any of the characters. -/
theorem headIn_nil (chars : List Char) : HeadIn chars [] := fun _ h => nomatch h

/-- A text begins with its first character. -/
theorem headIn_cons {chars : List Char} (h : c ∈ chars) : HeadIn chars (c :: cs) := by
  intro d hd
  rwa [← Option.some.inj hd]

/-- What a gap begins with is foreign. -/
theorem mem_foreignChars (h : c ∈ gapChars) : c ∈ foreignChars :=
  List.mem_cons_of_mem _ (List.mem_cons_of_mem _ h)

/-- The blanks are the space, the tab and the form feed. -/
theorem isBlank_iff : isBlank c = true ↔ c = ' ' ∨ c = '\t' ∨ c = '\x0c' := by
  simp [isBlank, or_assoc]

/-- A gap begins with a blank, a comment, a backslash or a line end. -/
theorem mem_gapChars_iff :
    c ∈ gapChars ↔ isBlank c = true ∨ c = '#' ∨ c = '\\' ∨ c = '\n' ∨ c = '\r' := by
  simp [gapChars, isBlank_iff, or_assoc]

/-- A text that goes on with a gap goes on with a foreign character. -/
theorem HeadIn.foreign (h : HeadIn gapChars v) : HeadIn foreignChars v :=
  fun c hc => mem_foreignChars (h c hc)

/-- Where no character of a list is in a class, a character of the list is not. -/
theorem eq_false_of_mem {chars : List Char} (h : chars.all (!p ·) = true) (hc : c ∈ chars) :
    p c = false := by
  simpa using List.all_eq_true.1 h c hc

/-- Where no character of a list is in a class, one of the class is not in the list. -/
theorem not_mem_of_holds {chars : List Char} (h : chars.all (!p ·) = true) (hc : p c = true) :
    c ∉ chars := fun hmem => by
  rw [eq_false_of_mem h hmem] at hc
  cases hc

/-! ### Patterns without foreign characters -/

/-- The length of a pattern that takes no foreign character: it ends before one, and what is
found within the first part of a text is found without the rest. -/
structure Confined (f : List Char → Nat) : Prop where
  within : ∀ x v, HeadIn foreignChars v → f (x ++ v) ≤ x.length
  keeps : ∀ x v, f (x ++ v) ≤ x.length → f x = f (x ++ v)

/-- A character of a class, then what the pattern finds. -/
def headThen (q : Char → Bool) (f : List Char → Nat) : List Char → Nat
  | [] => 0
  | c :: cs => if q c then f cs + 1 else 0

/-- A character of a class, then what the pattern finds, if it finds something. -/
def headNeeds (q : Char → Bool) (f : List Char → Nat) : List Char → Nat
  | [] => 0
  | c :: cs => if q c ∧ 0 < f cs then f cs + 1 else 0

/-- The first character is taken with what the pattern finds behind it, if it is of the class. -/
theorem headThen_cons (q : Char → Bool) (f : List Char → Nat) (c : Char) (cs : List Char) :
    headThen q f (c :: cs) = if q c then f cs + 1 else 0 := rfl

/-- The first character is taken if it is of the class and the pattern finds something behind it. -/
theorem headNeeds_cons (q : Char → Bool) (f : List Char → Nat) (c : Char) (cs : List Char) :
    headNeeds q f (c :: cs) = if q c ∧ 0 < f cs then f cs + 1 else 0 := rfl

/-- What a pattern finds, then what another one finds behind it. -/
def andThen (f g : List Char → Nat) (cs : List Char) : Nat := f cs + g (cs.drop (f cs))

/-- The length of a mark, if the text starts with it. -/
def markLength (mark cs : List Char) : Nat := if (after? mark cs).isSome then mark.length else 0

namespace Confined

/-- A confined pattern takes no more characters than there are. -/
theorem le_length (h : Confined f) (cs : List Char) : f cs ≤ cs.length := by
  simpa using h.within cs [] (headIn_nil _)

/-- A confined pattern finds nothing in front of a foreign character. -/
theorem eq_zero (h : Confined f) (hv : HeadIn foreignChars v) : f v = 0 :=
  Nat.le_zero.1 (h.within [] v hv)

/-- What is found within the first part of a text is found there before any foreign character. -/
theorem before_foreign (h : Confined f) (hle : f (x ++ v) ≤ x.length) (hw : HeadIn foreignChars w) :
    f (x ++ w) = f (x ++ v) :=
  (h.keeps x w (h.within x w hw)).symm.trans (h.keeps x v hle)

/-- A run of a class without foreign characters is confined. -/
theorem run (hp : foreignChars.all (!p ·) = true) : Confined (runLength p) := by
  have hcons : ∀ c cs, runLength p (c :: cs) = if p c then runLength p cs + 1 else 0 := by
    intro c cs
    unfold runLength
    cases hc : p c <;> simp [hc]
  have hzero : ∀ v, HeadIn foreignChars v → runLength p v = 0 := by
    rintro (- | ⟨c, v⟩) hv
    · rfl
    · rw [hcons, eq_false_of_mem hp (hv c rfl)]
      rfl
  refine ⟨fun x v hv => ?_, fun x v hle => ?_⟩
  · induction x with
    | nil => exact Nat.le_of_eq (hzero v hv)
    | cons c x ih =>
      rw [List.cons_append, hcons, List.length_cons]
      split <;> omega
  · induction x with
    | nil => exact (Nat.le_zero.1 hle).symm
    | cons c x ih =>
      rw [List.cons_append, hcons, List.length_cons] at hle
      rw [List.cons_append, hcons, hcons]
      split
      · rename_i hc
        rw [if_pos hc] at hle
        rw [ih (by omega)]
      · rfl

/-- A pattern of one character more, which depends on the character and on the length behind
it: a foreign character is never taken, and one that is taken at all is refused only before
nothing. -/
theorem ofHead {f' : List Char → Nat} {P : Char → Nat → Prop} [∀ c n, Decidable (P c n)]
    (hf : Confined f) (hnil : f' [] = 0)
    (hcons : ∀ c cs, f' (c :: cs) = if P c (f cs) then f cs + 1 else 0)
    (hforeign : ∀ c ∈ foreignChars, ∀ n, ¬P c n)
    (hrefused : ∀ c n, P c n ∨ n = 0 ∨ ∀ k, ¬P c k) : Confined f' := by
  refine ⟨fun x v hv => ?_, fun x v hle => ?_⟩
  · rcases x with - | ⟨c, x⟩
    · rcases v with - | ⟨c, v⟩
      · exact Nat.le_of_eq hnil
      · rw [List.nil_append, hcons, if_neg (hforeign c (hv c rfl) _)]
        exact Nat.le_refl 0
    · have hx := hf.within x v hv
      rw [List.cons_append, hcons, List.length_cons]
      split <;> omega
  · rcases x with - | ⟨c, x⟩
    · exact hnil.trans (Nat.le_zero.1 hle).symm
    · rw [List.cons_append, hcons, List.length_cons] at hle
      rw [List.cons_append, hcons, hcons]
      rcases hrefused c (f (x ++ v)) with htaken | hzero | hnever
      · rw [if_pos htaken] at hle
        rw [hf.keeps x v (by omega)]
      · rw [hf.keeps x v (by omega)]
      · rw [if_neg (hnever _), if_neg (hnever _)]

/-- A character of a class in front of a confined pattern is confined. -/
theorem headThen (hq : foreignChars.all (!q ·) = true) (hf : Confined f) :
    Confined (headThen q f) := by
  refine hf.ofHead (P := fun c _ => q c = true) rfl (headThen_cons q f)
    (fun c hc _ => ?_) fun c _ => ?_
  · rw [eq_false_of_mem hq hc]
    exact nofun
  · by_cases hc : q c = true
    · exact .inl hc
    · exact .inr (.inr fun _ => hc)

/-- A character of a class that needs a confined pattern behind it is confined. -/
theorem headNeeds (hq : foreignChars.all (!q ·) = true) (hf : Confined f) :
    Confined (headNeeds q f) := by
  refine hf.ofHead (P := fun c n => q c = true ∧ 0 < n) rfl (headNeeds_cons q f)
    (fun c hc _ => ?_) fun c n => ?_
  · rw [eq_false_of_mem hq hc]
    exact nofun
  · by_cases hc : q c = true
    · exact (Nat.eq_zero_or_pos n).symm.imp (⟨hc, ·⟩) .inl
    · exact .inr (.inr fun _ h => hc h.1)

/-- One confined pattern behind another is confined. -/
theorem andThen (hf : Confined f) (hg : Confined g) : Confined (andThen f g) := by
  have hdrop : ∀ x v, f (x ++ v) ≤ x.length →
      (x ++ v).drop (f (x ++ v)) = x.drop (f (x ++ v)) ++ v :=
    fun x v hle => List.drop_append_of_le_length hle
  refine ⟨fun x v hv => ?_, fun x v hle => ?_⟩
  · have hfirst := hf.within x v hv
    have hsecond := hg.within (x.drop (f (x ++ v))) v hv
    rw [Source.andThen, hdrop x v hfirst]
    rw [List.length_drop] at hsecond
    omega
  · unfold Source.andThen at hle ⊢
    have hfirst : f (x ++ v) ≤ x.length := Nat.le_trans (Nat.le_add_right _ _) hle
    rw [hdrop x v hfirst] at hle ⊢
    rw [hf.keeps x v hfirst, hg.keeps _ v (by rw [List.length_drop]; omega)]

/-- The longer of two confined patterns is confined. -/
theorem max (hf : Confined f) (hg : Confined g) : Confined fun cs => max (f cs) (g cs) := by
  refine ⟨fun x v hv => Nat.max_le.2 ⟨hf.within x v hv, hg.within x v hv⟩, fun x v hle => ?_⟩
  obtain ⟨hleft, hright⟩ := Nat.max_le.1 hle
  rw [hf.keeps x v hleft, hg.keeps x v hright]

/-! ### The patterns of words and numbers -/

/-- A word has no foreign character. -/
theorem wordLength : Confined wordLength := by
  have heq : Source.wordLength =
      Source.headThen startsIdentifier (runLength continuesIdentifier) := by
    funext cs
    cases cs with
    | nil => rfl
    | cons c cs => rw [headThen_cons, Source.wordLength, Nat.add_comm]
  rw [heq]
  exact .headThen (by decide) (.run (by decide))

/-- The digits of an exponent, behind a sign or without one. -/
theorem exponentLength : Confined exponentLength := by
  have heq : Source.exponentLength = Source.headNeeds (fun e => e == 'e' || e == 'E')
      fun cs => Nat.max (Source.headNeeds (fun s => s == '+' || s == '-') (runLength isDigit) cs)
        (runLength isDigit cs) := by
    funext cs
    rcases cs with - | ⟨e, - | ⟨s, cs⟩⟩
    · rfl
    · simp [Source.exponentLength, Source.headNeeds, runLength]
    · rw [headNeeds_cons, headNeeds_cons, Source.exponentLength]
      cases he : e == 'e' || e == 'E' with
      | false => simp
      | true =>
        cases hs : s == '+' || s == '-' with
        | true =>
          have hdigit : runLength isDigit (s :: cs) = 0 := by
            rcases (by simpa using hs : s = '+' ∨ s = '-') with rfl | rfl <;> rfl
          simp only [hdigit, if_true, List.drop_succ_cons, List.drop_zero, true_and]
          cases runLength isDigit cs with
          | zero => rfl
          | succ n => simp; omega
        | false =>
          simp only [Bool.false_eq_true, if_false, if_true, List.drop_zero, true_and, false_and]
          cases runLength isDigit (s :: cs) with
          | zero => rfl
          | succ n => simp; omega
  rw [heq]
  exact .headNeeds (by decide) (.max (.headNeeds (by decide) (.run (by decide))) (.run (by decide)))

/-- The mark of an imaginary number is no foreign character. -/
theorem imaginaryLength : Confined imaginaryLength := by
  have heq : Source.imaginaryLength =
      Source.headThen (fun c => c == 'j' || c == 'J') fun _ => 0 := by
    funext cs
    cases cs <;> rfl
  rw [heq]
  exact .headThen (by decide) ⟨fun _ _ _ => Nat.zero_le _, fun _ _ _ => rfl⟩

/-- What follows the digits of a number has no foreign character. -/
theorem numberTailLength : Confined numberTailLength :=
  .andThen .exponentLength .imaginaryLength

/-- A decimal number has no foreign character. -/
theorem decimalLength : Confined decimalLength := by
  have heq : Source.decimalLength = Source.headThen isDigit (Source.andThen (runLength isNumberChar)
      (Source.andThen (Source.headThen (· == '.') (runLength isNumberChar))
        Source.numberTailLength)) := by
    funext cs
    cases cs with
    | nil => rfl
    | cons c cs =>
      rw [headThen_cons, Source.decimalLength]
      cases isDigit c with
      | false => rfl
      | true =>
        simp only [if_true, Nat.add_comm 1 (runLength isNumberChar cs), List.drop_succ_cons,
          Nat.add_right_comm _ 1, Source.andThen]
        generalize runLength isNumberChar cs = whole
        have hdrop : ∀ k, cs.drop (whole + k) = (cs.drop whole).drop k := fun k => by
          rw [List.drop_drop]
        simp only [hdrop]
        rcases cs.drop whole with - | ⟨d, rest⟩
        · simp [Source.headThen]
        · by_cases hd : d = '.'
          · subst hd
            simpa [headThen_cons] using Nat.add_assoc _ _ _
          · simp [headThen_cons, hd]
  rw [heq]
  exact .headThen (by decide)
    (.andThen (.run (by decide)) (.andThen (.headThen (by decide) (.run (by decide)))
      .numberTailLength))

/-- A number that starts with its point has no foreign character. -/
theorem pointedLength : Confined pointedLength := by
  have heq : Source.pointedLength = Source.headNeeds (· == '.') (Source.headThen isDigit
      (Source.andThen (runLength isNumberChar) Source.numberTailLength)) := by
    funext cs
    rcases cs with - | ⟨a, - | ⟨c, cs⟩⟩
    · rfl
    · simp [Source.pointedLength, headNeeds_cons, Source.headThen]
    · rw [headNeeds_cons, headThen_cons]
      by_cases ha : a = '.'
      · subst ha
        rw [Source.pointedLength]
        cases isDigit c with
        | false => simp
        | true =>
          simp only [Source.andThen, Nat.add_comm 2, List.drop_succ_cons]
          simp
          omega
      · simp [Source.pointedLength, ha]
  rw [heq]
  exact .headNeeds (by decide)
    (.headThen (by decide) (.andThen (.run (by decide)) .numberTailLength))

/-- A number with a radix prefix has no foreign character. -/
theorem radixLength : Confined radixLength := by
  have heq : Source.radixLength = Source.headNeeds (· == '0')
      (Source.headNeeds ("xXoObB".toList.contains ·) (runLength isRadixChar)) := by
    funext cs
    rcases cs with - | ⟨a, - | ⟨c, cs⟩⟩
    · rfl
    · simp [Source.radixLength, Source.headNeeds]
    · rw [headNeeds_cons, headNeeds_cons]
      by_cases ha : a = '0'
      · subst ha
        rw [Source.radixLength]
        cases "xXoObB".toList.contains c with
        | false => simp
        | true =>
          cases runLength isRadixChar cs with
          | zero => rfl
          | succ n => simp; omega
      · simp [Source.radixLength, ha]
  rw [heq]
  exact .headNeeds (by decide) (.headNeeds (by decide) (.run (by decide)))

/-- A mark without foreign characters is confined. -/
theorem markLength {mark : List Char} (hmark : ∀ c ∈ mark, c ∉ foreignChars) :
    Confined (markLength mark) := by
  refine ⟨fun x v hv => ?_, fun x v hle => ?_⟩
  · unfold Source.markLength
    split
    · rename_i hsome
      obtain ⟨rest, hrest⟩ := Option.isSome_iff_exists.1 hsome
      refine Nat.le_of_not_lt fun hlt => ?_
      obtain ⟨d, m, hd, hv'⟩ := exists_cons_of_length_lt (after?_eq_some_iff.1 hrest).symm hlt
      exact hmark d (hd ▸ List.mem_append_right x List.mem_cons_self) (hv d (by rw [hv']; rfl))
    · exact Nat.zero_le _
  · suffices (after? mark x).isSome = (after? mark (x ++ v)).isSome by
      simp only [Source.markLength, this]
    rw [Bool.eq_iff_iff, Option.isSome_iff_exists, Option.isSome_iff_exists]
    simp only [after?_eq_some_iff]
    constructor
    · rintro ⟨rest, rfl⟩
      exact ⟨rest ++ v, List.append_assoc _ _ _⟩
    · rintro ⟨rest, hrest⟩
      rw [Source.markLength, if_pos (by rw [after?_eq_some_iff.2 hrest]; rfl)] at hle
      obtain ⟨m, rfl⟩ :=
        List.prefix_of_prefix_length_le ⟨rest, hrest.symm⟩ (List.prefix_append x v) hle
      exact ⟨m, rfl⟩

end Confined

/-! ### The patterns of a text -/

/-- Tokens with one spelling are not empty, and have no foreign character. -/
theorem fixedTokens_spec : ∀ f ∈ fixedTokens,
    f.1.toList ≠ [] ∧ ∀ c ∈ f.1.toList, c ∉ foreignChars := by
  have hall : fixedTokens.all (fun f =>
      !f.1.toList.isEmpty && f.1.toList.all fun c => !foreignChars.contains c) = true := by decide
  intro f hf
  have hone := List.all_eq_true.1 hall f hf
  rw [Bool.and_eq_true, Bool.not_eq_true', List.all_eq_true] at hone
  refine ⟨fun hnil => ?_, fun c hc hmem => ?_⟩
  · rw [hnil] at hone
    cases hone.1
  · have hforeign := hone.2 c hc
    rw [List.contains_iff_mem.2 hmem] at hforeign
    cases hforeign

/-- A mark is found in both texts or in none if it is found with the same length. -/
theorem isSome_after?_congr {mark : List Char} (hmark : mark ≠ [])
    (h : markLength mark cs' = markLength mark cs) :
    (after? mark cs').isSome = (after? mark cs).isSome := by
  have hpos : mark.length ≠ 0 := mt List.length_eq_zero_iff.1 hmark
  unfold markLength at h
  cases hcs : (after? mark cs).isSome <;> cases hcs' : (after? mark cs').isSome <;> simp_all

/-- The length of a match is that of a pattern without foreign characters. -/
theorem exists_confined (h : s ∈ lexicals cs) :
    (∃ t n, s = .token t n) ∧ ∃ f, Confined f ∧ s.length = f cs := by
  obtain ⟨t, n, rfl, hlexical⟩ := exists_lexical h
  refine ⟨⟨t, n, rfl⟩, ?_⟩
  cases hlexical with
  | word => exact ⟨_, .wordLength, rfl⟩
  | number hn =>
    rcases hn with rfl | rfl | rfl
    · exact ⟨_, .decimalLength, rfl⟩
    · exact ⟨_, .pointedLength, rfl⟩
    · exact ⟨_, .radixLength, rfl⟩
  | fixed hmem hrest =>
    exact ⟨_, .markLength (fixedTokens_spec _ hmem).2, by
      simp [markLength, hrest, Scan.length, String.length_toList]⟩

/-- **What is behind a gap does not change the matches.**  Two texts have the same matches if
they have the same characters as far as the matches of the first one go, and each pattern
finds as much in them. -/
theorem lexicals_congr (h : ∀ f, Confined f → f cs ≤ n → f cs' = f cs)
    (hle : ∀ s ∈ lexicals cs, s.length ≤ n) (htake : cs'.take n = cs.take n) :
    lexicals cs' = lexicals cs := by
  have htaken : ∀ k ≤ n, cs'.take k = cs.take k := fun k hk => by
    rw [← Nat.min_eq_left hk, ← List.take_take, ← List.take_take, htake]
  have hword : wordLength cs ≤ n := hle (.token _ (wordLength cs)) (.head _)
  have hdecimal : decimalLength cs ≤ n := hle (.token _ (decimalLength cs)) (.tail _ (.head _))
  have hpointed : pointedLength cs ≤ n :=
    hle (.token _ (pointedLength cs)) (.tail _ (.tail _ (.head _)))
  have hradix : radixLength cs ≤ n :=
    hle (.token _ (radixLength cs)) (.tail _ (.tail _ (.tail _ (.head _))))
  have hmarks : ∀ f ∈ fixedTokens,
      (after? f.1.toList cs').isSome = (after? f.1.toList cs).isSome := by
    intro f hf
    obtain ⟨hne, hmark⟩ := fixedTokens_spec f hf
    refine isSome_after?_congr hne (h _ (.markLength hmark) ?_)
    unfold markLength
    split
    · rename_i hsome
      obtain ⟨rest, hrest⟩ := Option.isSome_iff_exists.1 hsome
      have hmem : .token f.2 f.1.length ∈ lexicals cs :=
        List.mem_append_right _ (List.mem_filterMap.2 ⟨f, hf, by rw [hrest, Option.map_some]⟩)
      rw [String.length_toList]
      exact hle _ hmem
    · exact Nat.zero_le _
  have hfixed : fixedTokens.filterMap (fun f =>
        (after? f.1.toList cs').map fun _ => Scan.token f.2 f.1.length) =
      fixedTokens.filterMap fun f =>
        (after? f.1.toList cs).map fun _ => Scan.token f.2 f.1.length := by
    refine List.filterMap_congr fun f hf => ?_
    have hsome := hmarks f hf
    cases hrest : after? f.1.toList cs' <;> cases hrest' : after? f.1.toList cs <;> simp_all
  unfold lexicals
  rw [h _ .wordLength hword, h _ .decimalLength hdecimal, h _ .pointedLength hpointed,
    h _ .radixLength hradix, htaken _ hword, htaken _ hdecimal, htaken _ hpointed, htaken _ hradix,
    hfixed]

/-! ### The longest match -/

/-- No match is longer than the one that is taken. -/
theorem length_le_foldl_longer {l : List Scan} {b : Scan} (h : s ∈ b :: l) :
    s.length ≤ (l.foldl Scan.longer b).length := by
  induction l generalizing b s with
  | nil =>
    rw [List.mem_singleton.1 h]
    exact Nat.le_refl _
  | cons a l ih =>
    have hlonger : b.length ≤ (b.longer a).length ∧ a.length ≤ (b.longer a).length := by
      unfold Scan.longer
      split <;> omega
    have hfirst : (b.longer a).length ≤ (l.foldl Scan.longer (b.longer a)).length :=
      ih List.mem_cons_self
    rw [List.foldl_cons]
    rcases List.mem_cons.1 h with rfl | h
    · exact Nat.le_trans hlonger.1 hfirst
    · rcases List.mem_cons.1 h with rfl | h
      · exact Nat.le_trans hlonger.2 hfirst
      · exact ih (List.mem_cons_of_mem _ h)

/-- Empty matches are none. -/
theorem foldl_longer_zero {l : List Scan} (h : ∀ s ∈ l, s.length = 0) (b : Scan) :
    l.foldl Scan.longer b = b := by
  induction l with
  | nil => rfl
  | cons a l ih =>
    have hzero : ¬b.length < a.length := by
      rw [h a List.mem_cons_self]
      exact Nat.not_lt_zero _
    rw [List.foldl_cons, Scan.longer, if_neg hzero]
    exact ih fun s hs => h s (List.mem_cons_of_mem a hs)

/-! ### What is scanned at a gap -/

/-- No string literal begins with a character of a gap. -/
theorem scanString?_gap (hc : c ∈ gapChars) : scanString? (c :: cs) = none := by
  have hquote : isQuote c = false := eq_false_of_mem (by decide) hc
  have hletter : isStringLetter c = false := eq_false_of_mem (by decide) hc
  simp [scanString?, stringStart?, hquote, hletter]

/-- The longest match, or one bad character if there is none. -/
def orBad : Scan → Scan
  | .bad _ => .bad 1
  | s => s

/-- Where no string literal begins, the longest match is what is scanned. -/
theorem scan_eq (h : scanString? cs = none) :
    scan cs = orBad ((candidates cs).foldl Scan.longer (.bad 0)) := by
  unfold scan
  split
  · rename_i s hs
    rw [h] at hs
    cases hs
  · rfl

/-- At a gap no other pattern matches. -/
theorem scan_gap (hc : c ∈ gapChars) :
    scan (c :: cs) = orBad ((gaps (c :: cs)).foldl Scan.longer (.bad 0)) := by
  have hzero : ∀ s ∈ lexicals (c :: cs), s.length = 0 := fun s hs => by
    obtain ⟨_, f, hf, hlength⟩ := exists_confined hs
    rw [hlength, hf.eq_zero (headIn_cons (mem_foreignChars hc))]
  rw [scan_eq (scanString?_gap hc), candidates_eq, List.foldl_append, foldl_longer_zero hzero]

/-- Elsewhere no pattern of a gap matches. -/
theorem scan_lexical (hc : c ∉ gapChars) (h : scanString? (c :: cs) = none) :
    scan (c :: cs) = orBad ((lexicals (c :: cs)).foldl Scan.longer (.bad 0)) := by
  have hzero : ∀ s ∈ gaps (c :: cs), s.length = 0 := by
    simp only [gapChars, List.mem_cons, List.not_mem_nil, or_false, not_or] at hc
    obtain ⟨hspace, htab, hfeed, hhash, hjoin, hline, hreturn⟩ := hc
    simp only [gaps, List.mem_cons, List.not_mem_nil, or_false]
    rintro s (rfl | rfl | rfl | rfl)
    · simp [Scan.length, blanksLength, runLength, isBlank, hspace, htab, hfeed]
    · simp [Scan.length, commentLength, hhash]
    · simp [Scan.length, joinLength, hjoin]
    · simp [Scan.length, breakLength, hline, hreturn]
  rw [scan_eq h, candidates_eq, List.foldl_append, foldl_longer_zero hzero]

/-- What is scanned elsewhere is the longest match, or one bad character. -/
theorem scan_lexical_cases (hc : c ∉ gapChars) (h : scanString? (c :: cs) = none) :
    (scan (c :: cs) = .bad 1 ∧ ∀ s ∈ lexicals (c :: cs), s.length = 0) ∨
      (scan (c :: cs) ∈ lexicals (c :: cs) ∧ 0 < (scan (c :: cs)).length ∧
        ∀ s ∈ lexicals (c :: cs), s.length ≤ (scan (c :: cs)).length) := by
  have hmax : ∀ s ∈ lexicals (c :: cs), _ := fun s hs =>
    length_le_foldl_longer (b := .bad 0) (List.mem_cons_of_mem _ hs)
  rw [scan_lexical hc h]
  rcases List.mem_cons.1 (foldl_longer_mem (lexicals (c :: cs)) (.bad 0)) with heq | hmem
  · rw [heq] at hmax ⊢
    exact .inl ⟨rfl, fun s hs => Nat.le_zero.1 (hmax s hs)⟩
  · obtain ⟨⟨t, n, htoken⟩, _⟩ := exists_confined hmem
    rw [htoken] at hmem hmax ⊢
    refine .inr ⟨hmem, ?_, hmax⟩
    rcases foldl_longer_length (lexicals (c :: cs)) (.bad 0) with heq | hlt
    · rw [htoken] at heq
      cases heq
    · rwa [htoken] at hlt

/-- Blanks are skipped together. -/
theorem scan_blank (hc : isBlank c = true) (cs : List Char) :
    scan (c :: cs) = .skip (blanksLength cs + 1) := by
  have hlength : blanksLength (c :: cs) = blanksLength cs + 1 := by
    simp [blanksLength, runLength, hc]
  have hgaps : gaps (c :: cs) =
      [.skip (blanksLength (c :: cs)), .skip 0, .skip 0, .token .newline 0] := by
    rcases isBlank_iff.1 hc with rfl | rfl | rfl <;> rfl
  rw [scan_gap (mem_gapChars_iff.2 (.inl hc)), hgaps, hlength]
  simp [Scan.longer, Scan.length, orBad]

/-- A comment is skipped to the end of its line. -/
theorem scan_comment (cs : List Char) :
    scan ('#' :: cs) = .skip (runLength (fun c => c != '\r' && c != '\n') cs + 1) := by
  have hgaps : gaps ('#' :: cs) =
      [.skip 0, .skip (1 + runLength (fun c => c != '\r' && c != '\n') cs), .skip 0,
        .token .newline 0] := rfl
  rw [scan_gap (by decide), hgaps, Nat.add_comm]
  simp [Scan.longer, Scan.length, orBad]

/-- A backslash joins lines, or is bad. -/
theorem scan_backslash (cs : List Char) : scan ('\\' :: cs) =
    if breakLength cs = 0 then .bad 1 else .skip (breakLength cs + 1) := by
  have hgaps : gaps ('\\' :: cs) =
      [.skip 0, .skip 0, .skip (joinLength ('\\' :: cs)), .token .newline 0] := rfl
  have hjoin : joinLength ('\\' :: cs) = if breakLength cs = 0 then 0 else breakLength cs + 1 := by
    rw [joinLength]
    cases breakLength cs <;> rfl
  rw [scan_gap (by decide), hgaps, hjoin]
  split <;> simp [Scan.longer, Scan.length, orBad]

/-- A line feed is a `newline`. -/
theorem scan_newline (cs : List Char) : scan ('\n' :: cs) = .token .newline 1 := by
  have hgaps : gaps ('\n' :: cs) = [.skip 0, .skip 0, .skip 0, .token .newline 1] := rfl
  rw [scan_gap (by decide), hgaps]
  rfl

/-- A carriage return is part of a `newline`, or is bad. -/
theorem scan_return (cs : List Char) : scan ('\r' :: cs) =
    if cs.head? = some '\n' then .token .newline 2 else .bad 1 := by
  have hgaps : gaps ('\r' :: cs) =
      [.skip 0, .skip 0, .skip 0, .token .newline (breakLength ('\r' :: cs))] := rfl
  have hbreak : breakLength ('\r' :: cs) = if cs.head? = some '\n' then 2 else 0 := by
    rcases cs with - | ⟨c, cs⟩
    · rfl
    · by_cases hc : c = '\n' <;> simp [breakLength, hc]
  rw [scan_gap (by decide), hgaps, hbreak]
  split <;> rfl

end Source
end Lineage
