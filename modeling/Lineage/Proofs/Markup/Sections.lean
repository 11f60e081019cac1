/-
# Encoding in sections is minimal

A text that needs escaping is cut inside every section close in it and nowhere else
(`CutAtCloses`): there is one section more than there are closes, the first of two sections
side by side ends in the two brackets of a close, and the second one begins with the rest of
it.  No section holds a close, and fewer sections would not do: where two texts meet, one
close at most arises that is in neither of them (`closes_append_le`).
-/

import Lineage.Proofs.Markup.RoundTrip
import Mathlib.Data.List.Infix

namespace Lineage
namespace Markup

open Text

variable {c : Char} {cs a b part : List Char} {parts : List (List Char)}

/-! ### Closes in a text -/

/-- The number of places of a text where a section close begins. -/
def closes (cs : List Char) : Nat := cs.tails.countP cdataClose.toList.isPrefixOf

/-- A text has a close more than its rest if one starts there. -/
theorem closes_cons (c : Char) (cs : List Char) :
    closes (c :: cs) = closes cs + if cdataClose.toList <+: c :: cs then 1 else 0 := by
  rw [closes, List.tails_cons, List.countP_cons]
  simp only [List.isPrefixOf_iff_prefix]
  rfl

/-- No close starts with another character than a bracket. -/
theorem closes_cons_of_ne (h : c ≠ ']') (cs : List Char) : closes (c :: cs) = closes cs := by
  rw [closes_cons, if_neg, Nat.add_zero]
  rw [cdataClose_toList]
  exact fun hclose => h (List.cons_prefix_cons.1 hclose).1.symm

/-- A text has no closes just when it has none in it. -/
theorem closes_eq_zero_iff : closes cs = 0 ↔ ¬ cdataClose.toList <:+: cs := by
  rw [closes, List.countP_eq_zero, List.infix_iff_prefix_suffix]
  simp only [List.mem_tails, List.isPrefixOf_iff_prefix, not_exists, not_and]
  exact ⟨fun h t hclose hsuffix => h t hsuffix hclose, fun h t hsuffix hclose => h t hclose hsuffix⟩

/-- Where two texts meet, at most one close arises. -/
theorem closes_append_le (a b : List Char) : closes (a ++ b) ≤ closes a + closes b + 1 := by
  induction a with
  | nil =>
    rw [List.nil_append]
    omega
  | cons c a ih =>
    rw [List.cons_append, closes_cons, closes_cons c a]
    by_cases hclose : cdataClose.toList <+: c :: (a ++ b)
    · rw [if_pos hclose]
      rw [cdataClose_toList] at hclose ⊢
      -- a close that begins in `a` ends there, or it is the last one to begin there
      match a, ih with
      | [], _ => simp
      | [d], _ =>
        obtain ⟨rest, hrest⟩ := hclose
        obtain ⟨rfl, rfl, rfl⟩ : ']' = c ∧ ']' = d ∧ '>' :: rest = b := by simpa using hrest
        rw [List.singleton_append, closes_cons, cdataClose_toList, if_neg (by simp)]
        omega
      | d :: e :: a, ih =>
        have hwithin : [']', ']', '>'] <+: c :: d :: e :: a :=
          List.prefix_of_prefix_length_le hclose (List.prefix_append (c :: d :: e :: a) b)
            (by simp)
        rw [if_pos hwithin]
        omega
    · rw [if_neg hclose]
      omega

/-- As many closes as places where the parts meet are in a text, if none is in a part. -/
theorem closes_flatten_le (parts : List (List Char)) (a : List Char)
    (h : ∀ part ∈ a :: parts, ¬ cdataClose.toList <:+: part) :
    closes (a :: parts).flatten ≤ parts.length := by
  induction parts generalizing a with
  | nil => simpa using (closes_eq_zero_iff.2 (h a List.mem_cons_self)).le
  | cons b parts ih =>
    obtain ⟨ha, hparts⟩ := List.forall_mem_cons.1 h
    have hmeet := closes_append_le a (b :: parts).flatten
    rw [closes_eq_zero_iff.2 ha] at hmeet
    have hrest := ih b hparts
    rw [List.flatten_cons, List.length_cons]
    omega

/-! ### Parts of a text -/

/-- A character in front of the parts is in front of the first one. -/
theorem exists_prependFirst (c : Char) (hne : parts ≠ []) : ∃ first rest,
    parts = first :: rest ∧ prependFirst c parts = (c :: first) :: rest := by
  obtain ⟨first, rest, rfl⟩ := List.exists_cons_of_ne_nil hne
  exact ⟨first, rest, rfl, rfl⟩

/-- A text has one part at least. -/
theorem sectionParts_ne_nil (cs : List Char) : sectionParts cs ≠ [] := by
  have hprepend : ∀ c parts, prependFirst c parts ≠ [] := by
    intro c parts
    cases parts <;> exact List.cons_ne_nil _ _
  cases cs using sectionParts.induct with
  | case1 => exact List.cons_ne_nil _ _
  | case2 => exact List.cons_ne_nil _ _
  | case3 c cs hclose =>
    rw [sectionParts]
    · exact hprepend _ _
    · exact hclose

/-- There is one part more than there are closes. -/
theorem length_sectionParts (cs : List Char) : (sectionParts cs).length = closes cs + 1 := by
  induction cs using sectionParts.induct with
  | case1 => rfl
  | case2 cs ih =>
    obtain ⟨first, rest, hparts, hprepend⟩ := exists_prependFirst '>' (sectionParts_ne_nil cs)
    have hcloses : closes (']' :: ']' :: '>' :: cs) = closes cs + 1 := by
      rw [closes_cons, closes_cons, closes_cons_of_ne (by decide), cdataClose_toList]
      simp
    rw [hparts] at ih
    rw [sectionParts, hprepend, hcloses, ← ih]
    rfl
  | case3 c cs hclose ih =>
    obtain ⟨first, rest, hparts, hprepend⟩ := exists_prependFirst c (sectionParts_ne_nil cs)
    have hcloses : closes (c :: cs) = closes cs := by
      rw [closes_cons, if_neg, Nat.add_zero]
      rintro ⟨rest, hrest⟩
      rw [cdataClose_toList] at hrest
      obtain ⟨hc, hcs⟩ := List.cons.inj hrest
      exact hclose rest hc.symm hcs.symm
    rw [hparts] at ih
    rw [sectionParts, hprepend, hcloses, ← ih]
    · rfl
    · exact hclose

/-- Every part but the last one ends in the brackets of a close. -/
theorem suffix_of_mem_dropLast_sectionParts (h : part ∈ (sectionParts cs).dropLast) :
    [']', ']'] <:+ part := by
  -- a character in front of a part leaves its end as it is
  have hprepend : ∀ c (cs : List Char) {part}, part ∈ (prependFirst c (sectionParts cs)).dropLast →
      (∀ {part}, part ∈ (sectionParts cs).dropLast → [']', ']'] <:+ part) →
        [']', ']'] <:+ part := by
    intro c cs part hmem ih
    obtain ⟨first, rest, hparts, hprepend⟩ := exists_prependFirst c (sectionParts_ne_nil cs)
    rw [hparts] at ih
    rw [hprepend] at hmem
    cases rest with
    | nil => cases hmem
    | cons second rest =>
      rcases List.mem_cons.1 hmem with rfl | hmem
      · exact (ih List.mem_cons_self).trans (List.suffix_cons c first)
      · exact ih (List.mem_cons_of_mem _ hmem)
  induction cs using sectionParts.induct generalizing part with
  | case1 => cases h
  | case2 cs ih =>
    have hne : prependFirst '>' (sectionParts cs) ≠ [] := by
      obtain ⟨first, rest, _, heq⟩ := exists_prependFirst '>' (sectionParts_ne_nil cs)
      exact heq ▸ List.cons_ne_nil _ _
    rw [sectionParts, List.dropLast_cons_of_ne_nil hne] at h
    rcases List.mem_cons.1 h with rfl | h
    · exact List.suffix_refl _
    · exact hprepend '>' cs h ih
  | case3 c cs hclose ih =>
    rw [sectionParts] at h
    · exact hprepend c cs h ih
    · exact hclose

/-- Every part but the first one begins with the end of a close. -/
theorem prefix_of_mem_tail_sectionParts (h : part ∈ (sectionParts cs).tail) : ['>'] <+: part := by
  induction cs using sectionParts.induct generalizing part with
  | case1 => cases h
  | case2 cs ih =>
    obtain ⟨first, rest, hparts, hprepend⟩ := exists_prependFirst '>' (sectionParts_ne_nil cs)
    rw [sectionParts, List.tail_cons, hprepend] at h
    rcases List.mem_cons.1 h with rfl | h
    · exact List.prefix_append ['>'] first
    · exact ih (by rwa [hparts])
  | case3 c cs hclose ih =>
    obtain ⟨first, rest, hparts, hprepend⟩ := exists_prependFirst c (sectionParts_ne_nil cs)
    rw [sectionParts, hprepend] at h
    · exact ih (by rwa [hparts])
    · exact hclose

/-! ### Sections of a text -/

/-- The sections are the text cut inside each section close in it. -/
structure CutAtCloses (text : String) (sections : List String) : Prop where
  length : sections.length = closes text.toList + 1
  joined : String.join sections = text
  closed : ∀ s ∈ sections, ¬ cdataClose.toList <:+: s.toList
  ends : ∀ s ∈ sections.dropLast, [']', ']'] <:+ s.toList
  begins : ∀ s ∈ sections.tail, ['>'] <+: s.toList
  /-- No fewer sections make up the text without a close in them. -/
  least : ∀ first others, String.join (first :: others) = text →
    (∀ s ∈ first :: others, ¬ cdataClose.toList <:+: s.toList) →
      sections.length ≤ (first :: others).length

/-- The sections of a text are cut at its closes. -/
theorem cutAtCloses_sectionParts (text : String) :
    CutAtCloses text ((sectionParts text.toList).map String.ofList) := by
  have hlength : ((sectionParts text.toList).map String.ofList).length =
      closes text.toList + 1 := by
    rw [List.length_map, length_sectionParts]
  refine ⟨hlength, ?_, fun s hs => ?_, fun s hs => ?_, fun s hs => ?_,
    fun first others hjoined hclosed => ?_⟩
  · rw [← String.toList_inj, String.toList_join, List.flatMap_map]
    simp [flatten_sectionParts]
  · obtain ⟨part, hpart, rfl⟩ := List.mem_map.1 hs
    rw [String.toList_ofList]
    exact not_infix_of_mem_sectionParts hpart
  · rw [← List.map_dropLast] at hs
    obtain ⟨part, hpart, rfl⟩ := List.mem_map.1 hs
    rw [String.toList_ofList]
    exact suffix_of_mem_dropLast_sectionParts hpart
  · rw [← List.map_tail] at hs
    obtain ⟨part, hpart, rfl⟩ := List.mem_map.1 hs
    rw [String.toList_ofList]
    exact prefix_of_mem_tail_sectionParts hpart
  · have hle := closes_flatten_le (others.map String.toList) first.toList
      (by simpa using List.forall_mem_cons.1 hclosed)
    rw [← List.map_cons, ← List.flatMap_def, ← String.toList_join, hjoined, List.length_map] at hle
    rw [hlength, List.length_cons]
    exact Nat.succ_le_succ hle

/-- **A text is encoded in the fewest sections**, or as it is if nothing in it needs escaping:
then it is one plain run, and no node if it is empty. -/
theorem encodeIn_cdata_sections (flags : Char → Bool) (text : String) :
    ∃ sections, CutAtCloses text sections ∧
      (Fragment.empty.encodeIn .cdata flags text).nodes =
        if text.toList.any flags then sections.map .cdata
        else if text = "" then [] else [.text text] := by
  refine ⟨_, cutAtCloses_sectionParts text, ?_⟩
  show [] ++ encodeSections flags text = _
  rw [List.nil_append, encodeSections, runNodes, List.map_map]
  simp only [String.isEmpty_iff]
  rfl

/-- Two closes that share no character, in brackets and angles that make up no more of them. -/
example : closes "]]]>]]>>]".toList = 2 ∧
    sectionParts "]]]>]]>>]".toList = ["]]]".toList, ">]]".toList, ">>]".toList] := by
  decide

end Markup
end Lineage
