/-
# Markup in 7 bits

Escaping what is not ASCII means two things.  Among references, every such character is
written by its code point, and what is written then is ASCII (`foreign_pieces`).  In a
section there are no references: such a character is a reason to write the text in sections,
and stays in them as it is (`foreign_sections`).  Either way the text is read back
(`encode_escapesNonAscii`).
-/

import Lineage.Proofs.Markup.RoundTrip
import Lineage.Proofs.Markup.Sections

namespace Lineage
namespace Markup

open Text

variable {flags : Char → Bool} {c : Char} {cs : List Char} {text : String}

/-- The characters that are not ASCII, in their order. -/
def foreign (cs : List Char) : List Char := cs.filter (!isAscii ·)

/-- Every character of the text is ASCII. -/
def IsAscii (text : String) : Prop := ∀ c ∈ text.toList, isAscii c = true

/-- Whether a text is ASCII can be seen from its characters. -/
instance (text : String) : Decidable (IsAscii text) :=
  decidable_of_iff (text.toList.all isAscii = true) List.all_eq_true

/-- The foreign characters of two texts are those of both. -/
theorem foreign_append (cs ds : List Char) : foreign (cs ++ ds) = foreign cs ++ foreign ds :=
  List.filter_append cs ds

/-- A character is foreign if it is not ASCII. -/
theorem foreign_cons (c : Char) (cs : List Char) :
    foreign (c :: cs) = if isAscii c then foreign cs else c :: foreign cs := by
  rw [foreign, List.filter_cons]
  cases isAscii c <;> rfl

/-- A text has no foreign characters just when it is ASCII. -/
theorem foreign_eq_nil_iff : foreign text.toList = [] ↔ IsAscii text := by
  simp [foreign, IsAscii, List.filter_eq_nil_iff]

/-! ### References -/

/-- A digit is ASCII. -/
theorem isAscii_of_isDigit (h : c.isDigit = true) : isAscii c = true := by
  simp only [Char.isDigit, Bool.and_eq_true, decide_eq_true_eq] at h
  exact decide_eq_true (Nat.lt_of_le_of_lt h.2 (by decide))

/-- The named references are ASCII. -/
theorem isAscii_of_mem_entities : ∀ e ∈ entities, IsAscii e.2 := by decide

/-- **A reference is ASCII**, whatever character it is for. -/
theorem isAscii_charReference (c : Char) : IsAscii (charReference c) := by
  unfold charReference
  cases h : namedReference? c with
  | some written =>
    obtain ⟨l, r, hsplit, _⟩ := List.lookup_eq_some_iff.1 h
    have hmem : (c, written) ∈ entities := hsplit ▸ List.mem_append_right l List.mem_cons_self
    exact isAscii_of_mem_entities _ hmem
  | none =>
    intro d hd
    have hd : d = '&' ∨ d = '#' ∨ d ∈ c.toNat.repr.toList ∨ d = ';' := by
      simpa [numericReference] using hd
    rcases hd with rfl | rfl | hd | rfl
    · rfl
    · rfl
    · exact isAscii_of_isDigit (isDigit_of_mem_repr hd)
    · rfl

/-- Among references, what is not escaped is left. -/
theorem foreign_pieces (flags : Char → Bool) (cs : List Char) :
    foreign ((pieces flags cs).flatMap fun p => p.node.markup.toList) =
      (foreign cs).filter (!flags ·) := by
  induction cs with
  | nil => rfl
  | cons c cs ih =>
    have hwhole : (foreign (c :: cs)).filter (!flags ·) =
        if isAscii c || flags c then (foreign cs).filter (!flags ·)
        else c :: (foreign cs).filter (!flags ·) := by
      rw [foreign_cons]
      cases isAscii c <;> cases hc : flags c <;> simp [hc]
    rw [hwhole, pieces]
    by_cases hc : flags c
    · have hwritten : foreign (Piece.flagged c).node.markup.toList = [] :=
        foreign_eq_nil_iff.2 (isAscii_charReference c)
      rw [if_pos hc, List.flatMap_cons, foreign_append, hwritten, ih, hc, Bool.or_true]
      rfl
    · rw [if_neg hc, flatMap_prependPlain, foreign_cons, ih, Bool.eq_false_iff.2 hc, Bool.or_false]

/-! ### Sections -/

/-- Sections have the characters of their parts that are not ASCII, and no others. -/
theorem foreign_sections (parts : List (List Char)) :
    foreign (parts.flatMap fun part => (Node.cdata (String.ofList part)).markup.toList) =
      foreign parts.flatten := by
  have hopen : foreign cdataOpen.toList = [] := by decide
  have hclose : foreign cdataClose.toList = [] := by decide
  induction parts with
  | nil => rfl
  | cons part parts ih =>
    rw [List.flatMap_cons, List.flatten_cons, foreign_append, foreign_append, ih, Node.markup,
      String.toList_append, String.toList_append, String.toList_ofList, foreign_append,
      foreign_append, hopen, hclose, List.nil_append, List.append_nil]

/-! ### Texts -/

/-- **What is not ASCII in an encoded text**: among references what is not escaped, and all
that the text has where it is in sections. -/
theorem foreign_encodeNodes (mode : EncodeMode) (flags : Char → Bool) (text : String) :
    foreign ((encodeNodes mode flags text).flatMap (·.markup.toList)) =
      match mode with
      | .entities => (foreign text.toList).filter (!flags ·)
      | .cdata => foreign text.toList := by
  cases mode with
  | entities => rw [encodeNodes, encodeEntities, List.flatMap_map, foreign_pieces]
  | cdata =>
    rw [encodeNodes, encodeSections]
    split
    · rw [List.flatMap_map, foreign_sections, flatten_sectionParts]
    · rw [flatMap_runNodes]

/-- The markup of an encoded text is that of its nodes. -/
theorem toList_markup_encode (o : EncodeOptions) (text : String) :
    (encode o text).markup.toList =
      (encodeNodes o.mode o.escapes.flags text).flatMap (·.markup.toList) :=
  toList_markup _

/-- The flags of all options escape markup. -/
theorem escapesMarkup_flags (o : EncodeOptions) : EscapesMarkup o.escapes.flags :=
  ⟨EscapeSet.flags_of_isEntity (by decide), EscapeSet.flags_of_isEntity (by decide)⟩

variable {o : EncodeOptions}

/-- Where characters that are not ASCII are to be escaped, they are flagged. -/
theorem flags_of_mem_foreign (h : o.escapeNonAscii = true) (hc : c ∈ foreign cs) :
    o.escapes.flags c = true := by
  have hc : isAscii c = false := by simpa using (List.mem_filter.1 hc).2
  simp [EscapeSet.flags, EncodeOptions.escapes, h, hc]

/-- **With what is not ASCII escaped, the markup decodes to the text, and among references it
is ASCII.**  In sections it has what the text has that is not ASCII, and a text with any such
character is in sections. -/
theorem encode_escapesNonAscii (h : o.escapeNonAscii = true) (text : String) :
    decode (encode o text).markup = .ok text ∧
      match o.mode with
      | .entities => IsAscii (encode o text).markup
      | .cdata =>
        foreign (encode o text).markup.toList = foreign text.toList ∧
          (IsAscii text ∨ ∃ sections, CutAtCloses text sections ∧
            (encode o text).nodes = sections.map .cdata) := by
  constructor
  · refine decode_of_readsAs ?_
    rw [toList_markup_encode]
    exact readsAs_encodeNodes (escapesMarkup_flags o) o.mode text
  · have hforeign := foreign_encodeNodes o.mode o.escapes.flags text
    rw [← toList_markup_encode] at hforeign
    cases hmode : o.mode with
    | entities =>
      rw [hmode] at hforeign
      refine foreign_eq_nil_iff.1 (hforeign.trans (List.filter_eq_nil_iff.2 fun c hc => ?_))
      simp [flags_of_mem_foreign h hc]
    | cdata =>
      rw [hmode] at hforeign
      refine ⟨hforeign, (em (IsAscii text)).imp_right fun hascii => ?_⟩
      obtain ⟨c, hc⟩ := List.exists_mem_of_ne_nil _ (mt foreign_eq_nil_iff.1 hascii)
      have hany : text.toList.any o.escapes.flags = true :=
        List.any_eq_true.2 ⟨c, (List.mem_filter.1 hc).1, flags_of_mem_foreign h hc⟩
      refine ⟨_, cutAtCloses_sectionParts text, ?_⟩
      show [] ++ encodeNodes o.mode o.escapes.flags text = _
      rw [List.nil_append, hmode, encodeNodes, encodeSections, if_pos hany, List.map_map]
      rfl

/-- The hypothesis of `encode_escapesNonAscii` is satisfiable in both modes, also where the text
has a section close and a character that is escaped besides. -/
theorem encode_escapesNonAscii_quoted :
    (∀ mode, (⟨mode, true, ['"']⟩ : EncodeOptions).escapeNonAscii = true) ∧
      IsAscii (encode ⟨.entities, true, ['"']⟩ "\"é]]>\"").markup ∧
      foreign (encode ⟨.cdata, true, ['"']⟩ "\"é]]>\"").markup.toList = ['é'] ∧
      decode (encode ⟨.cdata, true, ['"']⟩ "\"é]]>\"").markup = .ok "\"é]]>\"" := by
  refine ⟨fun mode => rfl, ?_, ?_, ?_⟩
  · exact (encode_escapesNonAscii (o := ⟨.entities, true, ['"']⟩) rfl _).2
  · exact (encode_escapesNonAscii (o := ⟨.cdata, true, ['"']⟩) rfl _).2.1.trans (by decide)
  · exact (encode_escapesNonAscii (o := ⟨.cdata, true, ['"']⟩) rfl _).1

/-- In sections, markup that has what is not ASCII escaped need not be ASCII. -/
theorem not_isAscii_section : ¬ ∀ (o : EncodeOptions) (text : String), o.escapeNonAscii = true →
    IsAscii (encode o text).markup ∧ decode (encode o text).markup = .ok text := by
  intro h
  have hsection : ¬ IsAscii (encode ⟨.cdata, true, []⟩ "é").markup := by decide
  exact hsection (h ⟨.cdata, true, []⟩ "é" rfl).1

end Markup
end Lineage
