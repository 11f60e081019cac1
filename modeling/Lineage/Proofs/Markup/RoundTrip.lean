/-
# Encoded text decodes to itself

Both ways of encoding write a text that reads as the one encoded, if `<` and `&` are
escaped.  A reference names the character that it was written for
(`exists_body_charReference`); a section has no close in it, for the text was cut inside
every one (`not_infix_of_mem_sectionParts`); and what is left plain has nothing that needs
escaping.  So the markup of a fragment decodes to the texts that were encoded in it, one
behind the other (`decode_markup_of_escapes`).
-/

import Lineage.Markup.Encode
import Lineage.Proofs.Markup.Written

namespace Lineage
namespace Markup

open Text

variable {flags : Char → Bool} {c : Char} {cs part : List Char} {parts : List (List Char)}

/-! ### Written references -/

/-- Each named reference is a name between an ampersand and a semicolon, and names its entity. -/
theorem referenceBody?_of_mem_entities : ∀ e ∈ entities,
    e.2.toList = '&' :: (e.2.toList.tail.dropLast ++ [';']) ∧
      ';' ∉ e.2.toList.tail.dropLast ∧ referenceBody? e.2.toList.tail.dropLast = some e.1 := by
  decide

/-- A code point is that of its character. -/
theorem scalar?_toNat (c : Char) : scalar? c.toNat = some c := dif_pos c.valid

/-- The code point of a character is read as it is written. -/
theorem numericChar?_repr (c : Char) : numericChar? c.toNat.repr.toList = some c := by
  have hdigits : ∀ d ∈ c.toNat.repr.toList, d.isDigit := fun _ => isDigit_of_mem_repr
  have hread := readNumeral?_repr c.toNat
  cases h : c.toNat.repr.toList with
  | nil =>
    rw [h] at hread
    cases hread
  | cons d ds =>
    rw [h] at hread hdigits
    have hd := hdigits d List.mem_cons_self
    have hx : ¬ (d = 'x' ∨ d = 'X') := by
      rintro (rfl | rfl) <;> exact absurd hd (by decide)
    have hplus : d ≠ '+' := by
      rintro rfl
      exact absurd hd (by decide)
    have hsize : c.toNat < UInt32.size := c.val.toNat_lt
    have hcode : readCode? 10 (d :: ds) = some c.toNat := by
      unfold readCode?
      dsimp only
      split
      · rename_i heq
        exact absurd (List.cons.inj heq).1 hplus
      · rw [hread, Option.filter_some, if_pos (decide_eq_true hsize)]
    rw [numericChar?, if_neg hx, hcode, Option.bind_some, scalar?_toNat]

/-- **A reference names its character**, and nothing in it but its end is a `;`. -/
theorem exists_body_charReference (c : Char) :
    ∃ body, (charReference c).toList = '&' :: (body ++ [';']) ∧ ';' ∉ body ∧
      referenceBody? body = some c := by
  unfold charReference
  cases h : namedReference? c with
  | some written =>
    obtain ⟨l, r, hsplit, _⟩ := List.lookup_eq_some_iff.1 h
    have hmem : (c, written) ∈ entities := hsplit ▸ List.mem_append_right l List.mem_cons_self
    exact ⟨_, referenceBody?_of_mem_entities _ hmem⟩
  | none =>
    refine ⟨'#' :: c.toNat.repr.toList, ?_, ?_, numericChar?_repr c⟩
    · simp [numericReference]
    · intro hmem
      rcases List.mem_cons.1 hmem with heq | hmem
      · cases heq
      · exact absurd (isDigit_of_mem_repr hmem) (by decide)

/-- The reference to a character is read as it. -/
theorem readsAs_charReference (c : Char) : ReadsAs (charReference c).toList [c] := by
  obtain ⟨body, hwritten, hbody, href⟩ := exists_body_charReference c
  rw [hwritten]
  exact readsAs_reference hbody href

/-! ### Pieces -/

/-- `<` and `&` are among the escaped characters. -/
def EscapesMarkup (flags : Char → Bool) : Prop := flags '<' = true ∧ flags '&' = true

/-- A character that is not flagged has no meaning in markup. -/
theorem EscapesMarkup.plain (h : EscapesMarkup flags) (hc : flags c = false) :
    c ≠ '&' ∧ c ≠ '<' := by
  constructor
  · rintro rfl
    rw [h.2] at hc
    cases hc
  · rintro rfl
    rw [h.1] at hc
    cases hc

/-- A plain character is written as it is, in front of what else is written. -/
theorem flatMap_prependPlain (c : Char) (ps : List Piece) :
    (prependPlain c ps).flatMap (fun p => p.node.markup.toList) =
      c :: ps.flatMap fun p => p.node.markup.toList := by
  unfold prependPlain
  split
  · simp [Piece.node, Node.markup]
  · simp [Piece.node, Node.markup]

/-- The pieces of a text are read as it. -/
theorem readsAs_pieces (h : EscapesMarkup flags) (cs : List Char) :
    ReadsAs ((pieces flags cs).flatMap fun p => p.node.markup.toList) cs := by
  induction cs with
  | nil => exact readsAs_nil
  | cons c cs ih =>
    unfold pieces
    split
    · exact (readsAs_charReference c).append ih
    · rename_i hc
      obtain ⟨hamp, hlt⟩ := h.plain (Bool.eq_false_iff.2 hc)
      rw [flatMap_prependPlain]
      exact (readsAs_plain hamp hlt).append ih

/-! ### Sections -/

/-- A character in front of the first part is in front of all of them. -/
theorem flatten_prependFirst (c : Char) (parts : List (List Char)) :
    (prependFirst c parts).flatten = c :: parts.flatten := by
  cases parts <;> rfl

/-- The parts are the text. -/
theorem flatten_sectionParts (cs : List Char) : (sectionParts cs).flatten = cs := by
  induction cs using sectionParts.induct with
  | case1 => rfl
  | case2 cs ih =>
    rw [sectionParts, List.flatten_cons, flatten_prependFirst, ih]
    rfl
  | case3 c cs hclose ih =>
    rw [sectionParts, flatten_prependFirst, ih]
    exact hclose

/-- A part with one more character in front is one of the parts, or has the character in
front of a part that the text begins with. -/
theorem mem_prependFirst (h : part ∈ prependFirst c parts) :
    part ∈ parts ∨ ∃ first, part = c :: first ∧ (first = [] ∨ first ∈ parts) ∧
      first <+: parts.flatten := by
  cases parts with
  | nil =>
    refine .inr ⟨[], List.mem_singleton.1 h, .inl rfl, List.nil_prefix⟩
  | cons first parts =>
    rcases List.mem_cons.1 h with rfl | h
    · exact .inr ⟨first, rfl, .inr List.mem_cons_self, List.prefix_append _ _⟩
    · exact .inl (List.mem_cons_of_mem first h)

/-- No part gets a close in it from a character that starts none. -/
theorem not_infix_of_mem_prependFirst (hparts : ∀ part ∈ parts, ¬ cdataClose.toList <:+: part)
    (hstart : ¬ cdataClose.toList <+: c :: parts.flatten) (h : part ∈ prependFirst c parts) :
    ¬ cdataClose.toList <:+: part := by
  rcases mem_prependFirst h with hmem | ⟨first, rfl, hfirst, hprefix⟩
  · exact hparts part hmem
  · intro hinfix
    rcases List.infix_cons_iff.1 hinfix with hclose | hclose
    · exact hstart (hclose.trans ((List.prefix_cons_inj c).2 hprefix))
    · rcases hfirst with rfl | hfirst
      · exact absurd (List.infix_nil.1 hclose) (by decide)
      · exact hparts first hfirst hclose

/-- **No section has a close in it.** -/
theorem not_infix_of_mem_sectionParts (h : part ∈ sectionParts cs) :
    ¬ cdataClose.toList <:+: part := by
  induction cs using sectionParts.induct generalizing part with
  | case1 =>
    obtain rfl := List.mem_singleton.1 h
    exact fun hinfix => absurd (List.infix_nil.1 hinfix) (by decide)
  | case2 cs ih =>
    rw [sectionParts] at h
    rcases List.mem_cons.1 h with rfl | h
    · exact fun hinfix => absurd hinfix.length_le (by decide)
    · refine not_infix_of_mem_prependFirst (fun _ => ih) (fun ⟨t, ht⟩ => ?_) h
      rw [cdataClose_toList] at ht
      exact absurd (List.cons.inj ht).1 (by decide)
  | case3 c cs hclose ih =>
    rw [sectionParts] at h
    · refine not_infix_of_mem_prependFirst (fun _ => ih) (fun ⟨t, ht⟩ => ?_) h
      rw [flatten_sectionParts, cdataClose_toList] at ht
      obtain ⟨hc, hcs⟩ := List.cons.inj ht
      exact hclose t hc.symm hcs.symm
    · exact hclose

/-! ### Texts -/

/-- A run is written as its text. -/
theorem flatMap_runNodes (text : String) :
    (runNodes text).flatMap (·.markup.toList) = text.toList := by
  unfold runNodes
  split
  · rename_i hempty
    rw [String.isEmpty_iff.1 hempty]
    rfl
  · simp [Node.markup]

/-- **Whatever the mode, an encoded text reads as the text.** -/
theorem readsAs_encodeNodes (h : EscapesMarkup flags) (mode : EncodeMode) (text : String) :
    ReadsAs ((encodeNodes mode flags text).flatMap (·.markup.toList)) text.toList := by
  cases mode with
  | entities =>
    have hpieces := readsAs_pieces h text.toList
    rwa [encodeNodes, encodeEntities, List.flatMap_map]
  | cdata =>
    rw [encodeNodes, encodeSections]
    split
    · have hsections : ∀ part ∈ sectionParts text.toList,
          ReadsAs (Node.cdata (String.ofList part)).markup.toList part := fun part hpart => by
        rw [Node.markup, String.toList_append, String.toList_append, String.toList_ofList]
        exact readsAs_section (not_infix_of_mem_sectionParts hpart)
      have htext := readsAs_flatMap hsections
      rw [List.flatMap_id', flatten_sectionParts] at htext
      rwa [List.flatMap_map]
    · rename_i hnone
      rw [flatMap_runNodes]
      refine readsAs_run fun c hc => h.plain (Bool.eq_false_iff.2 fun hflagged => hnone ?_)
      exact List.any_eq_true.2 ⟨c, hc, hflagged⟩

/-! ### Fragments -/

/-- A text to be encoded, with the mode and the characters to be escaped. -/
structure Payload where
  mode : EncodeMode
  flags : Char → Bool
  text : String

/-- The fragment of payloads encoded one after another. -/
def Fragment.ofPayloads (payloads : List Payload) : Fragment :=
  payloads.foldl (fun f p => f.encodeIn p.mode p.flags p.text) .empty

/-- Encoding payloads one after another appends their nodes. -/
theorem nodes_foldl_encodeIn (payloads : List Payload) (f : Fragment) :
    (payloads.foldl (fun f p => f.encodeIn p.mode p.flags p.text) f).nodes =
      f.nodes ++ payloads.flatMap fun p => encodeNodes p.mode p.flags p.text := by
  induction payloads generalizing f with
  | nil => simp
  | cons p payloads ih => rw [List.foldl_cons, ih]; simp [Fragment.encodeIn, Fragment.append]

/-- The markup of a fragment is that of its nodes. -/
theorem toList_markup (f : Fragment) : f.markup.toList = f.nodes.flatMap (·.markup.toList) := by
  unfold Fragment.markup markupAll
  rw [String.toList_join, List.flatMap_map]

/-- **The markup of a fragment decodes to the texts encoded in it**, one behind the other,
if every payload escapes `<` and `&`; the escapes of all options do, and so do the default
ones. -/
theorem decode_markup_of_escapes :
    (∀ o : EncodeOptions, EscapesMarkup o.escapes.flags) ∧ EscapesMarkup isEntity ∧
      ∀ payloads : List Payload, (∀ p ∈ payloads, EscapesMarkup p.flags) →
        decode (Fragment.ofPayloads payloads).markup =
          .ok (String.join (payloads.map (·.text))) := by
  have hentity : EscapesMarkup isEntity := ⟨by decide, by decide⟩
  refine ⟨fun o => ?_, hentity, fun payloads h => decode_of_readsAs ?_⟩
  · exact ⟨EscapeSet.flags_of_isEntity hentity.1, EscapeSet.flags_of_isEntity hentity.2⟩
  · have hread := readsAs_flatMap fun p hp => readsAs_encodeNodes (h p hp) p.mode p.text
    have hempty : Fragment.empty.nodes = [] := rfl
    rw [toList_markup, Fragment.ofPayloads, nodes_foldl_encodeIn, hempty, List.nil_append,
      List.flatMap_assoc, String.toList_join, List.flatMap_map]
    exact hread

/-- Markers arise at both boundaries of the second text, and the third one has a reference
in it. -/
def markedPayloads : List Payload := [
  ⟨.cdata, isEntity, "&]]"⟩,
  ⟨.cdata, isEntity, ">]]>]"⟩,
  ⟨.entities, fun c => c != 'a', "]>&amp;<![CDATA["⟩]

/-- The hypothesis of `decode_markup_of_escapes` is satisfiable: no marker is mistaken for
another one. -/
theorem decode_markup_of_escapes_marked :
    (∀ p ∈ markedPayloads, EscapesMarkup p.flags) ∧
      decode (Fragment.ofPayloads markedPayloads).markup =
        .ok "&]]>]]>]]>&amp;<![CDATA[" := by
  have hescapes : ∀ p ∈ markedPayloads, EscapesMarkup p.flags := by
    simp [markedPayloads, EscapesMarkup, isEntity, entities]
  exact ⟨hescapes, decode_markup_of_escapes.2.2 markedPayloads hescapes⟩

end Markup
end Lineage
