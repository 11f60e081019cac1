/-
# Reading what is written

A written text reads as some other one if the decoder, wherever it meets it, takes just
that text and goes on behind it (`ReadsAs`).  Plain characters, references and sections
do: the first `;` behind a reference is its own (`readsAs_reference`), and so is the first
close behind a section that holds none, even if its content ends in brackets
(`readsAs_section`).  What follows is never cut differently for what stands before it, so
texts that read well can be put behind each other (`ReadsAs.append`).
-/

import Lineage.Markup.Decode

namespace Lineage
namespace Markup

open Text

variable {a b x y body rest : List Char} {c ch : Char}

/-! ### The decoder -/

/-- The decoder takes `written` for `out` wherever it meets it, and goes on behind it. -/
def ReadsAs (written out : List Char) : Prop :=
  ∀ offset rest, decodeFrom 0 offset (written ++ rest) =
    (decodeFrom 0 (offset + byteLength written) rest).map (out ++ ·)

/-- Decoding takes an item from the front of the text, and goes on behind it. -/
theorem decodeFrom_zero_cons (offset : Nat) (c : Char) (cs : List Char) :
    decodeFrom 0 offset (c :: cs) =
      match item offset c cs with
      | .error e => .error e
      | .ok (out, n) => (decodeFrom n (offset + c.utf8Size) cs).map (out ++ ·) := by
  rw [decodeFrom]
  cases item offset c cs with
  | error e => rfl
  | ok read => cases h : decodeFrom read.2 (offset + c.utf8Size) cs <;> simp [h, Except.map]

/-- Characters that are pending are passed over. -/
theorem decodeFrom_length_append (offset : Nat) (passed rest : List Char) :
    decodeFrom passed.length offset (passed ++ rest) =
      decodeFrom 0 (offset + byteLength passed) rest := by
  induction passed generalizing offset with
  | nil => rfl
  | cons c passed ih =>
    rw [List.cons_append, List.length_cons, decodeFrom, ih, byteLength_cons, Nat.add_assoc]

/-- What the decoder takes as one item reads as what the item stands for. -/
theorem readsAs_of_item
    (h : ∀ offset rest, item offset c (body ++ rest) = .ok (x, body.length)) :
    ReadsAs (c :: body) x := by
  intro offset rest
  rw [List.cons_append, decodeFrom_zero_cons, h]
  dsimp only
  rw [decodeFrom_length_append, byteLength_cons, Nat.add_assoc]

/-- Nothing is read as nothing. -/
theorem readsAs_nil : ReadsAs [] [] := by
  intro offset rest
  cases h : decodeFrom 0 offset rest <;> simp [h, Except.map]

/-- Texts behind each other are read as what they stand for, behind each other. -/
theorem ReadsAs.append (ha : ReadsAs a x) (hb : ReadsAs b y) : ReadsAs (a ++ b) (x ++ y) := by
  intro offset rest
  rw [List.append_assoc, ha, hb, byteLength_append, Nat.add_assoc]
  cases decodeFrom 0 (offset + (byteLength a + byteLength b)) rest with
  | error e => rfl
  | ok out => exact congrArg Except.ok (List.append_assoc x y out).symm

/-- Texts that read well do so one behind the other. -/
theorem readsAs_flatMap {α : Type} {l : List α} {written out : α → List Char}
    (h : ∀ e ∈ l, ReadsAs (written e) (out e)) : ReadsAs (l.flatMap written) (l.flatMap out) := by
  induction l with
  | nil => exact readsAs_nil
  | cons e l ih =>
    exact (h e List.mem_cons_self).append (ih fun d hd => h d (List.mem_cons_of_mem e hd))

/-- Markup that reads as a text decodes to it. -/
theorem decode_of_readsAs {markup text : String} (h : ReadsAs markup.toList text.toList) :
    decode markup = .ok text := by
  have hread := h 0 []
  rw [List.append_nil] at hread
  unfold decode
  rw [hread]
  simp [decodeFrom, Except.map]

/-! ### Plain characters -/

/-- A section is opened by nine characters. -/
theorem cdataOpen_toList : cdataOpen.toList = ['<', '!', '[', 'C', 'D', 'A', 'T', 'A', '['] := by
  decide

/-- A section is closed by three characters. -/
theorem cdataClose_toList : cdataClose.toList = [']', ']', '>'] := by decide

/-- Only `<` begins a section. -/
theorem after?_cdataOpen_of_ne (hc : c ≠ '<') : after? cdataOpen.toList (c :: rest) = none := by
  rw [cdataOpen_toList, after?, if_neg hc.symm]

/-- A character without a meaning in markup is read as itself. -/
theorem readsAs_plain (hamp : c ≠ '&') (hlt : c ≠ '<') : ReadsAs [c] [c] := by
  refine readsAs_of_item fun offset rest => ?_
  unfold item
  rw [after?_cdataOpen_of_ne hlt]
  dsimp only
  rw [if_neg hamp, if_neg hlt]
  rfl

/-- A run without `&` and `<` reads as itself. -/
theorem readsAs_run {cs : List Char} (h : ∀ c ∈ cs, c ≠ '&' ∧ c ≠ '<') : ReadsAs cs cs := by
  have hplain : ∀ c ∈ cs, ReadsAs [c] [c] := fun c hc => readsAs_plain (h c hc).1 (h c hc).2
  have hrun := readsAs_flatMap hplain
  rwa [List.flatMap_singleton'] at hrun

/-! ### References -/

/-- A reference is read as the character that it names. -/
theorem readsAs_reference (hbody : ';' ∉ body) (href : referenceBody? body = some ch) :
    ReadsAs ('&' :: (body ++ [';'])) [ch] := by
  refine readsAs_of_item fun offset rest => ?_
  unfold item
  rw [after?_cdataOpen_of_ne (by decide)]
  dsimp only
  rw [if_pos rfl, breakAt?_singleton hbody]
  dsimp only
  rw [href, List.length_append, List.length_singleton]

/-! ### Sections -/

/-- **The close of a section is the first one behind its content**, if the content has
none: an earlier one would have its last character among the brackets of the close. -/
theorem breakAt?_cdataClose (h : ¬ cdataClose.toList <:+: body) :
    breakAt? cdataClose.toList (body ++ cdataClose.toList ++ rest) = some (body, rest) := by
  refine breakAt?_eq_some_iff.2 ⟨rfl, fun l r heq => Nat.le_of_not_lt fun hlt => h ?_⟩
  rw [List.append_assoc, List.append_assoc] at heq
  obtain ⟨d, m, hbody, hmark⟩ := exists_cons_of_length_lt heq hlt
  rw [cdataClose_toList] at hmark ⊢
  cases m with
  | nil => simp at hmark
  | cons e m =>
    cases m with
    | nil => simp at hmark
    | cons f m =>
      obtain ⟨rfl, rfl, rfl, _⟩ : ']' = d ∧ ']' = e ∧ '>' = f ∧ _ := by simpa using hmark
      exact ⟨l, m, by rw [hbody]; simp⟩

/-- A section is read as what stands in it, if it has no close there. -/
theorem readsAs_section (h : ¬ cdataClose.toList <:+: body) :
    ReadsAs (cdataOpen.toList ++ body ++ cdataClose.toList) body := by
  have hwritten : cdataOpen.toList ++ body ++ cdataClose.toList =
      '<' :: (cdataOpen.toList.tail ++ body ++ cdataClose.toList) := by
    rw [cdataOpen_toList]
    rfl
  rw [hwritten]
  refine readsAs_of_item fun offset rest => ?_
  have hopen : after? cdataOpen.toList
      ('<' :: (cdataOpen.toList.tail ++ body ++ cdataClose.toList ++ rest)) =
        some (body ++ cdataClose.toList ++ rest) := by
    refine after?_eq_some_iff.2 ?_
    simp [cdataOpen_toList]
  have hlength : cdataOpen.length + body.length + cdataClose.length - 1 =
      (cdataOpen.toList.tail ++ body ++ cdataClose.toList).length := by
    rw [List.length_append, List.length_append, List.length_tail, String.length_toList,
      String.length_toList]
    have : 0 < cdataOpen.length := by decide
    omega
  unfold item
  rw [hopen]
  dsimp only
  rw [breakAt?_cdataClose h]
  dsimp only
  rw [hlength]

end Markup
end Lineage
