/-
# The grammar of markup

Markup is a row of items: runs without `&` and `<`, references that name a character, and
sections (`Item`, `Accepts`).  What names a character is said without the decoder
(`Names`): an entry of the table, or a code point in decimal or hexadecimal.

The decoder accepts just this grammar (`decode_eq_ok_iff_accepts`).  One step of it is an
item, or no item stands there at all (`itemOrStuck`): the first `;` and the first close are
the only ones that can end what `&` and an opened section begin.  By induction on the text
a refusal is at the first place where no item goes on (`decodeFrom_spec`).
-/

import Lineage.Proofs.Markup.RoundTrip

namespace Lineage
namespace Markup

open Text

/-! ### What names a character -/

/-- A digit of a hexadecimal numeral. -/
def IsHexadecimal (c : Char) : Prop :=
  ('0' ≤ c ∧ c ≤ '9') ∨ ('a' ≤ c ∧ c ≤ 'f') ∨ ('A' ≤ c ∧ c ≤ 'F')

/-- Nothing, or one plus sign. -/
def IsSign (sign : List Char) : Prop := sign = [] ∨ sign = ['+']

/-- The text between `&` and `;` names the character. -/
inductive Names : List Char → Char → Prop
  | entity {e : Char × String} {body : List Char} (hmem : e ∈ entities)
      (htext : e.2.toList = '&' :: (body ++ [';'])) : Names body e.1
  | decimal {sign digits : List Char} {c : Char} (hsign : IsSign sign) (hne : digits ≠ [])
      (hdigits : ∀ d ∈ digits, '0' ≤ d ∧ d ≤ '9') (hvalue : numeralValue 10 digits = c.toNat) :
      Names ('#' :: (sign ++ digits)) c
  | hexadecimal {mark : Char} {sign digits : List Char} {c : Char} (hmark : mark = 'x' ∨ mark = 'X')
      (hsign : IsSign sign) (hne : digits ≠ []) (hdigits : ∀ d ∈ digits, IsHexadecimal d)
      (hvalue : numeralValue 16 digits = c.toNat) :
      Names ('#' :: mark :: (sign ++ digits)) c

variable {body cs a b x y rest : List Char} {c : Char} {n : Nat} {e : MarkupError}

/-- A number is that of a character just when it is its code point. -/
theorem scalar?_eq_some_iff : scalar? n = some c ↔ n = c.toNat := by
  constructor
  · intro h
    unfold scalar? at h
    by_cases hvalid : n.isValidChar
    · rw [dif_pos hvalid] at h
      obtain rfl := Option.some.inj h
      rfl
    · rw [dif_neg hvalid] at h
      cases h
  · rintro rfl
    exact scalar?_toNat c

/-- A plus sign is no digit, so at most one is passed over. -/
theorem readCode?_eq_some_iff {base v : Nat} (hbase : base ≤ 16) :
    readCode? base cs = some v ↔ v < UInt32.size ∧ ∃ sign digits, cs = sign ++ digits ∧
      IsSign sign ∧ digits ≠ [] ∧ (∀ d ∈ digits, digitValue d < base) ∧
      v = numeralValue base digits := by
  unfold readCode?
  rw [Option.filter_eq_some_iff, decide_eq_true_iff, and_comm, readNumeral?_eq_some_iff]
  refine and_congr_right fun _ => ?_
  split
  · rename_i rest
    constructor
    · exact fun h => ⟨['+'], rest, rfl, .inr rfl, h⟩
    · rintro ⟨sign, digits, heq, rfl | rfl, hne, hdigits, hvalue⟩
      · rw [List.nil_append] at heq
        subst heq
        have hplus := hdigits '+' List.mem_cons_self
        have : digitValue '+' = 16 := by decide
        omega
      · obtain rfl := (List.cons.inj heq).2
        exact ⟨hne, hdigits, hvalue⟩
  · rename_i hplus
    constructor
    · exact fun h => ⟨[], cs, rfl, .inl rfl, h⟩
    · rintro ⟨sign, digits, rfl, rfl | rfl, h⟩
      · exact h
      · exact absurd rfl (hplus digits)

/-- A numeral, behind a sign or none, for the code of the character. -/
def IsCode (base : Nat) (digit : Char → Prop) (cs : List Char) (c : Char) : Prop :=
  ∃ sign digits, cs = sign ++ digits ∧ IsSign sign ∧ digits ≠ [] ∧ (∀ d ∈ digits, digit d) ∧
    numeralValue base digits = c.toNat

/-- A code is read in a base just when its digits are of that base, and they make up the character.
-/
theorem readCode?_bind_scalar? {base : Nat} {digit : Char → Prop} (hbase : base ≤ 16)
    (hdigit : ∀ d, digitValue d < base ↔ digit d) :
    (readCode? base cs).bind scalar? = some c ↔ IsCode base digit cs c := by
  have hsize : c.toNat < UInt32.size := c.val.toNat_lt
  rw [Option.bind_eq_some_iff]
  constructor
  · rintro ⟨v, hcode, hscalar⟩
    obtain rfl := scalar?_eq_some_iff.1 hscalar
    obtain ⟨_, sign, digits, heq, hsign, hne, hdigits, hvalue⟩ :=
      (readCode?_eq_some_iff hbase).1 hcode
    exact ⟨sign, digits, heq, hsign, hne, fun d hd => (hdigit d).1 (hdigits d hd), hvalue.symm⟩
  · rintro ⟨sign, digits, heq, hsign, hne, hdigits, hvalue⟩
    exact ⟨c.toNat, (readCode?_eq_some_iff hbase).2 ⟨hsize, sign, digits, heq, hsign, hne,
      fun d hd => (hdigit d).2 (hdigits d hd), hvalue.symm⟩, scalar?_toNat c⟩

/-- What names a character behind `#` is a code, as no entity is written so. -/
theorem names_hash_iff : Names ('#' :: cs) c ↔ IsCode 10 (fun d => '0' ≤ d ∧ d ≤ '9') cs c ∨
    ∃ mark ds, cs = mark :: ds ∧ (mark = 'x' ∨ mark = 'X') ∧ IsCode 16 IsHexadecimal ds c := by
  have hsecond : ∀ e ∈ entities, e.2.toList[1]? ≠ some '#' := by decide
  constructor
  · intro h
    generalize hbody : '#' :: cs = body at h
    cases h with
    | @entity e _ hmem htext =>
      subst hbody
      exact absurd (by rw [htext]; rfl) (hsecond e hmem)
    | @decimal sign digits _ hsign hne hdigits hvalue =>
      exact .inl ⟨sign, digits, (List.cons.inj hbody).2, hsign, hne, hdigits, hvalue⟩
    | @hexadecimal mark sign digits _ hmark hsign hne hdigits hvalue =>
      exact .inr ⟨mark, _, (List.cons.inj hbody).2, hmark, sign, digits, rfl, hsign, hne, hdigits,
        hvalue⟩
  · rintro (⟨sign, digits, rfl, hsign, hne, hdigits, hvalue⟩ |
      ⟨mark, _, rfl, hmark, sign, digits, rfl, hsign, hne, hdigits, hvalue⟩)
    · exact .decimal hsign hne hdigits hvalue
    · exact .hexadecimal hmark hsign hne hdigits hvalue

/-- An `x` is neither a digit nor a sign. -/
theorem not_isCode_mark {mark : Char} {ds : List Char} (hmark : mark = 'x' ∨ mark = 'X') :
    ¬IsCode 10 (fun d => '0' ≤ d ∧ d ≤ '9') (mark :: ds) c := by
  rintro ⟨sign, digits, heq, rfl | rfl, _, hdigits, _⟩
  · obtain rfl : mark :: ds = digits := heq
    have hdigit := hdigits mark List.mem_cons_self
    rcases hmark with rfl | rfl <;> exact absurd hdigit (by decide)
  · obtain rfl : mark = '+' := (List.cons.inj heq).1
    exact absurd hmark (by decide)

/-- A reference by number is read just when it names a character. -/
theorem numericChar?_eq_some_iff : numericChar? cs = some c ↔ Names ('#' :: cs) c := by
  rw [names_hash_iff]
  cases cs with
  | nil =>
    refine ⟨(fun h => by cases h), ?_⟩
    rintro (⟨sign, digits, heq, _, hne, _⟩ | ⟨_, _, heq, _⟩)
    · exact absurd (List.append_eq_nil_iff.1 heq.symm).2 hne
    · cases heq
  | cons d ds =>
    rw [numericChar?]
    split
    · rename_i hmark
      rw [readCode?_bind_scalar? (by decide) fun _ => digitValue_lt_sixteen_iff]
      refine ⟨fun h => .inr ⟨d, ds, rfl, hmark, h⟩, ?_⟩
      rintro (h | ⟨mark, _, heq, _, h⟩)
      · exact absurd h (not_isCode_mark hmark)
      · obtain ⟨rfl, rfl⟩ := List.cons.inj heq
        exact h
    · rename_i hmark
      rw [readCode?_bind_scalar? (by decide) fun _ => digitValue_lt_ten_iff]
      refine ⟨.inl, ?_⟩
      rintro (h | ⟨mark, _, heq, hmark', _⟩)
      · exact h
      · obtain rfl := (List.cons.inj heq).1
        exact absurd hmark' hmark

/-- **The reader of references takes what names a character**, for that character. -/
theorem referenceBody?_eq_some_iff : referenceBody? body = some c ↔ Names body c := by
  have hdistinct : ∀ e ∈ entities, ∀ d ∈ entities, e.2 = d.2 → e = d := by decide
  unfold referenceBody?
  split
  · exact numericChar?_eq_some_iff
  · rename_i hhash
    rw [Option.map_eq_some_iff]
    constructor
    · rintro ⟨e, hfind, rfl⟩
      have htext := List.find?_some hfind
      exact .entity (List.mem_of_find?_eq_some hfind) (by simpa using htext)
    · intro h
      cases h with
      | @entity e _ hmem htext =>
        have hsome : (entities.find? fun e => e.2.toList == '&' :: body ++ [';']).isSome :=
          List.find?_isSome.2 ⟨e, hmem, by simpa using htext⟩
        obtain ⟨d, hfind⟩ := Option.isSome_iff_exists.1 hsome
        have hd := List.find?_some hfind
        have heq : d = e := hdistinct d (List.mem_of_find?_eq_some hfind) e hmem
          (String.toList_injective (by rw [htext]; simpa using hd))
        exact ⟨d, hfind, by rw [heq]⟩
      | decimal => exact absurd rfl (hhash _)
      | hexadecimal => exact absurd rfl (hhash _)

/-- A reference is decoded just when it names a character. -/
theorem decodeReference?_eq_some_iff :
    decodeReference? (String.ofList ('&' :: (body ++ [';']))) = some c ↔ Names body c := by
  rw [← referenceBody?_eq_some_iff, decodeReference?, String.toList_ofList]
  simp [referenceText?]

/-! ### Items -/

/-- A part of markup, and what it stands for. -/
inductive Item : List Char → List Char → Prop
  | run {cs : List Char} (hne : cs ≠ []) (hplain : ∀ c ∈ cs, c ≠ '&' ∧ c ≠ '<') : Item cs cs
  | reference {body : List Char} {c : Char} (hbody : ';' ∉ body) (hname : Names body c) :
      Item ('&' :: (body ++ [';'])) [c]
  | cdata {body : List Char} (hbody : ¬ cdataClose.toList <:+: body) :
      Item (cdataOpen.toList ++ body ++ cdataClose.toList) body

/-- A row of items, and what they stand for. -/
inductive Accepts : List Char → List Char → Prop
  | nil : Accepts [] []
  | cons {a b x y : List Char} (hitem : Item a x) (hrest : Accepts b y) :
      Accepts (a ++ b) (x ++ y)

/-- No item stands at the start of the text. -/
def NoItem (cs : List Char) : Prop := ∀ a x rest, Item a x → cs ≠ a ++ rest

/-- An item is read as the text that it stands for. -/
theorem Item.readsAs (h : Item a x) : ReadsAs a x := by
  cases h with
  | run _ hplain => exact readsAs_run hplain
  | reference hbody hname => exact readsAs_reference hbody (referenceBody?_eq_some_iff.2 hname)
  | cdata hbody => exact readsAs_section hbody

/-- An accepted text is read as the text that it stands for. -/
theorem Accepts.readsAs (h : Accepts a x) : ReadsAs a x := by
  induction h with
  | nil => exact readsAs_nil
  | cons hitem _ ih => exact hitem.readsAs.append ih

/-- What begins with `&` is a reference, up to its first `;`. -/
theorem noItem_of_ampersand
    (h : ∀ body rest, ';' ∉ body → cs = body ++ [';'] ++ rest → referenceBody? body = none) :
    NoItem ('&' :: cs) := by
  intro a x rest hitem heq
  cases hitem with
  | run hne hplain =>
    cases a with
    | nil => exact hne rfl
    | cons d a =>
      obtain rfl := (List.cons.inj heq).1
      exact (hplain _ List.mem_cons_self).1 rfl
  | @reference body c hbody hname =>
    have hnone := h body rest hbody (List.cons.inj heq).2
    rw [referenceBody?_eq_some_iff.2 hname] at hnone
    cases hnone
  | cdata =>
    rw [cdataOpen_toList] at heq
    exact absurd (List.cons.inj heq).1 (by decide)

/-- What begins with `<` is a section, up to its first close. -/
theorem noItem_of_less
    (h : ∀ inner, '<' :: cs = cdataOpen.toList ++ inner → ¬ cdataClose.toList <:+: inner) :
    NoItem ('<' :: cs) := by
  intro a x rest hitem heq
  cases hitem with
  | run hne hplain =>
    cases a with
    | nil => exact hne rfl
    | cons d a =>
      obtain rfl := (List.cons.inj heq).1
      exact (hplain _ List.mem_cons_self).2 rfl
  | reference => exact absurd (List.cons.inj heq).1 (by decide)
  | cdata =>
    rw [List.append_assoc, List.append_assoc] at heq
    exact h _ heq ⟨x, rest, by rw [List.append_assoc]⟩

/-! ### One step of the decoder -/

/-- The byte that an error is at. -/
def MarkupError.offset : MarkupError → Nat
  | .unknownReference _ offset => offset
  | .unterminatedSection offset => offset
  | .unescaped _ offset => offset

/-- The error fits what stands at its place. -/
def MarkupError.Fits (e : MarkupError) (cs : List Char) : Prop :=
  ((∃ o, e = .unterminatedSection o) ↔ cdataOpen.toList <+: cs) ∧
    ((∃ r o, e = .unknownReference r o) ↔ cs.head? = some '&') ∧
    ((∃ d o, e = .unescaped d o) ↔ ¬ cdataOpen.toList <+: cs ∧ cs.head? ≠ some '&')

/-- A text at which the decoder stops: an item should begin and none does. -/
structure Stuck (e : MarkupError) (cs : List Char) : Prop where
  head : cs.head? = some '&' ∨ cs.head? = some '<'
  noItem : NoItem cs
  fits : e.Fits cs

/-- No section is opened at an ampersand. -/
theorem not_cdataOpen_of_ampersand : ¬ cdataOpen.toList <+: '&' :: cs := by
  rintro ⟨inner, hinner⟩
  rw [cdataOpen_toList] at hinner
  exact absurd (List.cons.inj hinner).1 (by decide)

/-- Where no item is found at an ampersand, decoding is stuck there at an unknown reference. -/
theorem stuck_unknownReference {r : String} {offset : Nat} (h : NoItem ('&' :: cs)) :
    Stuck (.unknownReference r offset) ('&' :: cs) := by
  refine ⟨.inl rfl, h, ?_, ?_, ?_⟩
  · simp [not_cdataOpen_of_ampersand]
  · simp
  · simp

/-- A step of the decoder is an item, or stops where no item stands. -/
def ItemOrStuck (offset : Nat) (c : Char) (cs : List Char) : Prop :=
  (∃ out body rest, item offset c cs = .ok (out, body.length) ∧ cs = body ++ rest ∧
    Item (c :: body) out) ∨
  ∃ e, item offset c cs = .error e ∧ e.offset = offset ∧ Stuck e (c :: cs)

/-- What a section is opened with ends at the first close, or nowhere. -/
theorem itemOrStuck_section {inner : List Char} (offset : Nat)
    (hinner : '<' :: cs = cdataOpen.toList ++ inner) : ItemOrStuck offset '<' cs := by
  unfold ItemOrStuck item
  rw [after?_eq_some_iff.2 hinner]
  dsimp only
  cases hclose : breakAt? cdataClose.toList inner with
  | some parts =>
    obtain ⟨body, rest⟩ := parts
    have hbody : ¬ cdataClose.toList <:+: body := by
      rintro ⟨l, r, rfl⟩
      have hfirst := (breakAt?_eq_some_iff.1 hclose).2 l (r ++ cdataClose.toList ++ rest)
        (by rw [eq_of_breakAt? hclose]; simp)
      rw [cdataClose_toList] at hfirst
      simp only [List.length_append, List.length_cons, List.length_nil] at hfirst
      omega
    have hcs : '<' :: cs = cdataOpen.toList ++ body ++ cdataClose.toList ++ rest := by
      rw [hinner, eq_of_breakAt? hclose]
      simp
    refine .inl ⟨body, cdataOpen.toList.tail ++ body ++ cdataClose.toList, rest, ?_, ?_, ?_⟩
    · dsimp only
      congr 2
      rw [List.length_append, List.length_append, List.length_tail, String.length_toList,
        String.length_toList]
      have : 0 < cdataOpen.length := by decide
      omega
    · rw [cdataOpen_toList] at hcs ⊢
      exact (List.cons.inj hcs).2
    · have hitem := Item.cdata hbody
      rw [cdataOpen_toList] at hitem ⊢
      exact hitem
  | none =>
    refine .inr ⟨.unterminatedSection offset, rfl, rfl, .inr rfl,
      noItem_of_less fun other hother => ?_, ?_, ?_, ?_⟩
    · rw [hinner] at hother
      rw [← List.append_cancel_left hother]
      exact breakAt?_eq_none_iff.1 hclose
    · simpa using ⟨inner, hinner.symm⟩
    · simp
    · simpa using ⟨inner, hinner.symm⟩

/-- What `&` begins ends at the first `;`, or nowhere. -/
theorem itemOrStuck_ampersand (offset : Nat) (cs : List Char) : ItemOrStuck offset '&' cs := by
  unfold ItemOrStuck item
  rw [after?_cdataOpen_of_ne (by decide)]
  dsimp only
  rw [if_pos rfl]
  cases hsemi : breakAt? [';'] cs with
  | some parts =>
    obtain ⟨body, rest⟩ := parts
    have hcs := eq_of_breakAt? hsemi
    cases hname : referenceBody? body with
    | some ch =>
      have hbody : ';' ∉ body := by
        intro hmem
        obtain ⟨l, r, rfl⟩ := List.append_of_mem hmem
        have hfirst := (breakAt?_eq_some_iff.1 hsemi).2 l (r ++ [';'] ++ rest)
          (by rw [hcs]; simp)
        simp only [List.length_append, List.length_cons] at hfirst
        omega
      refine .inl ⟨[ch], body ++ [';'], rest, ?_, hcs, ?_⟩
      · dsimp only
        rw [hname, List.length_append, List.length_singleton]
      · exact .reference hbody (referenceBody?_eq_some_iff.1 hname)
    | none =>
      refine .inr ⟨.unknownReference (String.ofList ('&' :: body ++ [';'])) offset, ?_, rfl,
        stuck_unknownReference (noItem_of_ampersand fun other tail hother heq => ?_)⟩
      · dsimp only
        rw [hname]
      · rw [heq, breakAt?_singleton hother] at hsemi
        obtain ⟨rfl, _⟩ := Prod.mk.inj (Option.some.inj hsemi)
        exact hname
  | none =>
    refine .inr ⟨.unknownReference (String.ofList ('&' :: cs)) offset, rfl, rfl,
      stuck_unknownReference (noItem_of_ampersand fun other tail hother heq => ?_)⟩
    rw [heq, breakAt?_singleton hother] at hsemi
    cases hsemi

/-- **A step of the decoder is an item, or no item stands there.** -/
theorem itemOrStuck (offset : Nat) (c : Char) (cs : List Char) : ItemOrStuck offset c cs := by
  cases hopen : after? cdataOpen.toList (c :: cs) with
  | some inner =>
    have hinner := after?_eq_some_iff.1 hopen
    obtain rfl : c = '<' := by
      rw [cdataOpen_toList] at hinner
      exact (List.cons.inj hinner).1
    exact itemOrStuck_section offset hinner
  | none =>
    by_cases hamp : c = '&'
    · subst hamp
      exact itemOrStuck_ampersand offset cs
    · unfold ItemOrStuck item
      rw [hopen]
      dsimp only
      rw [if_neg hamp]
      split
      · rename_i hless
        subst hless
        have hstart : ¬ cdataOpen.toList <+: '<' :: cs := by
          rintro ⟨inner, hinner⟩
          rw [after?_eq_some_iff.2 hinner.symm] at hopen
          cases hopen
        refine .inr ⟨.unescaped '<' offset, rfl, rfl, .inr rfl,
          noItem_of_less fun inner hinner => absurd ⟨inner, hinner.symm⟩ hstart, ?_, ?_, ?_⟩
        · simpa using hstart
        · simp
        · simpa using hstart
      · rename_i hless
        exact .inl ⟨[c], [], cs, rfl, rfl,
          .run (List.cons_ne_nil _ _) fun d hd => by
            obtain rfl := List.mem_singleton.1 hd
            exact ⟨hamp, hless⟩⟩

/-! ### The whole text -/

/-- **The decoder goes on from item to item**: it answers what the row of items stands for,
or stops behind a row of items where none begins. -/
theorem decodeFrom_spec (offset : Nat) (cs : List Char) :
    (∃ out, decodeFrom 0 offset cs = .ok out ∧ Accepts cs out) ∨
    ∃ e before rest, decodeFrom 0 offset cs = .error e ∧ cs = before ++ rest ∧
      e.offset = offset + byteLength before ∧ (∃ out, Accepts before out) ∧ Stuck e rest := by
  induction hlength : cs.length using Nat.strongRecOn generalizing offset cs with
  | ind k ih =>
    cases cs with
    | nil => exact .inl ⟨[], rfl, .nil⟩
    | cons c cs =>
      rw [decodeFrom_zero_cons]
      rcases itemOrStuck offset c cs with ⟨out, body, rest, hread, rfl, hitem⟩ |
        ⟨e, hread, hat, hstuck⟩
      · rw [hread]
        dsimp only
        rw [decodeFrom_length_append]
        have hshorter : rest.length < k := by
          rw [← hlength]
          simp only [List.length_cons, List.length_append]
          omega
        rcases ih _ hshorter (offset + c.utf8Size + byteLength body) rest rfl with
          ⟨tail, hdecode, haccepts⟩ | ⟨e, before, stop, hdecode, rfl, hat, ⟨tail, haccepts⟩, hstuck⟩
        · rw [hdecode]
          exact .inl ⟨out ++ tail, rfl, .cons hitem haccepts⟩
        · rw [hdecode]
          refine .inr ⟨e, c :: body ++ before, stop, rfl, by simp, ?_, ⟨_, .cons hitem haccepts⟩,
            hstuck⟩
          rw [hat, List.cons_append, byteLength_cons, byteLength_append]
          omega
      · rw [hread]
        exact .inr ⟨e, [], c :: cs, rfl, rfl, by simpa using hat, ⟨[], .nil⟩, hstuck⟩

/-- **Markup is accepted just if it is a row of items**, for what they stand for; and what is
no such row is refused at the first `&` or `<`, behind a row of items, with which no item
begins.  A reference is an item just if its reader takes it. -/
theorem decode_eq_ok_iff_accepts (markup : String) :
    (∀ text : String, decode markup = .ok text ↔ Accepts markup.toList text.toList) ∧
      ((¬ ∃ text, Accepts markup.toList text) →
        ∃ e before c rest, decode markup = .error e ∧ markup.toList = before ++ c :: rest ∧
          e.offset = byteLength before ∧ (c = '&' ∨ c = '<') ∧ (∃ text, Accepts before text) ∧
          (∀ a x tail, Item a x → c :: rest ≠ a ++ tail) ∧
          ((∃ o, e = .unterminatedSection o) ↔ cdataOpen.toList <+: c :: rest) ∧
          ((∃ r o, e = .unknownReference r o) ↔ c = '&') ∧
          ((∃ d o, e = .unescaped d o) ↔ ¬ cdataOpen.toList <+: c :: rest ∧ c ≠ '&')) ∧
      ∀ body c, decodeReference? (String.ofList ('&' :: (body ++ [';']))) = some c ↔
        Names body c := by
  refine ⟨fun text => ⟨fun h => ?_, fun h => decode_of_readsAs h.readsAs⟩, fun hrefused => ?_,
    fun body c => decodeReference?_eq_some_iff⟩
  · unfold decode at h
    rcases decodeFrom_spec 0 markup.toList with ⟨out, hdecode, haccepts⟩ | ⟨e, _, _, hdecode, _⟩
    · rw [hdecode] at h
      obtain rfl := Except.ok.inj h
      rwa [String.toList_ofList]
    · rw [hdecode] at h
      cases h
  · rcases decodeFrom_spec 0 markup.toList with
      ⟨out, _, haccepts⟩ | ⟨e, before, stop, hdecode, hmarkup, hat, haccepts, hstuck⟩
    · exact absurd ⟨out, haccepts⟩ hrefused
    · obtain ⟨hhead, hnoItem, hsection, hreference, hplain⟩ := hstuck
      cases stop with
      | nil => simp at hhead
      | cons c rest =>
        refine ⟨e, before, c, rest, ?_, hmarkup, by simpa using hat, by simpa using hhead, haccepts,
          hnoItem, hsection, by simpa using hreference, by simpa using hplain⟩
        unfold decode
        rw [hdecode]

end Markup
end Lineage
