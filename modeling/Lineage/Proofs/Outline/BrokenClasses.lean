/-
# Classes with a line broken

Where a line is broken at a semicolon, the statements of a class body stand side by side
(`Beside`): outside of the line, at a statement of it, or in front of it, where documentation that
fills the line up to the break is passed in the other source.  A statement leads from such places
to such places (`leads_classStatement`), in the other source perhaps in two rounds.

A class body on the line of its header ends in front of the line that is broken, or the line is
part of that class; and then it is part of a class in that body, if the innermost class around the
line has its body on lines of its own (`HasSuite`).  By induction on the levels of classes, a class
has the same attributes in both sources (`keepsClasses_classWithin`).
-/

import Lineage.Proofs.Outline.ClassLines
import Lineage.Proofs.Outline.Statements
import Lineage.Proofs.Outline.Unpacking

namespace Lineage
namespace Outline

open Source Reading Text Parallel Cursor

variable {o o' : Origin} {c c' d d' : Cursor} {t : Token} {n k : Nat}

/-! ### Rounds -/

section Rounds

variable {inner : List Decorator → Reading ClassOutline} {found : ClassBody}

/-- At the end of the source the block of a class ends. -/
theorem indentedRound_atEnd (h : c.rest = []) :
    indentedRound inner found o c = .done (.stop found) c := by
  rw [done_iff_ends]
  simp [ends_indentedRound, next?_eq_none_iff.2 h]

/-- At a `dedent` the block of a class ends behind it. -/
theorem indentedRound_dedent (h : c.next? = some .dedent) :
    indentedRound inner found o c = .done (.stop found) c.advance := by
  obtain ⟨l, ls, hrest, _⟩ := next?_eq_some_iff.1 h
  rw [done_iff_ends]
  simp [ends_indentedRound, h, hrest]

/-- A class body on the line of its header ends with the line. -/
theorem inlineRound_stop (h : c.afterNewline = true ∨ c.next? = some .dedent ∨ c.rest = []) :
    inlineRound inner found o c = .done (.stop found) c := by
  rw [done_iff_ends, ends_inlineRound]
  refine ⟨fun _ => ⟨rfl, rfl⟩, fun t hafter hnext ht => ?_⟩
  rcases h with h | h | h
  · rw [hafter] at h
    cases h
  · exact absurd (Option.some.inj (hnext.symm.trans h)) ht
  · rw [next?_eq_none_iff.2 h] at hnext
    cases hnext

/-- Before that it has one more statement. -/
theorem ends_inlineRound_statement {w : Endings} {Q : Round ClassBody ClassBody → Cursor → Prop}
    (hafter : c.afterNewline = false) (hnext : c.next? = some t) (ht : t ≠ .dedent) :
    Ends w (inlineRound inner found) o c Q ↔
      Ends w (classStatement inner found) o c fun b d => Q (.again b) d := by
  obtain ⟨l, ls, hrest, _⟩ := next?_eq_some_iff.1 hnext
  simp [ends_inlineRound, hafter, hnext, hrest, ht]

/-- What is found in a class body is added to what has been found. -/
theorem fits_classStatement {P : ClassOutline → Prop} :
    Ends .any (classStatement inner found) o c fun b _ => Fits P b.classes → Fits P found.classes :=
  ends_classStatement_adds (ends_any fun _ _ => id)
    (fun _ _ _ => ends_any fun _ _ hfits => (Fits.concat_iff.1 hfits).1)
    (fun _ _ _ => ends_any fun _ _ => id) fun _ _ => id

/-- A class is read from the place where it begins, its decorators passed, to the place where it
ends. -/
def SpansPlaces (inner : List Decorator → Reading ClassOutline) : Prop :=
  ∀ o c ds, Ends .any (inner ds) o c fun j d =>
    j.span.start = (c.place o).start ∧ j.span.stop = d.lastStop

/-- A class has its span around its place. -/
theorem spansPlaces_classWithin (n : Nat) : SpansPlaces (classWithin n) := by
  intro o c ds
  cases n with
  | zero => trivial
  | succ n =>
    simp only [classWithin, classOver_eq, ends_bind, ends_peekStart, ends_spanFrom, ends_pure]
    exact ends_any fun _ _ => ends_any fun _ _ => ⟨trivial, trivial⟩

/-- The classes that a statement of a class body adds stand behind the place where it begins. -/
theorem added_classStatement (hspans : SpansPlaces inner) (hc : c.Stands o) :
    Ends .any (classStatement inner found) o c fun b d => ∀ j ∈ b.classes, j ∈ found.classes ∨
      c.lastStop ≤ j.span.start ∧ j.span.stop ≤ d.lastStop := by
  refine ends_classStatement_adds (ends_any fun _ _ _ => .inl) (fun ds e he => ?_)
    (fun _ _ _ => ends_any fun _ _ _ => .inl) fun _ _ _ => .inl
  refine (hspans o e ds).mono fun k d ⟨hstart, hstop⟩ j hj => ?_
  rcases List.mem_append.1 hj with hj | hj
  · exact .inl hj
  · obtain rfl := List.mem_singleton.1 hj
    have h := he.follows hc
    exact .inr ⟨hstart ▸ Nat.le_trans h.lastStop_le h.stands.place.2.2.1, Nat.le_of_eq hstop⟩

end Rounds

/-- At a place the source ends, a block ends, or there is something else. -/
theorem Cursor.cases_next (c : Cursor) :
    c.rest = [] ∨ c.next? = some .dedent ∨ ∃ t, c.next? = some t ∧ t ≠ .dedent := by
  cases hrest : c.rest with
  | nil => exact .inl rfl
  | cons l ls =>
    have hnext : c.next? = some l.token := next?_eq_some_iff.2 ⟨_, _, hrest, rfl⟩
    by_cases hdedent : l.token = .dedent
    · exact .inr (.inl (hnext.trans (congrArg some hdedent)))
    · exact .inr (.inr ⟨_, hnext, hdedent⟩)

/-- Where a body on the line of its header does not end, there is a token to go on with. -/
theorem Cursor.exists_next_of_not_stop
    (h : ¬(c.afterNewline = true ∨ c.next? = some .dedent ∨ c.rest = [])) :
    c.afterNewline = false ∧ ∃ t, c.next? = some t ∧ t ≠ .dedent := by
  obtain ⟨hafter, hdedent, hrest⟩ := not_or.1 h |>.imp_right not_or.1
  refine ⟨Bool.not_eq_true _ ▸ hafter, ?_⟩
  exact (c.cases_next.resolve_left hrest).resolve_left hdedent

namespace LineBreak

variable {B : LineBreak o o'}

/-- The stretch is part of the class. -/
def Covers (k : ClassOutline) (e : Extent) : Prop := k.span.start ≤ e.start ∧ e.stop ≤ k.span.stop

/-- If the class is the innermost one around the token at `first`, its body is on lines of its
own. -/
def HasSuite (o : Origin) (tokens : List Lexeme) (first : Extent) (k : ClassOutline) : Prop :=
  Covers k first → (∀ j ∈ k.classes, ¬Covers j first) →
    ∀ c header c₁, Follows o (.first tokens) c → (c.place o).start = k.span.start →
      classHeader o c = .done header c₁ → c₁.next? = some .newline

/-- What is found fits, and none of it begins where the token at `first` does: it ends in front of
that token or begins behind it (`q`), or a class of it is around the token. -/
def Spares (P : ClassOutline → Prop) (q : Prop) (first : Extent) (b : ClassBody) (d : Cursor) :
    Prop :=
  Fits P b.classes ∧ (q ∨ d.lastStop < first.stop ∨ ∃ j ∈ b.classes, Covers j first)

/-! ### Statements side by side -/

variable (B) in
/-- What is found in a class body is found in the other source as well, and both bodies end outside
of the line, if `P` holds of the classes. -/
def KeepsBody (P : ClassOutline → Prop) (c c' : Cursor) (x y : Reading ClassBody) : Prop :=
  Ends .any x o c fun b d => Fits P b.classes →
    ∃ b' d', y o' c' = .done b' d' ∧ SameBody b b' ∧ B.Abreast d d' ∧ B.Apart B.after.length d

variable (B) in
/-- Where the statements of a block stand side by side in both sources. -/
inductive Beside (c c' : Cursor) : Prop
  /-- Outside of the line, or in front of it. -/
  | apart (h : B.Abreast c c') (hapart : B.Apart (B.after.length + 1) c)
  /-- At a statement of the line. -/
  | inLine (h : B.Abreast c c') (hin : B.InLine c)
  /-- In front of the line; the other source is behind the break, for what is in front of it is
  documentation there. -/
  | documented (hrest : c.rest = B.fromLine)
    (h : B.Abreast (c.advanceBy (B.line.length + 1)) c')
    (hstarts : startsBinding c.tokens = false)
    (hbehind : startsBinding ((B.next :: B.after).map (·.token)) = false)

/-- Behind the break, the tokens behind it are ahead. -/
theorem rest_eq_behind (h : Reaches (.first B.tokens) c)
    (hlength : c.rest.length = B.after.length + 1) : c.rest = B.next :: B.after := by
  have hsuffix : B.next :: B.after <:+ B.tokens :=
    ((List.suffix_cons _ _).trans (List.suffix_append _ _)).trans (List.suffix_append _ _)
  exact (List.suffix_of_suffix_length_le h.suffix hsuffix (Nat.le_of_eq hlength)).eq_of_length
    hlength

/-- The first token of the line. -/
theorem exists_first (B : LineBreak o o') : ∃ first line, B.line = first :: line ∧
    first.token.isLayout = false ∧ B.fromLine = first :: (line ++ B.mark :: B.next :: B.after) := by
  obtain ⟨first, line, hcons⟩ := List.exists_cons_of_ne_nil B.line_ne
  exact ⟨first, line, hcons, B.inLine first (hcons ▸ List.mem_cons_self),
    by rw [fromLine, hcons]; rfl⟩

/-- Behind a token of the layout, the place is outside of the line. -/
theorem Apart.advance_layout (hapart : B.Apart (B.after.length + 1) c) (h : B.Abreast c c')
    (hnext : c.next? = some t) (ht : t.isLayout = true) : B.Apart B.after.length c.advance := by
  have hlayout : ∀ {l : Lexeme} {ls : List Lexeme}, c.rest = l :: ls →
      l.token.isLayout ≠ false := by
    intro l ls hrest hl
    rw [next?, hrest] at hnext
    rw [show l.token = t from Option.some.inj hnext, ht] at hl
    cases hl
  have hline : c.rest.length ≠ B.fromLine.length := by
    intro heq
    obtain ⟨first, line, -, hfirst, hfrom⟩ := B.exists_first
    exact hlayout ((rest_eq_fromLine h.reaches heq).trans hfrom) hfirst
  have hbreak : c.rest.length ≠ B.after.length + 1 := fun heq =>
    hlayout (rest_eq_behind h.reaches heq) B.next_line
  have hlength := length_advance_lt hnext
  unfold Apart at hapart ⊢
  rw [rest_advance, List.length_drop] at hlength ⊢
  omega

/-- Where a block ends, the places are outside of the line. -/
theorem Beside.of_end (h : B.Beside c c') (hend : ∀ t, c.next? = some t → t.isLayout = true) :
    B.Abreast c c' ∧ B.Apart (B.after.length + 1) c := by
  cases h with
  | apart h hapart => exact ⟨h, hapart⟩
  | inLine h hin =>
    obtain ⟨t, ht, hnext, -⟩ := hin.exists_next h
    rw [hend t hnext] at ht
    cases ht
  | documented hrest =>
    obtain ⟨first, line, -, hfirst, hfrom⟩ := B.exists_first
    rw [hend first.token (next?_eq_some_iff.2 ⟨_, _, hrest.trans hfrom, rfl⟩)] at hfirst
    cases hfirst

/-- In front of the line no definition begins, and behind the break the tokens behind it are
ahead. -/
theorem documented_rest (hrest : c.rest = B.fromLine)
    (h : B.Abreast (c.advanceBy (B.line.length + 1)) c') (hnext : c.next? = some t) :
    t.isLayout = false ∧ opensScope c.tokens = false ∧
      (c.advanceBy (B.line.length + 1)).rest = B.next :: B.after := by
  refine ⟨?_, by rw [Cursor.tokens, hrest]; exact B.opens, rest_eq_behind h.reaches ?_⟩
  · obtain ⟨first, line, -, hfirst, hfrom⟩ := B.exists_first
    rw [next?, hrest, hfrom] at hnext
    rwa [← show first.token = t from Option.some.inj hnext]
  · rw [rest_advanceBy, hrest, List.length_drop, length_fromLine]
    omega

section Line

variable (hline : Separated o B.tokens B.mark (B.next :: B.after) B.line)

include hline

/-- Where the line that is broken begins, a statement of it does. -/
theorem inLine_fromLine (hrest : c.rest = B.fromLine) : B.InLine c :=
  ⟨B.line, B.inLine, hline, hrest⟩

/-- Outside of the line, or at a statement of it. -/
theorem Apart.inner_or_inLine (hapart : B.Apart k c) (h : B.Abreast c c') :
    B.Inner k c ∨ B.InLine c := by
  rcases hapart with hle | hle
  · rcases Nat.lt_or_eq_of_le hle with hlt | heq
    · exact .inl (.inl hlt)
    · exact .inr (inLine_fromLine hline (rest_eq_fromLine h.reaches heq.symm))
  · exact .inl (.inr hle)

/-- **Documentation is passed in both sources**, or it fills the line up to the break. -/
theorem beside_docstring (h : B.Abreast c c') (hapart : B.Apart B.after.length c) :
    Ends .any docstring o c fun _ d =>
      Ends ⟨False, False⟩ docstring o' c' fun _ d' => B.Beside d d' := by
  have hwiden : ∀ {d : Cursor}, B.Apart B.after.length d → B.Apart (B.after.length + 1) d :=
    fun hd => hd.imp_right (Nat.le_trans · (Nat.le_succ _))
  by_cases hstart : c.rest.length = B.fromLine.length
  · have hrest := rest_eq_fromLine h.reaches hstart
    obtain ⟨b, -, hb, hrest'⟩ := h.exists_before (Nat.le_of_eq hstart.symm)
    obtain rfl : b = [] := List.append_left_eq_self.1 (hb.symm.trans hrest)
    rw [List.nil_append] at hrest'
    have htokens : c.tokens = B.line.map (·.token) ++
        .semicolon :: (B.next :: B.after).map (·.token) := by
      rw [Cursor.tokens, hrest, fromLine, List.map_append, List.map_cons, B.semicolon]
    refine (ends_docstring_none htokens (fun t ht => ?_) rfl rfl).mono ?_
    · obtain ⟨l, hl, rfl⟩ := List.mem_map.1 ht
      exact B.inLine l hl
    · rintro doc d rfl
      obtain ⟨doc', d', hdone⟩ := (ends_docstring h.stands').exists_done (accepts_docstring o' c')
      have hreaches := (ends_iff_of_done hdone).1 (Onward.reaches o' c')
      rw [ends_iff_of_done hdone]
      rcases (ends_iff_of_done hdone).1 (ends_docstring h.stands') with rfl | ⟨hpast, text, hnext'⟩
      · exact .apart h (hwiden hapart)
      · -- the documentation is the line up to the break
        have hline' := h.stands'.pastLine_statement false
        rw [hrest', statement_append B.inLine B.newline_token] at hline'
        have habreast := h.advanceBy (B.line.length + 1)
        have hnext := (hapart.next_eq (Nat.le_succ _) h).symm.trans hnext'
        have hstarts : startsBinding d.tokens = false := by
          obtain ⟨l, ls, hrest, hl⟩ := next?_eq_some_iff.1 hnext
          rw [Cursor.tokens, hrest, List.map_cons, hl]
          rfl
        refine .documented hrest ⟨habreast.reaches, h.reaches'.trans hreaches, ?_⟩ hstarts
          (hline.startsBinding_behind ?_)
        · rw [habreast.length_eq, hpast.length_eq hline']
        · rw [Cursor.tokens, hrest] at hstarts
          exact hstarts
  · have hin : B.Inner B.after.length c := hapart.imp_left fun hle =>
      Nat.lt_of_le_of_ne hle (Ne.symm hstart)
    exact Ends.mono (keeps_docstring h hin (Nat.le_succ _)) fun _ _ hd =>
      hd.mono fun _ _ hkept => .apart hkept.1 (hwiden hkept.2)

section Class

variable {P : ClassOutline → Prop} {inner : List Decorator → Reading ClassOutline}
  {found found' : ClassBody} (hinner : B.KeepsClasses P n inner)
  (hsettles : ∀ ds, Settles o (Passes o) n (inner ds))

include hinner hsettles

/-- **Statements of a class body lead to statements of a class body.** -/
theorem leads_classStatement (h : B.Beside c c') (hc : c.Stands o) (hn : c.rest.length < n)
    (hnext : c.next? = some t) (ht : t ≠ .dedent) (hbody : SameBody found found') :
    Ends .any (classStatement inner found) o c fun b d => Fits P b.classes → ∃ b' d',
      Leads (indentedRound inner) o' found' c' b' d' ∧ SameBody b b' ∧ B.Beside d d' := by
  have hpass : Ends .any (classStatement inner found) o c fun _ d =>
      d.rest.length < c.rest.length :=
    ((ends_classStatement hsettles hc hn hnext ht).of_safe trivial).mono fun _ _ hd => hd.length_lt
  have houtside : B.Abreast c c' → B.Inner (B.after.length + 1) c →
      Ends .any (classStatement inner found) o c fun b d => Fits P b.classes → ∃ b' d',
        Leads (indentedRound inner) o' found' c' b' d' ∧ SameBody b b' ∧ B.Beside d d' := by
    intro h hin
    have hnext' := (hin.apart.next_eq (Nat.le_refl _) h).trans hnext
    exact (KeepsIf.leads h (fun _ => ends_indentedRound_statement hnext' ht)
      (keepsIf_classStatement hinner h hin (Nat.le_succ _) (Nat.le_refl _) hn hbody)
      hpass).mono fun b d hd hfits => by
        obtain ⟨b', d', hleads, habreast, hsame, hapart⟩ := hd hfits
        exact ⟨b', d', hleads, hsame, .apart habreast hapart⟩
  have hinside : B.Abreast c c' → B.InLine c →
      Ends .any (classStatement inner found) o c fun b d => Fits P b.classes → ∃ b' d',
        Leads (indentedRound inner) o' found' c' b' d' ∧ SameBody b b' ∧ B.Beside d d' := by
    intro h hin
    refine (leads_inLine inner h hin hpass hbody).mono
      fun b d ⟨b', d', hleads, hsame, habreast, hd⟩ _ => ⟨b', d', hleads, hsame, ?_⟩
    rcases hd with hin' | hle
    · exact .inLine habreast hin'
    · exact .apart habreast (.inr hle)
  cases h with
  | apart h hapart => exact (hapart.inner_or_inLine hline h).elim (houtside h) (hinside h)
  | inLine h hin => exact hinside h hin
  | documented hrest h hstarts hbehind =>
    obtain ⟨hlayout, hopens, hrest'⟩ := documented_rest hrest h hnext
    rw [ends_classStatement_other hnext hlayout hopens hstarts,
      ends_passStatement_semicolon hrest B.inLine B.semicolon]
    refine ends_done.mono fun _ d hdone _ => ?_
    obtain ⟨d', hleads, habreast, hle⟩ := leads_behind found' h hrest' hbehind hdone
    exact ⟨found', d', hleads, hbody, .apart habreast (.inr hle)⟩

/-- **A block of statements keeps pace.** -/
theorem follows_indentedBody (h : B.Beside c c') (hc : c.Stands o) (hn : c.rest.length < n)
    (hbody : SameBody found found') :
    B.KeepsBody P c c' (indentedBody inner found) (indentedBody inner found') := by
  refine follows_rounds (G := fun t _ => Fits P t.classes)
    (J := fun _ c => c.Stands o ∧ c.rest.length < n)
    (I := fun s s' c c' => SameBody s s' ∧ B.Beside c c')
    (Q := fun b b' d d' => SameBody b b' ∧ B.Abreast d d' ∧ B.Apart B.after.length d)
    (fun s c ⟨hc, hn⟩ => ?_) (fun s s' c c' ⟨hc, hn⟩ ⟨hbody, h⟩ => ?_) _ ⟨hc, hn⟩ ⟨hbody, h⟩
    (Nat.lt_succ_self _)
  · rcases c.cases_next with hrest | hdedent | ⟨t, hnext, ht⟩
    · exact (ends_iff_of_done (indentedRound_atEnd hrest)).2 id
    · exact (ends_iff_of_done (indentedRound_dedent hdedent)).2 id
    · rw [ends_indentedRound_statement hnext ht]
      exact (((ends_classStatement hsettles hc hn hnext ht).of_safe trivial).and
        fits_classStatement).mono fun _ d ⟨hpass, hfits⟩ =>
          ⟨⟨hpass.stands, Nat.lt_trans hpass.length_lt hn⟩, hfits⟩
  · rcases c.cases_next with hrest | hdedent | ⟨t, hnext, ht⟩
    · obtain ⟨habreast, -⟩ := h.of_end (by simp [next?, hrest])
      have hrest' : c'.rest = [] := List.eq_nil_of_length_eq_zero (by
        rw [← habreast.length_eq, hrest]
        rfl)
      exact (ends_iff_of_done (indentedRound_atEnd hrest)).2 fun _ =>
        ⟨_, _, indentedRound_atEnd hrest', hbody, habreast, .inr (by simp [hrest])⟩
    · obtain ⟨habreast, hapart⟩ := h.of_end (by simp [hdedent, Token.isLayout, Token.isShift])
      have hdedent' := (hapart.next_eq (Nat.le_refl _) habreast).trans hdedent
      exact (ends_iff_of_done (indentedRound_dedent hdedent)).2 fun _ =>
        ⟨_, _, indentedRound_dedent hdedent', hbody, habreast.advance,
          hapart.advance_layout habreast hdedent rfl⟩
    · rw [ends_indentedRound_statement hnext ht]
      exact (leads_classStatement hline hinner hsettles h hc hn hnext ht hbody).mono
        fun b d hd hfits => hd hfits

omit hline hinner in
/-- A statement at the beginning of the line passes its first token, and it is no class. -/
theorem simple_classStatement {first : Lexeme} {ls : List Lexeme} (hc : c.Stands o)
    (hn : c.rest.length < n) (hrest : c.rest = B.fromLine) (hfirst : B.fromLine = first :: ls) :
    Ends .any (classStatement inner found) o c fun b d =>
      first.extent.stop ≤ d.lastStop ∧ b.classes = found.classes := by
  have hrest' := hrest.trans hfirst
  have hnext : c.next? = some first.token := next?_eq_some_iff.2 ⟨_, _, hrest', rfl⟩
  have hlayout : first.token.isLayout = false := by
    obtain ⟨_, _, -, hlayout, hfrom⟩ := B.exists_first
    obtain ⟨rfl, -⟩ := List.cons.inj (hfirst.symm.trans hfrom)
    exact hlayout
  have hreaches : Ends .any (classStatement inner found) o c fun b d =>
      Reaches c d ∧ b.classes = found.classes := by
    rw [ends_classStatement_simple hnext hlayout (by rw [Cursor.tokens, hrest]; exact B.opens)]
    split
    · rw [classBinding_eq]
      exact (Onward.reaches o c).mono fun _ _ h => ⟨h, rfl⟩
    · exact (Onward.reaches o c).mono fun _ _ h => ⟨h, rfl⟩
  have hplace : c.place o = first.extent := by rw [place, hrest']
  have hdedent : first.token ≠ .dedent := fun hdedent => by
    rw [hdedent] at hlayout
    cases hlayout
  have hpass : Ends .any (classStatement inner found) o c fun _ d => Passes o c d :=
    (ends_classStatement hsettles hc hn hnext hdedent).of_safe trivial
  refine (hreaches.and hpass).mono ?_
  rintro b d ⟨⟨hd, hclasses⟩, hpass⟩
  refine ⟨?_, hclasses⟩
  obtain ⟨m, made, rfl⟩ := hd.exists_succ hpass.length_lt
  exact hplace ▸ hc.place_stop_le hnext hlayout

section Inline

variable {first : Lexeme} {ls : List Lexeme} {q : Prop} (hfirst : B.fromLine = first :: ls)
  (hwidth : first.extent.start < first.extent.stop) (hspans : SpansPlaces inner)

include hwidth hspans

omit hline hinner hsettles in
/-- What spares the line behind a statement, does so in front of it. -/
theorem spares_classStatement (hc : c.Stands o) :
    Ends .any (classStatement inner found) o c fun b d => c.lastStop ≤ d.lastStop →
      Spares P q first.extent b d → Spares P q first.extent found c := by
  refine (fits_classStatement.and (added_classStatement hspans hc)).mono
    fun b d ⟨hfits, hadded⟩ hle ⟨hfits', hspares⟩ => ⟨hfits hfits', ?_⟩
  rcases hspares with hq | hstop | ⟨j, hj, hcovers⟩
  · exact .inl hq
  · exact .inr (.inl (Nat.lt_of_le_of_lt hle hstop))
  · rcases hadded j hj with hj | ⟨hstart, -⟩
    · exact .inr (.inr ⟨j, hj, hcovers⟩)
    · exact .inr (.inl (Nat.lt_of_le_of_lt (Nat.le_trans hstart hcovers.1) hwidth))

omit hline hinner in
/-- One statement on the line of a class header: the classes found end where it ends, and what
spares the line behind it does so in front of it. -/
theorem guards_inlineStatement (hc : c.Stands o) (hn : c.rest.length < n)
    (hfound : ∀ j ∈ found.classes, j.span.stop ≤ c.lastStop) (hnext : c.next? = some t)
    (ht : t ≠ .dedent) :
    Ends .any (classStatement inner found) o c fun b d =>
      (d.Stands o ∧ d.rest.length < n ∧ ∀ j ∈ b.classes, j.span.stop ≤ d.lastStop) ∧
        (Spares P q first.extent b d → Spares P q first.extent found c) := by
  refine ((((ends_classStatement hsettles hc hn hnext ht).of_safe trivial).and
    (spares_classStatement (P := P) (q := q) hwidth hspans hc)).and
      (added_classStatement hspans hc)).mono ?_
  rintro _ d ⟨⟨hpass, hspares⟩, hadded⟩
  refine ⟨⟨hpass.stands, Nat.lt_trans hpass.length_lt hn, fun j hj => ?_⟩,
    hspares hpass.lastStop_le⟩
  rcases hadded j hj with hj | ⟨-, hstop⟩
  · exact Nat.le_trans (hfound j hj) hpass.lastStop_le
  · exact hstop

include hfirst

omit hline hinner hwidth hspans in
/-- A statement that begins with the line does not spare it, if the classes that are found end in
front of it. -/
theorem not_spares_classStatement (hc : c.Stands o) (hn : c.rest.length < n)
    (hrest : c.rest = B.fromLine) (hfound : ∀ j ∈ found.classes, j.span.stop ≤ c.lastStop)
    (hq : ¬q) (hwidth : first.extent.start < first.extent.stop) :
    Ends .any (classStatement inner found) o c fun b d => ¬Spares P q first.extent b d := by
  refine (simple_classStatement hsettles hc hn hrest hfirst).mono ?_
  rintro _ d ⟨hpassed, hclasses⟩ ⟨_, hspares⟩
  rcases hspares with hbehind | hlt | ⟨j, hj, hcovers⟩
  · exact hq hbehind
  · exact absurd hpassed (Nat.not_le.2 hlt)
  · have hstop := hfound j (hclasses ▸ hj)
    have hplace : c.place o = first.extent := by rw [place, hrest, hfirst]
    have hle := hplace ▸ hc.place.2.2.1
    have hcovered := hcovers.2
    omega

omit hline hspans in
/-- Statements on the line of a class header lead to such statements, if they spare the line. -/
theorem leads_inlineStatement (h : B.Abreast c c') (hapart : B.Apart B.after.length c)
    (hc : c.Stands o) (hn : c.rest.length < n) (hbody : SameBody found found')
    (hfound : ∀ j ∈ found.classes, j.span.stop ≤ c.lastStop)
    (hq : q → c.rest.length ≤ B.after.length) (hafter : c.afterNewline = false)
    (hnext : c.next? = some t) (ht : t ≠ .dedent) :
    Ends .any (classStatement inner found) o c fun b d => Spares P q first.extent b d →
      ∃ b' d', Leads (inlineRound inner) o' found' c' b' d' ∧ SameBody b b' ∧ B.Abreast d d' ∧
        B.Apart B.after.length d ∧ (q → d.rest.length ≤ B.after.length) := by
  have hline := B.line_pos
  have hahead := B.length_fromLine
  have hnext' := hapart.next_eq (Nat.le_succ _) h
  have hafter' := h.afterNewline_eq (by unfold Apart at hapart; omega)
  have hpass : Ends .any (classStatement inner found) o c fun _ d =>
      d.rest.length < c.rest.length :=
    ((ends_classStatement hsettles hc hn hnext ht).of_safe trivial).mono
      fun _ _ hd => hd.length_lt
  by_cases hstart : c.rest.length = B.fromLine.length
  · refine (not_spares_classStatement hsettles hfirst hc hn (rest_eq_fromLine h.reaches hstart)
      hfound (fun hbehind => ?_) hwidth).mono fun _ _ hnot hspares => absurd hspares hnot
    have hlength := hq hbehind
    omega
  · have hin : B.Inner B.after.length c := hapart.imp_left fun hle =>
      Nat.lt_of_le_of_ne hle (Ne.symm hstart)
    refine (Ends.and (KeepsIf.leads h
      (fun _ => ends_inlineRound_statement (hafter'.trans hafter) (hnext'.trans hnext) ht)
      (keepsIf_classStatement hinner h hin (Nat.le_refl _) (Nat.le_succ _) hn hbody) hpass)
      hpass).mono ?_
    rintro b d ⟨hd, hless⟩ ⟨hfits, _⟩
    obtain ⟨b', d', hleads, habreast, hsame, hapart'⟩ := hd hfits
    exact ⟨b', d', hleads, hsame, habreast, hapart', fun hbehind =>
      Nat.le_trans (Nat.le_of_lt hless) (hq hbehind)⟩

omit hline in
/-- **Statements on the line of a class header keep pace**, if they spare the line. -/
theorem follows_inlineBody (h : B.Abreast c c') (hapart : B.Apart B.after.length c)
    (hc : c.Stands o) (hn : c.rest.length < n) (hbody : SameBody found found')
    (hfound : ∀ j ∈ found.classes, j.span.stop ≤ c.lastStop)
    (hq : q → c.rest.length ≤ B.after.length) :
    Ends .any (inlineBody inner found) o c fun b d => Spares P q first.extent b d →
      ∃ b' d', inlineBody inner found' o' c' = .done b' d' ∧ SameBody b b' ∧ B.Abreast d d' ∧
        B.Apart B.after.length d := by
  refine follows_rounds (G := Spares P q first.extent) (H := Spares P q first.extent)
    (J := fun s c => c.Stands o ∧ c.rest.length < n ∧ ∀ j ∈ s.classes, j.span.stop ≤ c.lastStop)
    (I := fun s s' c c' => SameBody s s' ∧ B.Abreast c c' ∧ B.Apart B.after.length c ∧
      (q → c.rest.length ≤ B.after.length))
    (Q := fun b b' d d' => SameBody b b' ∧ B.Abreast d d' ∧ B.Apart B.after.length d)
    ?_ ?_ _ ⟨hc, hn, hfound⟩ ⟨hbody, h, hapart, hq⟩ (Nat.lt_succ_self _)
  · rintro s c ⟨hc, hn, hfound⟩
    by_cases hstop : c.afterNewline = true ∨ c.next? = some .dedent ∨ c.rest = []
    · exact (ends_iff_of_done (inlineRound_stop hstop)).2 id
    · obtain ⟨hafter, t, hnext, ht⟩ := c.exists_next_of_not_stop hstop
      rw [ends_inlineRound_statement hafter hnext ht]
      exact guards_inlineStatement hsettles hwidth hspans hc hn hfound hnext ht
  · rintro s s' c c' ⟨hc, hn, hfound⟩ ⟨hbody, h, hapart, hq⟩
    by_cases hstop : c.afterNewline = true ∨ c.next? = some .dedent ∨ c.rest = []
    · have hline := B.line_pos
      have hahead := B.length_fromLine
      have hnext' := hapart.next_eq (Nat.le_succ _) h
      have hafter' := h.afterNewline_eq (by unfold Apart at hapart; omega)
      have hrest' : c'.rest = [] ↔ c.rest = [] := by
        rw [← List.length_eq_zero_iff, ← h.length_eq, List.length_eq_zero_iff]
      exact (ends_iff_of_done (inlineRound_stop hstop)).2 fun _ =>
        ⟨_, _, inlineRound_stop (by rwa [hafter', hnext', hrest']), hbody, h, hapart⟩
    · obtain ⟨hafter, t, hnext, ht⟩ := c.exists_next_of_not_stop hstop
      rw [ends_inlineRound_statement hafter hnext ht]
      exact leads_inlineStatement hinner hsettles hfirst hwidth h hapart hc hn hbody hfound hq
        hafter hnext ht

/-- **A class body keeps pace**, on lines of its own, or if it spares the line that is broken. -/
theorem keepsIf_classBody (h : B.Abreast c c') (hin : B.Inner B.after.length c) (hc : c.Stands o)
    (hn : c.rest.length < n) :
    B.KeepsIf (fun r d => Spares P (c.next? = some .newline ∨ c.rest.length ≤ B.after.length)
        first.extent r.2 d) c c'
      (classBody inner) (classBody inner) fun r r' d =>
        SameBody r.2 r'.2 ∧ B.Apart B.after.length d := by
  have hnext := hin.apart.next_eq (Nat.le_succ _) h
  have hwiden : ∀ {d : Cursor}, B.Apart B.after.length d → B.Apart (B.after.length + 1) d :=
    fun hd => hd.imp_right (Nat.le_trans · (Nat.le_succ _))
  have hempty : SameBody ⟨[], [], []⟩ ⟨[], [], []⟩ := ⟨rfl, .nil⟩
  have hdoc : ∀ {c : Cursor}, c.Stands o → Ends .any docstring o c fun _ d => Follows o c d :=
    fun hc => (settles_docstring _ hc (Nat.lt_succ_self _)).of_safe trivial
  unfold KeepsIf
  by_cases hnewline : c.next? = some .newline
  · have hapart := (hwiden hin.apart).advance_layout h hnewline rfl
    have hnext' := hapart.next_eq (Nat.le_succ _) h.advance
    refine (ends_classBody_block hnewline).2 ⟨fun hindent => ?_, fun _ => trivial⟩
    have hapart' := (hwiden hapart).advance_layout h.advance hindent rfl
    have hadvance := hc.advance.trans hc.advance.stands.advance
    refine ((beside_docstring hline h.advance.advance hapart').and
      (hdoc hadvance.stands)).mono ?_
    rintro doc d ⟨hd, hfollows⟩
    obtain ⟨doc', d', hdone, hbeside⟩ := exists_done_of_ends hd
    have hlength := (hadvance.trans hfollows).length_le
    refine Ends.mono (follows_indentedBody hline hinner hsettles hbeside hfollows.stands
      (Nat.lt_of_le_of_lt hlength hn) hempty) ?_
    rintro b e he ⟨hfits, _⟩
    obtain ⟨b', e', hdone', hsame, habreast, hapart⟩ := he hfits
    refine (ends_classBody_block (hnext.trans hnewline)).2
      ⟨fun _ => ?_, fun hnot => hnot (hnext'.trans hindent)⟩
    rw [ends_iff_of_done hdone, ends_iff_of_done hdone']
    exact ⟨habreast, hsame, hapart⟩
  · simp only [hnewline, false_or]
    refine (ends_classBody_line hnewline).2 ?_
    refine (Ends.and (keeps_docstring h hin (Nat.le_succ _)) (hdoc hc)).mono ?_
    rintro doc d ⟨hd, hfollows⟩
    obtain ⟨doc', d', hdone, habreast, hapart⟩ := exists_done_of_ends hd
    refine (follows_inlineBody hinner hsettles (q := c.rest.length ≤ B.after.length) hfirst hwidth
      hspans habreast hapart hfollows.stands (Nat.lt_of_le_of_lt hfollows.length_le hn) hempty
      (List.forall_mem_nil _) (Nat.le_trans hfollows.length_le)).mono fun b e he hguard => ?_
    obtain ⟨b', e', hdone', hsame, habreast', hapart'⟩ := he hguard
    rw [ends_classBody_line (hnext ▸ hnewline), ends_iff_of_done hdone, ends_iff_of_done hdone']
    exact ⟨habreast', hsame, hapart'⟩

end Inline

end Class

omit hline in
/-- A place in front of the line is not behind its first token. -/
theorem Abreast.place_le_first {first : Lexeme} {ls : List Lexeme} (h : B.Abreast c c')
    (hfront : B.fromLine.length ≤ c.rest.length) (hfirst : B.fromLine = first :: ls) :
    (c.place o).start ≤ first.extent.start := by
  have hfollows := h.stands.advanceBy (c.rest.length - B.fromLine.length)
  have hreaches := h.reaches.trans (reaches_advanceBy (c.rest.length - B.fromLine.length) c)
  have hrest := rest_eq_fromLine hreaches (by
    rw [rest_advanceBy, List.length_drop]
    omega)
  have hplace : (c.advanceBy (c.rest.length - B.fromLine.length)).place o = first.extent := by
    rw [place, hrest, hfirst]
  exact hplace ▸ hfollows.place_le h.stands

omit hline in
/-- No class begins behind the break. -/
theorem Inner.of_startsClass (h : B.Abreast c c') (hin : B.Inner (B.after.length + 1) c)
    (hclass : c.next? = some .classKeyword) : B.Inner B.after.length c := by
  refine hin.imp_right fun hle => Nat.le_of_lt_succ (Nat.lt_of_le_of_ne hle fun heq => ?_)
  have hopens := B.opens_next
  rw [← rest_eq_behind h.reaches heq] at hopens
  rw [show c.rest.map (·.token) = c.tokens from rfl, opensScope_tokens] at hopens
  simp [startsScope, hclass] at hopens

omit hline in
/-- The body of a class spares the line, if the innermost class around the line has a suite. -/
theorem Abreast.spares_classBody {first : Lexeme} {ls : List Lexeme} {k : ClassOutline}
    {header : String × List (Argument Expression)} {c₁ : Cursor} {b : ClassBody}
    (h : B.Abreast c c') (hfits : Fits (HasSuite o B.tokens first.extent) [k])
    (hdone : classHeader o c = .done header c₁) (hlength : c₁.rest.length ≤ c.rest.length)
    (hin : B.Inner B.after.length c₁) (hfirst : B.fromLine = first :: ls)
    (hstart : k.span.start = (c.place o).start) (hstop : k.span.stop = d.lastStop)
    (hclasses : k.classes = b.classes) :
    Spares (HasSuite o B.tokens first.extent)
      (c₁.next? = some .newline ∨ c₁.rest.length ≤ B.after.length) first.extent b d := by
  obtain ⟨hsuite, hinside⟩ := fits_singleton.1 hfits
  rw [hclasses] at hinside
  refine ⟨hinside, ?_⟩
  rcases hin with hfront | hback
  · rcases Nat.lt_or_ge d.lastStop first.extent.stop with hlt | hge
    · exact .inr (.inl hlt)
    by_cases hinner : ∃ j ∈ b.classes, Covers j first.extent
    · exact .inr (.inr hinner)
    -- no class in this one is around the line, so this one has the suite
    have hle := h.place_le_first (Nat.le_of_lt (Nat.lt_of_lt_of_le hfront hlength)) hfirst
    have hcovers : Covers k first.extent := ⟨hstart ▸ hle, hstop ▸ hge⟩
    have hinnermost : ∀ j ∈ k.classes, ¬ Covers j first.extent := fun j hj hcovers =>
      hinner ⟨j, hclasses ▸ hj, hcovers⟩
    exact .inl (.inl (hsuite hcovers hinnermost c header c₁ h.follows hstart.symm hdone))
  · exact .inl (.inr hback)

/-- **A class keeps pace**, if the innermost class around the line has its body on lines of its
own. -/
theorem keepsClasses_classWithin {first : Lexeme} {ls : List Lexeme}
    (hfirst : B.fromLine = first :: ls) (hwidth : first.extent.start < first.extent.stop)
    (n : Nat) :
    B.KeepsClasses (HasSuite o B.tokens first.extent) n (classWithin n) := by
  induction n with
  | zero => exact fun _ _ _ _ hn => absurd hn (Nat.not_lt_zero _)
  | succ n ih =>
    intro c c' h hin hn ds ds'
    have hheader := ((ends_classHeader h.stands).of_safe (w := .any) trivial).found
    by_cases hclass : c.next? = some .classKeyword
    · have hin' : B.Inner B.after.length c := hin.of_startsClass h hclass
      have honLine : Ends .any classHeader o c fun _ c₁ => OnLine o c c₁ := by
        refine hheader.mono ?_
        rintro header c₁ ⟨_, _, _, c₀, h₀, hcolon, hc₁⟩
        exact hc₁ ▸ h₀.onLine.trans (h₀.stands.onLine_advance hcolon rfl)
      have hkeeps := h.keeps_line hin' (Nat.le_succ _) (fun _ => sim_classHeader) honLine
      simp only [classWithin, classOver_eq, KeepsIf, ends_bind, ends_peekStart]
      refine (Ends.and hkeeps hheader).mono ?_
      rintro header c₁ ⟨hd, hdone, _, _, c₀, h₀, hcolon, hc₁⟩
      obtain ⟨header', c₁', hdone', h₁, hname, hin₁⟩ := exists_done_of_ends hd
      have hlength : c₁.rest.length < n := by
        have hless := length_advance_lt hcolon
        have hle := h₀.toFollows.length_le
        rw [← hc₁] at hless
        omega
      have hstands : c₁.Stands o := hc₁ ▸ h₀.stands.advance.stands
      refine Ends.mono (keepsIf_classBody hline ih (settles_classWithin n) hfirst hwidth
        (spansPlaces_classWithin n) h₁ hin₁ hstands hlength) fun r d hr => ?_
      simp only [ends_spanFrom, ends_pure, ends_iff_of_done hdone']
      intro hfits
      have hspares := h.spares_classBody hfits hdone
        (h₀.toFollows.trans (hc₁ ▸ h₀.stands.advance)).length_le hin₁ hfirst rfl rfl rfl
      refine (hr hspares).mono ?_
      rintro r' d' ⟨habreast, hsame, hapart⟩
      exact ⟨habreast.made _ _, sameClasses_singleton ⟨hname, hsame.attributes⟩ hsame.classes,
        hapart⟩
    · simp only [classWithin, classOver_eq, KeepsIf, ends_bind, ends_peekStart]
      refine hheader.mono ?_
      rintro _ _ ⟨_, hclass', _⟩
      exact absurd hclass' hclass

end Line

end LineBreak

end Outline
end Lineage
