/-
# Statements are separated by semicolons

If a line of a class body is broken at a semicolon, the classes have the same attributes as before
(`sameClasses_of_broken`): of the statements in front of the semicolon, each one binds names and is
read to its end, or one of them is passed with the rest of the line and no names are bound behind
the semicolon (`Separated`); and the innermost class around the line has its body on lines of its
own (`HasSuite`).

Without the first condition it is not so (`not_sameClasses_passed`): a statement that binds no names
is passed with the rest of its line, and with it the bindings behind the semicolon.
-/

import Lineage.Proofs.Source.Breaking
import Lineage.Proofs.Outline.BrokenClasses
import Lineage.Proofs.Outline.Faithfulness
import Lineage.Proofs.Outline.Tree

namespace Lineage
namespace Outline

open Source Reading Text Parallel Cursor
open LineBreak (HasSuite)

variable {o o' : Origin} {c c' d d' : Cursor} {t : Token} {n k : Nat}

/-! ### Rounds of a module -/

/-- Where a token is ahead, a round over a module reads a statement. -/
theorem ends_topRound_statement {w : Endings} {found : TopLevel}
    {Q : Round TopLevel TopLevel → Cursor → Prop} (hnext : c.next? = some t) :
    Ends w (topRound found) o c Q ↔ Ends w (topStatement found) o c fun s d => Q (.again s) d := by
  obtain ⟨l, ls, hrest, _⟩ := next?_eq_some_iff.1 hnext
  simp [ends_topRound, hnext, hrest]

/-- At the end of the source, the loop over a module stops. -/
theorem topRound_atEnd {found : TopLevel} (h : c.rest = []) :
    topRound found o c = .done (.stop found) c := by
  rw [done_iff_ends]
  simp [ends_topRound, next?_eq_none_iff.2 h]

/-- A statement of a module that passes a token is one round of the loop. -/
theorem leads_of_topStatement {found s : TopLevel} (hnext : c.next? = some t)
    (h : topStatement found o c = .done s d) (hlength : d.rest.length < c.rest.length) :
    Leads topRound o found c s d :=
  leads_of_round (fun _ => ends_topRound_statement hnext) h hlength

/-- What is found at the top level is added to what has been found. -/
theorem fits_topStatement {P : ClassOutline → Prop} {found : TopLevel} :
    Ends .any (topStatement found) o c fun s _ => Fits P s.classes → Fits P found.classes :=
  ends_topStatement_adds (fun _ _ _ => ends_any fun _ _ hfits => (Fits.concat_iff.1 hfits).1)
    (fun _ _ _ => ends_any fun _ _ => id) fun _ _ => id

namespace LineBreak

variable {B : LineBreak o o'} {found found' : TopLevel}

/-! ### The top level -/

section Top

variable (hline : Separated o B.tokens B.mark (B.next :: B.after) B.line) {first : Lexeme}
  {ls : List Lexeme} (hfirst : B.fromLine = first :: ls)
  (hwidth : first.extent.start < first.extent.stop)

include hline hfirst hwidth

/-- Classes at the top level keep pace outside of the line, if their bodies stand on lines of their
own. -/
theorem keepsClasses_classDefinition (n : Nat) :
    B.KeepsClasses (HasSuite o B.tokens first.extent) n classDefinition := by
  intro c c' h hin _ ds ds'
  have hkeeps := keepsClasses_classWithin hline hfirst hwidth (c.rest.length + 1) h hin
    (Nat.lt_succ_self _) ds ds'
  unfold KeepsIf Ends at hkeeps ⊢
  unfold classDefinition
  rw [← h.length_eq]
  exact hkeeps

/-- **A statement at the top level keeps pace**, outside of the line that is broken. -/
theorem keepsIf_topStatement (h : B.Abreast c c') (hin : B.Inner (B.after.length + 1) c)
    (hsame : SameClasses found.classes found'.classes) :
    B.KeepsIf (fun s _ => Fits (HasSuite o B.tokens first.extent) s.classes) c c'
      (topStatement found) (topStatement found') fun s s' d =>
        SameClasses s.classes s'.classes ∧ B.Apart (B.after.length + 1) d := by
  have hnext := hin.apart.next_eq (Nat.le_refl _) h
  have hdefinition : ∀ {d d'}, B.Abreast d d' → B.Inner (B.after.length + 1) d →
      d.rest.length ≤ c.rest.length → ∀ ds ds',
        B.KeepsIf (fun s _ => Fits (HasSuite o B.tokens first.extent) s.classes) d d'
          (topDefinition found ds) (topDefinition found' ds') fun s s' d =>
            SameClasses s.classes s'.classes ∧ B.Apart (B.after.length + 1) d := by
    intro d d' hd hin' _ ds ds'
    refine keepsIf_definitionOf (G := fun (s : TopLevel) => Fits _ s.classes)
      hd hin' (Nat.le_succ _)
      (Nat.le_refl _) (keepsClasses_classDefinition hline hfirst hwidth _) (Nat.lt_succ_self _)
      (fun hfits => ?_) (fun hj => ?_) ?_ ds ds'
    · exact (Fits.concat_iff.1 hfits).2
    · exact hsame.concat hj
    · exact hsame
  rw [topStatement_eq, topStatement_eq]
  refine keepsIf_statementOf h hin (Nat.le_refl _) hsame hdefinition ?_
  simp only [KeepsIf, topSimple, ends_bind (x := check _), ends_check, hnext]
  refine KeepsIf.ite (fun hdedent => ?_) fun _ => ?_
  · exact fun _ => ⟨h.advance, hsame, hin.advance (beq_iff_eq.1 hdedent)⟩
  · exact (keeps_passStatement h hin (Nat.le_succ _) (Nat.le_refl _)).bindIf
      fun _ _ e e' he hapart _ => ⟨he, hsame, hapart⟩

omit hline hfirst hwidth in
/-- Behind the break, the statement that the one source passes is a statement of a module in the
other. -/
theorem leads_top_behind (h : B.Abreast c c') (hrest : c.rest = B.next :: B.after)
    (hpass : passStatement o c = .done () d) :
    ∃ d', Leads topRound o' found' c' found' d' ∧ B.Abreast d d' ∧
      d.rest.length ≤ B.after.length + 1 := by
  obtain ⟨htokens, d', hdone, habreast, hless, hle⟩ := exists_pass_behind h hrest hpass
  have hnext' : c'.next? = some B.next.token := next?_of_tokens htokens
  have htop : topStatement found' o' c' = .done found' d' := by
    rw [done_iff_ends, ends_topStatement_simple hnext' B.next_line (htokens ▸ B.opens_next),
      ends_iff_of_done hdone]
    exact ⟨rfl, rfl⟩
  exact ⟨d', leads_of_topStatement hnext' htop hless, habreast, hle⟩

variable (found') in
omit hline hfirst hwidth in
/-- At a statement of the line, what is left of the line leads behind the break. -/
theorem leads_top_inLine (h : B.Abreast c c') (hin : B.InLine c) :
    Ends .any (topStatement found) o c fun s d => s = found ∧
      ∃ d', Leads topRound o' found' c' found' d' ∧ B.Abreast d d' ∧
        d.rest.length ≤ B.after.length + 1 := by
  obtain ⟨u, hu, hnext, hnext'⟩ := hin.exists_next h
  obtain ⟨st, hst, hseparated, hrest⟩ := hin
  have hopens : opensScope c.tokens = false := by
    rw [Cursor.tokens, hrest]
    exact hseparated.opensScope_eq_false
  have hopens' : opensScope c'.tokens = false := by
    rw [opensScope_tokens, h.startsScope_eq, ← opensScope_tokens, hopens]
  obtain ⟨e, e', he, hrest', hiff, hpass⟩ := h.pass_line hst hrest
  have htop : topStatement found' o' c' = .done found' e' := by
    rw [done_iff_ends, ends_topStatement_simple hnext' hu hopens', ends_iff_of_done hpass]
    exact ⟨rfl, rfl⟩
  rw [ends_topStatement_simple hnext hu hopens, hiff]
  refine ends_done.mono fun _ d hdone => ⟨rfl, ?_⟩
  obtain ⟨d', hleads, habreast, hle⟩ := leads_top_behind he hrest' hdone
  refine ⟨d', (leads_of_topStatement hnext' htop ?_).trans hleads, habreast, hle⟩
  rw [← he.length_eq, ← h.length_eq, hrest', hrest]
  simp only [List.length_append, List.length_cons]
  omega

/-- **Statements at the top level lead to statements at the top level.** -/
theorem leads_topStatement (h : B.Beside c c') (hc : c.Stands o) (hnext : c.next? = some t)
    (hsame : SameClasses found.classes found'.classes) :
    Ends .any (topStatement found) o c fun s d =>
      Fits (HasSuite o B.tokens first.extent) s.classes → ∃ s' d',
        Leads topRound o' found' c' s' d' ∧ SameClasses s.classes s'.classes ∧ B.Beside d d' := by
  have houtside : B.Abreast c c' → B.Inner (B.after.length + 1) c →
      Ends .any (topStatement found) o c fun s d =>
        Fits (HasSuite o B.tokens first.extent) s.classes → ∃ s' d',
          Leads topRound o' found' c' s' d' ∧ SameClasses s.classes s'.classes ∧ B.Beside d d' := by
    intro h hin
    have hnext' := (hin.apart.next_eq (Nat.le_refl _) h).trans hnext
    have hpass : Ends .any (topStatement found) o c fun _ d => d.rest.length < c.rest.length :=
      ((ends_topStatement hc hnext).of_safe trivial).mono fun _ _ hd => hd.length_lt
    refine (KeepsIf.leads h (fun _ => ends_topRound_statement hnext')
      (keepsIf_topStatement hline hfirst hwidth h hin hsame) hpass).mono fun s d hd hfits => ?_
    obtain ⟨s', d', hleads, habreast, hsame', hapart⟩ := hd hfits
    exact ⟨s', d', hleads, hsame', .apart habreast hapart⟩
  have hinside : B.Abreast c c' → B.InLine c → Ends .any (topStatement found) o c fun s d =>
      Fits (HasSuite o B.tokens first.extent) s.classes → ∃ s' d',
        Leads topRound o' found' c' s' d' ∧ SameClasses s.classes s'.classes ∧ B.Beside d d' := by
    intro h hin
    refine (leads_top_inLine found' h hin).mono ?_
    rintro _ d ⟨rfl, d', hleads, habreast, hle⟩ _
    exact ⟨found', d', hleads, hsame, .apart habreast (.inr hle)⟩
  cases h with
  | apart h hapart => exact (hapart.inner_or_inLine hline h).elim (houtside h) (hinside h)
  | inLine h hin => exact hinside h hin
  | documented hrest h hstarts hbehind =>
    obtain ⟨hlayout, hopens, hrest'⟩ := documented_rest hrest h hnext
    rw [ends_topStatement_simple hnext hlayout hopens,
      ends_passStatement_semicolon hrest B.inLine B.semicolon]
    refine ends_done.mono fun _ d hdone _ => ?_
    obtain ⟨d', hleads, habreast, hle⟩ := leads_top_behind h hrest' hdone
    exact ⟨found', d', hleads, hsame, .apart habreast (.inr hle)⟩

/-- **The statements of a module keep pace.** -/
theorem follows_topRounds (h : B.Beside c c') (hc : c.Stands o)
    (hsame : SameClasses found.classes found'.classes) :
    Ends .any (repeatRounds topRound found) o c fun s _ =>
      Fits (HasSuite o B.tokens first.extent) s.classes →
        ∃ s' d', repeatRounds topRound found' o' c' = .done s' d' ∧
          SameClasses s.classes s'.classes := by
  refine follows_rounds
    (G := fun (s : TopLevel) _ => Fits (HasSuite o B.tokens first.extent) s.classes)
    (H := fun (s : TopLevel) _ => Fits (HasSuite o B.tokens first.extent) s.classes)
    (J := fun _ c => c.Stands o)
    (I := fun (s s' : TopLevel) c c' => SameClasses s.classes s'.classes ∧ B.Beside c c')
    (Q := fun (s s' : TopLevel) _ _ => SameClasses s.classes s'.classes)
    (fun s c hc => ?_) (fun s s' c c' hc ⟨hsame, h⟩ => ?_) _ hc ⟨hsame, h⟩ (Nat.lt_succ_self _)
  · cases hrest : c.rest with
    | nil => exact (ends_iff_of_done (topRound_atEnd hrest)).2 id
    | cons l ls =>
      have hnext : c.next? = some l.token := next?_eq_some_iff.2 ⟨_, _, hrest, rfl⟩
      rw [ends_topRound_statement hnext]
      exact (((ends_topStatement hc hnext).of_safe trivial).and fits_topStatement).mono
        fun _ d ⟨hpass, hfits⟩ => ⟨hpass.stands, hfits⟩
  · cases hrest : c.rest with
    | nil =>
      obtain ⟨habreast, -⟩ := h.of_end (by simp [next?, hrest])
      have hrest' : c'.rest = [] := List.eq_nil_of_length_eq_zero (by
        rw [← habreast.length_eq, hrest]
        rfl)
      exact (ends_iff_of_done (topRound_atEnd hrest)).2
        fun _ => ⟨_, _, topRound_atEnd hrest', hsame⟩
    | cons l ls =>
      have hnext : c.next? = some l.token := next?_eq_some_iff.2 ⟨_, _, hrest, rfl⟩
      rw [ends_topRound_statement hnext]
      exact (leads_topStatement hline hfirst hwidth h hc hnext hsame).mono
        fun s d hd hfits => hd hfits

/-- **A module keeps pace.** -/
theorem keeps_moduleOutline : Ends .any moduleOutline o (.first B.tokens) fun m _ =>
    Fits (HasSuite o B.tokens first.extent) m.classes →
      Ends ⟨False, False⟩ moduleOutline o' (.first B.tokens') fun m' _ =>
        SameClasses m.classes m'.classes := by
  have h := B.abreast_first.made 1 1
  have hapart : B.Apart B.after.length { Cursor.first B.tokens with made := 1 } := by
    refine .inl ?_
    show B.fromLine.length ≤ B.tokens.length
    rw [tokens, List.length_append]
    exact Nat.le_add_left _ _
  simp only [moduleOutline, ends_bind, ends_sourceSize, ends_makeSpan, ends_pure]
  refine ((beside_docstring hline h hapart).and ((settles_docstring _ h.stands
    (Nat.lt_succ_self _)).of_safe trivial)).mono ?_
  rintro doc d ⟨hd, hfollows⟩
  obtain ⟨doc', d', hdone, hbeside⟩ := exists_done_of_ends hd
  have hempty : SameClasses (TopLevel.mk [] []).classes (TopLevel.mk [] []).classes := .nil
  refine (follows_topRounds hline hfirst hwidth hbeside hfollows.stands hempty).mono
    fun s e he hfits => ?_
  obtain ⟨s', e', hdone', hsame⟩ := he hfits
  have hdone : docstring o'
      { Cursor.first B.tokens' with made := (Cursor.first B.tokens').made + 1 } =
    .done doc' d' := hdone
  rw [ends_iff_of_done hdone, ends_iff_of_done hdone']
  exact hsame

end Top

end LineBreak

/-! ### Broken sources -/

/-- Two sources that have the text `w` in common. -/
def Parallel.ofCommon (o o' : Origin) {a a' w u u' : List Char} {behind behind' : List Lexeme}
    (htext : o.text = a ++ (w ++ u)) (htext' : o'.text = a' ++ (w ++ u'))
    (hseam : Seam o o' (byteLength (a ++ w)) (byteLength (a' ++ w)) behind behind') :
    Parallel o o' where
  n := byteLength a
  n' := byteLength a'
  width := byteLength w
  behind := behind
  behind' := behind'
  slice_eq hj hcs := by
    rw [htext] at hcs
    rw [htext']
    exact slice?_common hj hcs
  seam := by rwa [← byteLength_append, ← byteLength_append]

/-- Offsets as far behind the start of the stretch are the same of it. -/
theorem Parallel.offsets_add {W : Parallel o o'} {i : Nat} (hi : i ≤ W.width) :
    W.Offsets (W.n + i) (W.n' + i) := ⟨i, hi, rfl, rfl⟩

/-- Tokens that are moved along with the text that they stand in. -/
theorem forall_matched {W : Parallel o o'} {ls ls' : List Lexeme}
    (h : ∀ l ∈ ls, l.extent.start ≤ l.extent.stop ∧ l.extent.stop ≤ W.n + W.width)
    (hmoved : List.Forall₂ (MovedLexeme W.n W.n') ls ls') : List.Forall₂ W.Matched ls ls' := by
  induction hmoved with
  | nil => exact .nil
  | @cons l l' ls ls' hl _ ih =>
    obtain ⟨⟨hle, hstop⟩, hls⟩ := List.forall_mem_cons.1 h
    obtain ⟨i, j, hextent, hextent'⟩ := hl.extent
    rw [hextent] at hle hstop
    have hj : j ≤ W.width := Nat.le_of_add_le_add_left hstop
    have hi : i ≤ W.width := Nat.le_trans (Nat.le_of_add_le_add_left hle) hj
    refine .cons ⟨hl.token, ?_⟩ (ih hls)
    rw [hextent, hextent']
    exact ⟨offsets_add hi, offsets_add hj⟩

/-- Tokens of a text that both sources begin with. -/
theorem forall_matched_self {W : Parallel o o'} {ls : List Lexeme} (hn : W.n = 0) (hn' : W.n' = 0)
    (h : ∀ l ∈ ls, l.extent.start ≤ l.extent.stop ∧ l.extent.stop ≤ W.width) :
    List.Forall₂ W.Matched ls ls := by
  refine forall_matched (fun l hl => ?_) (List.forall₂_same.2 fun l _ =>
    ⟨rfl, l.extent.start, l.extent.stop, ?_, ?_⟩)
  · rw [hn, Nat.zero_add]
    exact h l hl
  · rw [hn, Nat.zero_add, Nat.zero_add]
  · rw [hn', Nat.zero_add, Nat.zero_add]

section Broken

variable {x gap y new : List Char} {before left after : List Lexeme} {first mark next : Lexeme}

/-- **A source and the one with the line broken**, if no definition begins where the line does or
behind the break. -/
theorem exists_lineBreak (h : Broken x gap y new before first left mark next after)
    (module : String)
    (hopens : opensScope ((first :: left ++ mark :: next :: after).map (·.token)) = false)
    (hopens_next : opensScope ((next :: after).map (·.token)) = false) :
    ∃ B : LineBreak ⟨x ++ ';' :: (gap ++ y), module⟩ ⟨x ++ (new ++ y), module⟩,
      B.before = before ∧ B.line = first :: left ∧ B.mark = mark ∧ B.next = next ∧
        B.after = after := by
  obtain ⟨newline, behind, hread, hnewline, hstart, hmoved⟩ := tokenizeChars_broken h
  have htext : x ++ ';' :: (gap ++ y) = (x ++ ';' :: gap) ++ (y ++ []) := by simp
  have htext' : x ++ (new ++ y) = (x ++ new) ++ (y ++ []) := by simp
  have hfinish : Seam ⟨x ++ ';' :: (gap ++ y), module⟩ ⟨x ++ (new ++ y), module⟩
      (byteLength ((x ++ ';' :: gap) ++ y)) (byteLength ((x ++ new) ++ y)) [] [] :=
    .finish (by simp [Origin.size]) (by simp [Origin.size])
  have hmatched_behind : List.Forall₂ (Parallel.ofCommon _ _ htext htext' hfinish).Matched
      (next :: after) behind := by
    refine forall_matched (fun l hl => ?_) hmoved
    obtain ⟨hle, hstop⟩ := h.behind_within l hl
    rw [htext, List.append_nil, byteLength_append] at hstop
    exact ⟨hle, hstop⟩
  have hseam : Seam ⟨x ++ ';' :: (gap ++ y), module⟩ ⟨x ++ (new ++ y), module⟩
      (byteLength ([] ++ x)) (byteLength ([] ++ x)) (mark :: next :: after) (newline :: behind) :=
    .broken h.semicolon hnewline h.mark_start hstart (LineBreak.tokens_matched hmatched_behind)
  have hmatched : List.Forall₂ (Parallel.ofCommon _ _ (List.nil_append _).symm
      (List.nil_append _).symm hseam).Matched (before ++ first :: left) (before ++ first :: left) :=
    forall_matched_self rfl rfl h.front_within
  cases hmoved with
  | @cons _ next' _ after' _ _ =>
  refine ⟨{
    before := before
    line := first :: left
    mark := mark
    newline := newline
    next := next
    next' := next'
    after := after
    after' := after'
    front := _
    back := _
    front_behind := rfl
    front_behind' := rfl
    back_behind := rfl
    back_behind' := rfl
    matched := hmatched
    matched_behind := hmatched_behind
    semicolon := h.semicolon
    newline_token := hnewline
    mark_stop := h.mark_stop
    front_stop := ?_
    begins := h.begins
    line_ne := List.cons_ne_nil first left
    inLine := h.line
    next_line := h.next_line
    opens := hopens
    opens_next := hopens_next
    read := h.tokens
    read' := hread }, rfl, rfl, rfl, rfl, rfl⟩
  simp [Parallel.ofCommon]

/-- **Semicolons separate statements.**  A line of a class body is broken at a semicolon that
separates statements, in a class with its body on lines of its own: then the classes of the source
have the same attributes as before. -/
theorem sameClasses_of_broken {source broken path : String} {m : ModuleOutline}
    (hsource : source.toList = x ++ ';' :: (gap ++ y)) (hbroken : broken.toList = x ++ (new ++ y))
    (h : Broken x gap y new before first left mark next after)
    (hopens : opensScope ((next :: after).map (·.token)) = false)
    (hline : Separated ⟨source.toList, moduleId path⟩
      (before ++ (first :: left ++ mark :: next :: after)) mark (next :: after) (first :: left))
    (hparse : parse source path = .outline m)
    (hsuite : ∀ k ∈ preorderAll m.classes, HasSuite ⟨source.toList, moduleId path⟩
      (before ++ (first :: left ++ mark :: next :: after)) first.extent k) :
    ∃ m', parse broken path = .outline m' ∧ SameClasses m.classes m'.classes := by
  have hwidth : first.extent.start < first.extent.stop :=
    start_lt_stop_of_line h.tokens (by simp) (h.line first List.mem_cons_self)
  rw [hsource] at hline hsuite
  obtain ⟨B, rfl, hB, rfl, rfl, rfl⟩ :=
    exists_lineBreak h (moduleId path) hline.opensScope_eq_false hopens
  rw [← hB] at hline hsuite
  obtain ⟨m', d', hdone, hsame⟩ := exists_done_of_ends
    (of_parse (P := fun m => Fits (HasSuite _ B.tokens first.extent) m.classes →
        Ends ⟨False, False⟩ moduleOutline _ (.first B.tokens') fun m' _ =>
          SameClasses m.classes m'.classes) hparse (fun tokens htokens => by
      rw [hsource] at htokens ⊢
      obtain rfl : B.tokens = tokens := Except.ok.inj (B.read.symm.trans htokens)
      exact LineBreak.keeps_moduleOutline hline (congrArg (· ++ _) hB) hwidth) hsuite)
  refine ⟨m', ?_, hsame⟩
  unfold parse
  dsimp only
  have hread : tokenizeChars (x ++ (new ++ y)) = .ok B.tokens' := B.read'
  rw [hbroken, hread]
  dsimp only
  rw [hdone]

end Broken

/-- A class header without arguments at the end of its line. -/
def bareHeader : List Token → Bool
  | .classKeyword :: .identifier _ :: .colon :: .newline :: _ => true
  | _ => false

/-- Behind a bare header its line ends. -/
theorem next?_of_bareHeader {header : String × List (Argument Expression)}
    (h : bareHeader c.tokens = true) (hheader : classHeader o c = .done header c') :
    c'.next? = some .newline := by
  obtain ⟨rest, lastStop, afterNewline, made⟩ := c
  unfold bareHeader Cursor.tokens at h
  split at h
  · rename_i htokens
    obtain ⟨⟨_, _⟩, _, rfl, rfl, h₁⟩ := List.map_eq_cons_iff.1 htokens
    obtain ⟨⟨_, _⟩, _, rfl, rfl, h₂⟩ := List.map_eq_cons_iff.1 h₁
    obtain ⟨⟨_, _⟩, _, rfl, rfl, h₃⟩ := List.map_eq_cons_iff.1 h₂
    obtain ⟨⟨_, _⟩, _, rfl, rfl, h₄⟩ := List.map_eq_cons_iff.1 h₃
    obtain ⟨_, rfl⟩ := Reply.done.inj hheader
    rfl
  · cases h

/-- A class whose header is bare wherever it begins has its body on lines of its own. -/
theorem hasSuite_of_bareHeader {tokens : List Lexeme} {first : Extent} {k : ClassOutline}
    (h : ∀ ls ∈ tokens.tails, ((Cursor.first ls).place o).start = k.span.start →
      bareHeader (ls.map (·.token)) = true) : HasSuite o tokens first k := by
  intro _ _ c header c₁ hc hstart hheader
  exact next?_of_bareHeader (h c.rest ((List.mem_tails _ _).2 hc.rest) hstart) hheader

/-- The same classes bind the same targets. -/
theorem SameClasses.targets_eq {ks ks' : List ClassOutline} (h : SameClasses ks ks') :
    (preorderAll ks).map (·.bindings.map (·.target)) =
      (preorderAll ks').map (·.bindings.map (·.target)) := by
  rw [← List.forall₂_eq_eq_eq, List.forall₂_map_left_iff, List.forall₂_map_right_iff]
  refine List.Forall₂.imp (fun k k' hk => ?_) h
  have hfst := congrArg (List.map Prod.fst) hk.attributes
  rwa [List.map_map, List.map_map] at hfst

/-! ### A line with two semicolons -/

/-- A class with two semicolons between its bindings. -/
def threeBindings : String := "class A:\n x = y = 1; z: T; w = 0\n"

/-- The lexemes of a class header and the start of its block. -/
def bindingHeader : List Lexeme := [
  ⟨.classKeyword, ⟨0, 5⟩⟩, ⟨.identifier "A", ⟨6, 7⟩⟩, ⟨.colon, ⟨7, 8⟩⟩, ⟨.newline, ⟨8, 9⟩⟩,
  ⟨.indent, ⟨10, 10⟩⟩]

/-- The lexemes of a chain of two assignments. -/
def chainTokens : List Lexeme := [
  ⟨.identifier "x", ⟨10, 11⟩⟩, ⟨.equals, ⟨12, 13⟩⟩, ⟨.identifier "y", ⟨14, 15⟩⟩,
  ⟨.equals, ⟨16, 17⟩⟩, ⟨.number "1", ⟨18, 19⟩⟩]

/-- The lexemes of a name with an annotation. -/
def hintTokens : List Lexeme := [
  ⟨.identifier "z", ⟨21, 22⟩⟩, ⟨.colon, ⟨22, 23⟩⟩, ⟨.identifier "T", ⟨24, 25⟩⟩]

/-- The lexemes of a value that is assigned, and of the end of the source. -/
def valueTokens : List Lexeme := [
  ⟨.equals, ⟨29, 30⟩⟩, ⟨.number "0", ⟨31, 32⟩⟩, ⟨.newline, ⟨32, 33⟩⟩, ⟨.dedent, ⟨33, 33⟩⟩]

/-- The line of three bindings, broken at its second semicolon. -/
theorem broken_threeBindings : Broken "class A:\n x = y = 1; z: T".toList [' '] "w = 0\n".toList
    ['\n', ' '] bindingHeader ⟨.identifier "x", ⟨10, 11⟩⟩
    (chainTokens.tail ++ ⟨.semicolon, ⟨19, 20⟩⟩ :: hintTokens) ⟨.semicolon, ⟨25, 26⟩⟩
    ⟨.identifier "w", ⟨27, 28⟩⟩ valueTokens where
  tokens := by decide +kernel
  semicolon := rfl
  mark_start := by decide +kernel
  next_start := by decide +kernel
  begins := by decide
  line := by decide
  next_line := rfl
  closed := by decide
  new_eq := ⟨['\n'], [' '], "class A:\n ".toList, rfl, .inl rfl,
    List.forall_mem_singleton.2 rfl, by decide, by decide +kernel, by decide +kernel⟩

/-- The chain of assignments binds its names, and reading it ends at the semicolon. -/
theorem isBound_chainTokens (tokens ls : List Lexeme) :
    IsBound o tokens chainTokens (⟨.semicolon, ⟨19, 20⟩⟩ :: ls) := by
  refine ⟨rfl, ?_⟩
  rintro ⟨_, lastStop, afterNewline, made⟩ _ rfl
  obtain ⟨_, _, hdone, hrest⟩ : ∃ bound d,
      boundNames o ⟨chainTokens ++ ⟨.semicolon, ⟨19, 20⟩⟩ :: ls, lastStop, afterNewline, made⟩ =
        .done bound d ∧ d.rest = ⟨.semicolon, ⟨19, 20⟩⟩ :: ls := ⟨_, _, rfl, rfl⟩
  exact (ends_iff_of_done hdone).2 hrest

/-- The annotation binds its name, and reading it ends at the semicolon. -/
theorem isBound_hintTokens (tokens ls : List Lexeme) :
    IsBound o tokens hintTokens (⟨.semicolon, ⟨25, 26⟩⟩ :: ls) := by
  refine ⟨rfl, ?_⟩
  rintro ⟨_, lastStop, afterNewline, made⟩ _ rfl
  obtain ⟨_, _, hdone, hrest⟩ : ∃ bound d,
      boundNames o ⟨hintTokens ++ ⟨.semicolon, ⟨25, 26⟩⟩ :: ls, lastStop, afterNewline, made⟩ =
        .done bound d ∧ d.rest = ⟨.semicolon, ⟨25, 26⟩⟩ :: ls := ⟨_, _, rfl, rfl⟩
  exact (ends_iff_of_done hdone).2 hrest

/-- Three bindings on one line, and the last of them on a line of its own. -/
theorem sameClasses_threeBindings : ∃ m m', parse threeBindings "" = .outline m ∧
    parse "class A:\n x = y = 1; z: T\n w = 0\n" "" = .outline m' ∧
    SameClasses m.classes m'.classes := by
  obtain ⟨m, hparse, hstarts⟩ := exists_outline threeBindings ""
    (fun m => (preorderAll m.classes).all (·.span.start == 0)) (by decide +kernel)
  obtain ⟨m', hparse', hsame⟩ := sameClasses_of_broken
    (show threeBindings.toList = _ by decide +kernel)
    (show "class A:\n x = y = 1; z: T\n w = 0\n".toList = _ by decide +kernel) broken_threeBindings
    (by decide) (.more (isBound_chainTokens _ _) rfl (.last (isBound_hintTokens _ _))) hparse
    fun k hk => hasSuite_of_bareHeader (by
      rw [beq_iff_eq.1 (List.all_eq_true.1 hstarts k hk)]
      decide +kernel)
  exact ⟨m, m', hparse, hparse', hsame⟩

/-! ### A binding behind a statement that is passed -/

/-- A class with a binding behind a `pass` and a semicolon. -/
def passedBinding : String := "class A:\n pass; x = 1\n"

/-- The lexemes behind the name in that binding. -/
def passedTokens : List Lexeme := [
  ⟨.equals, ⟨18, 19⟩⟩, ⟨.number "1", ⟨20, 21⟩⟩, ⟨.newline, ⟨21, 22⟩⟩, ⟨.dedent, ⟨22, 22⟩⟩]

/-- Behind the semicolon `x` is passed with the rest of the line, and on a line of its own it is
an attribute. -/
theorem not_sameClasses_passed : ∃ m m',
    Broken "class A:\n pass".toList [' '] "x = 1\n".toList ['\n', ' '] bindingHeader
      ⟨.passKeyword, ⟨10, 14⟩⟩ [] ⟨.semicolon, ⟨14, 15⟩⟩ ⟨.identifier "x", ⟨16, 17⟩⟩
      passedTokens ∧
    opensScope ((⟨.identifier "x", ⟨16, 17⟩⟩ :: passedTokens).map (·.token)) = false ∧
    parse passedBinding "" = .outline m ∧
    parse "class A:\n pass\n x = 1\n" "" = .outline m' ∧
    (∀ k ∈ preorderAll m.classes, HasSuite ⟨passedBinding.toList, moduleId ""⟩
      (bindingHeader ++ ⟨.passKeyword, ⟨10, 14⟩⟩ :: ⟨.semicolon, ⟨14, 15⟩⟩ ::
        ⟨.identifier "x", ⟨16, 17⟩⟩ :: passedTokens) ⟨10, 14⟩ k) ∧
    ¬SameClasses m.classes m'.classes := by
  have hbroken : Broken "class A:\n pass".toList [' '] "x = 1\n".toList ['\n', ' '] bindingHeader
      ⟨.passKeyword, ⟨10, 14⟩⟩ [] ⟨.semicolon, ⟨14, 15⟩⟩ ⟨.identifier "x", ⟨16, 17⟩⟩
      passedTokens :=
    { tokens := by decide +kernel
      semicolon := rfl
      mark_start := by decide +kernel
      next_start := by decide +kernel
      begins := by decide
      line := by decide
      next_line := rfl
      closed := by decide
      new_eq := ⟨['\n'], [' '], "class A:\n ".toList, rfl, .inl rfl,
        List.forall_mem_singleton.2 rfl, by decide, by decide +kernel, by decide +kernel⟩ }
  obtain ⟨m, hparse, hm⟩ := exists_outline passedBinding ""
    (fun m => (preorderAll m.classes).all (·.span.start == 0) &&
      (preorderAll m.classes).map (·.bindings.map (·.target)) == [[]]) (by decide +kernel)
  obtain ⟨m', hparse', hm'⟩ := exists_outline "class A:\n pass\n x = 1\n" ""
    (fun m => (preorderAll m.classes).map (·.bindings.map (·.target)) == [["x"]])
    (by decide +kernel)
  obtain ⟨hstarts, htargets⟩ := (Bool.and_eq_true _ _).mp hm
  refine ⟨m, m', hbroken, rfl, hparse, hparse', fun k hk => hasSuite_of_bareHeader ?_,
    fun hsame => ?_⟩
  · rw [beq_iff_eq.1 (List.all_eq_true.1 hstarts k hk)]
    decide +kernel
  · have htargets_eq := hsame.targets_eq
    rw [beq_iff_eq.1 htargets, beq_iff_eq.1 hm'] at htargets_eq
    cases htargets_eq

end Outline
end Lineage
