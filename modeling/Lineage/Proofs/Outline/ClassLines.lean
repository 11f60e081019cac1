/-
# Class bodies with a line broken

The statements of a class body keep pace where a line is broken at a semicolon
(`keepsIf_classStatement`).
-/

import Lineage.Proofs.Outline.ClassTree
import Lineage.Proofs.Outline.LineBreak

namespace Lineage
namespace Outline

open Source Reading Text Parallel Cursor

variable {α β γ σ τ : Type} {o o' : Origin} {c c' d d' : Cursor} {t : Token} {n k : Nat}
  {l l' : Lexeme} {ls ls' a a' : List Lexeme} {ts ts' : List Token}

/-! ### Classes with the same attributes -/

/-- The classes have the same name and the same attributes. -/
structure SameClass (k k' : ClassOutline) : Prop where
  name : k.name = k'.name
  attributes : SameAttributes k.bindings k'.bindings

/-- The classes side by side, with those in them, have the same names and attributes. -/
def SameClasses (ks ks' : List ClassOutline) : Prop :=
  List.Forall₂ SameClass (preorderAll ks) (preorderAll ks')

/-- What is found in two class bodies has the same attributes and the same classes. -/
structure SameBody (b b' : ClassBody) : Prop where
  attributes : SameAttributes b.bindings b'.bindings
  classes : SameClasses b.classes b'.classes

/-- Classes side by side stay the same with one more that is. -/
theorem SameClasses.concat {ks ks' : List ClassOutline} {j j' : ClassOutline}
    (h : SameClasses ks ks') (hj : SameClasses [j] [j']) :
    SameClasses (ks ++ [j]) (ks' ++ [j']) := by
  unfold SameClasses at h hj ⊢
  rw [preorderAll_append, preorderAll_append]
  exact List.rel_append h hj

/-- Of every class side by side, and of those in them, `P` holds. -/
def Fits (P : ClassOutline → Prop) (ks : List ClassOutline) : Prop := ∀ j ∈ preorderAll ks, P j

/-- More classes side by side fit just when all of them do. -/
theorem Fits.concat_iff {P : ClassOutline → Prop} {ks : List ClassOutline} {j : ClassOutline} :
    Fits P (ks ++ [j]) ↔ Fits P ks ∧ Fits P [j] := by
  unfold Fits
  rw [preorderAll_append]
  exact List.forall_mem_append

/-- Of a class by itself: of it, and of those in it. -/
theorem fits_singleton {P : ClassOutline → Prop} {j : ClassOutline} :
    Fits P [j] ↔ P j ∧ Fits P j.classes := by
  unfold Fits
  rw [preorderAll_cons, preorderAll_nil, List.append_nil, preorder_eq, List.forall_mem_cons]

/-- A class is the same as another one, with those in it, if both parts are. -/
theorem sameClasses_singleton {j j' : ClassOutline} (h : SameClass j j')
    (hclasses : SameClasses j.classes j'.classes) : SameClasses [j] [j'] := by
  unfold SameClasses at hclasses ⊢
  simp only [preorderAll_cons, preorderAll_nil, List.append_nil, preorder_eq]
  exact .cons h hclasses

/-! ### Loops with more rounds -/

section Loops

variable {step : σ → Reading (Round σ α)} {step' : τ → Reading (Round τ β)} {s t : σ} {s' t' : τ}
  {e e' : Cursor}

/-- From one state and place, rounds of a loop lead to another state and place, and there are no
more of them than tokens passed. -/
def Leads (step : σ → Reading (Round σ α)) (o : Origin) (s : σ) (c : Cursor) (t : σ) (d : Cursor) :
    Prop :=
  ∃ i, d.rest.length + i ≤ c.rest.length ∧
    ∀ m, rounds step (m + i) s o c = rounds step m t o d

/-- A round that goes on leads to the next one. -/
theorem leads_of_again (h : step s o c = .done (.again t) d)
    (hlength : d.rest.length < c.rest.length) : Leads step o s c t d :=
  ⟨1, hlength, fun m => by rw [rounds, bind_apply, h]⟩

/-- A round that is the reading `x`, and goes on with what it finds. -/
theorem leads_of_round {x : Reading σ}
    (hround : ∀ Q, Ends ⟨False, False⟩ (step s) o c Q ↔
      Ends ⟨False, False⟩ x o c fun t d => Q (.again t) d)
    (h : x o c = .done t d) (hlength : d.rest.length < c.rest.length) : Leads step o s c t d := by
  refine leads_of_again (done_iff_ends.2 ?_) hlength
  rw [hround, ends_iff_of_done h]
  exact ⟨rfl, rfl⟩

/-- Rounds that lead on lead further. -/
theorem Leads.trans {u : σ} (h : Leads step o s c t d) (h' : Leads step o t d u e) :
    Leads step o s c u e := by
  obtain ⟨i, hi, hrounds⟩ := h
  obtain ⟨j, hj, hrounds'⟩ := h'
  exact ⟨j + i, by omega, fun m => by rw [← Nat.add_assoc, hrounds, hrounds']⟩

/-- What a loop finds in the end says what was found on the way. -/
theorem guards_rounds {G : σ → Cursor → Prop} {H : α → Cursor → Prop} {J : σ → Cursor → Prop}
    (hstep : ∀ s c, J s c → Ends .any (step s) o c
      (AfterRound (fun t d => J t d ∧ (G t d → G s c)) fun a d => H a d → G s c))
    (n : Nat) (hJ : J s c) : Ends .any (rounds step n s) o c fun a d => H a d → G s c := by
  induction n generalizing s c with
  | zero => trivial
  | succ n ih =>
    rw [rounds, ends_bind]
    refine (hstep s c hJ).mono fun r d hr => ?_
    cases r with
    | again t => exact (ih hr.1).mono fun _ _ he ha => hr.2 (he ha)
    | stop a => exact hr

/-- **A loop follows a loop with fewer rounds.**  A round of the one is followed by rounds of the
other one, until both stop. -/
theorem follows_rounds {G : σ → Cursor → Prop} {H : α → Cursor → Prop} {J : σ → Cursor → Prop}
    {I : σ → τ → Cursor → Cursor → Prop} {Q : α → β → Cursor → Cursor → Prop}
    (hguards : ∀ s c, J s c → Ends .any (step s) o c
      (AfterRound (fun t d => J t d ∧ (G t d → G s c)) fun a d => H a d → G s c))
    (hstep : ∀ s s' c c', J s c → I s s' c c' → Ends .any (step s) o c (AfterRound
      (fun t d => G t d → ∃ t' d', Leads step' o' s' c' t' d' ∧ I t t' d d')
      fun a d => H a d → ∃ a' d', step' s' o' c' = .done (.stop a') d' ∧ Q a a' d d'))
    (n : Nat) {n' : Nat} (hJ : J s c) (hI : I s s' c c') (hn : c'.rest.length < n') :
    Ends .any (rounds step n s) o c fun a d => H a d →
      ∃ a' d', rounds step' n' s' o' c' = .done a' d' ∧ Q a a' d d' := by
  induction n generalizing n' s s' c c' with
  | zero => trivial
  | succ n ih =>
    rw [rounds, ends_bind]
    refine ((hguards s c hJ).and (hstep s s' c c' hJ hI)).mono ?_
    rintro r d ⟨hguard, hr⟩
    cases r with
    | stop a =>
      intro ha
      obtain ⟨a', d', hstop, hQ⟩ := hr ha
      obtain ⟨m, rfl⟩ := Nat.exists_eq_succ_of_ne_zero (Nat.ne_of_gt (Nat.zero_lt_of_lt hn))
      exact ⟨a', d', by rw [rounds, bind_apply, hstop]; rfl, hQ⟩
    | again t =>
      refine (guards_rounds hguards n hguard.1).found.mono ?_
      rintro a e ⟨hdone, hG⟩ ha
      obtain ⟨t', d', ⟨i, hi, hrounds⟩, hI'⟩ := hr (hG ha)
      obtain ⟨m, rfl⟩ := Nat.exists_eq_add_of_le' (show i ≤ n' by omega)
      rw [hrounds]
      exact (ends_iff_of_done hdone).1 (ih hguard.1 hI' (by omega)) ha

end Loops

/-! ### Statements of a line -/

/-- The statement `st` in front of `ls` binds names, and the class reader reads it to its end. -/
structure IsBound (o : Origin) (tokens st ls : List Lexeme) : Prop where
  starts : startsBinding ((st ++ ls).map (·.token)) = true
  ends : ∀ c, Follows o (.first tokens) c → c.rest = st ++ ls →
    Ends .any boundNames o c fun _ d => d.rest = ls

/-- The statement at the start of `st` in front of `ls` is passed with the rest of its line: it
binds no names, or they are not read to the end of the statement. -/
structure IsPassed (o : Origin) (tokens st ls : List Lexeme) : Prop where
  opens : opensScope ((st ++ ls).map (·.token)) = false
  ends : startsBinding ((st ++ ls).map (·.token)) = true →
    ∀ c, Follows o (.first tokens) c → c.rest = st ++ ls →
      Ends .any boundNames o c fun _ d => ls.length < d.rest.length ∧ d.next? ≠ some .semicolon

/-- What is in front of `mark :: behind` in its line are statements with semicolons between them:
each one binds names and is read to its end; or one of them is passed with the rest of the line,
and no names are bound behind `mark`. -/
inductive Separated (o : Origin) (tokens : List Lexeme) (mark : Lexeme) (behind : List Lexeme) :
    List Lexeme → Prop
  | last {st : List Lexeme} (h : IsBound o tokens st (mark :: behind)) :
    Separated o tokens mark behind st
  | more {st more : List Lexeme} {semicolon : Lexeme}
    (h : IsBound o tokens st (semicolon :: (more ++ mark :: behind)))
    (hsemicolon : semicolon.token = .semicolon) (hmore : Separated o tokens mark behind more) :
    Separated o tokens mark behind (st ++ semicolon :: more)
  | passed {st : List Lexeme} (h : IsPassed o tokens st (mark :: behind)) (hne : st ≠ [])
    (hbehind : startsBinding (behind.map (·.token)) = false) : Separated o tokens mark behind st

/-- A binding begins with a name. -/
theorem exists_identifier_of_startsBinding (h : startsBinding ts = true) :
    ∃ name us, ts = .identifier name :: us := by
  cases ts with
  | nil => cases h
  | cons t ts => cases t <;> first | exact ⟨_, _, rfl⟩ | cases h

/-- There is something in front of the semicolon that breaks a line. -/
theorem Separated.ne_nil {st : List Lexeme} {mark : Lexeme} (h : Separated o ls mark ls' st)
    (hmark : mark.token = .semicolon) : st ≠ [] := by
  cases h with
  | last hbound =>
    rintro rfl
    obtain ⟨name, us, htokens⟩ := exists_identifier_of_startsBinding hbound.starts
    rw [List.nil_append, List.map_cons, hmark] at htokens
    cases htokens
  | more => exact List.append_ne_nil_of_right_ne_nil _ (List.cons_ne_nil _ _)
  | passed _ hne _ => exact hne

/-- If no names are bound at the beginning of the line, none are behind `mark`. -/
theorem Separated.startsBinding_behind {st : List Lexeme} {mark : Lexeme}
    (h : Separated o ls mark ls' st)
    (hstarts : startsBinding ((st ++ mark :: ls').map (·.token)) = false) :
    startsBinding (ls'.map (·.token)) = false := by
  cases h with
  | last hbound =>
    rw [hbound.starts] at hstarts
    cases hstarts
  | more hbound =>
    rw [List.append_assoc, List.cons_append, hbound.starts] at hstarts
    cases hstarts
  | passed _ _ hbehind => exact hbehind

/-- No definition begins at a statement of the line. -/
theorem Separated.opensScope_eq_false {st : List Lexeme} {mark : Lexeme}
    (h : Separated o ls mark ls' st) : opensScope ((st ++ mark :: ls').map (·.token)) = false := by
  have hbound : ∀ {st ls'}, IsBound o ls st ls' →
      opensScope ((st ++ ls').map (·.token)) = false := by
    intro st ls' hbound
    obtain ⟨name, us, htokens⟩ := exists_identifier_of_startsBinding hbound.starts
    rw [htokens]
    rfl
  cases h with
  | last h => exact hbound h
  | more h =>
    rw [List.append_assoc, List.cons_append]
    exact hbound h
  | passed h => exact h.opens

/-- What is passed in front of a semicolon is passed with what is behind it. -/
theorem statement_semicolon {st : List Lexeme} {mark : Lexeme}
    (hline : ∀ l ∈ st, l.token.isLayout = false) (hmark : mark.token = .semicolon) (colon : Bool) :
    statement colon (st ++ mark :: ls) =
      ⟨st.length + 1 + (statement false ls).length, (statement false ls).endsInColon⟩ := by
  have hpass : ∀ {l : Lexeme} {ls : List Lexeme} {colon : Bool}, l.token.isLayout = false →
      statement colon (l :: ls) = ⟨(statement (l.token = .colon) ls).length + 1,
        (statement (l.token = .colon) ls).endsInColon⟩ := by
    intro l ls colon hl
    obtain ⟨hnewline, hshift⟩ := Bool.or_eq_false_iff.1 hl
    rw [statement, if_neg (by simpa using hnewline), if_neg (by simp [hshift])]
  induction st generalizing colon with
  | nil =>
    rw [List.nil_append, hpass (by rw [hmark]; rfl), hmark]
    simp [Nat.add_comm]
  | cons l st ih =>
    obtain ⟨hl, hline⟩ := List.forall_mem_cons.1 hline
    rw [List.cons_append, hpass hl, ih hline, List.length_cons]
    simp only [Statement.mk.injEq, and_true]
    omega

/-- A statement is passed beyond the semicolons of its line. -/
theorem ends_passStatement_semicolon {w : Endings} {Q : Unit → Cursor → Prop} {st : List Lexeme}
    {mark : Lexeme} (hrest : c.rest = st ++ mark :: ls) (hline : ∀ l ∈ st, l.token.isLayout = false)
    (hmark : mark.token = .semicolon) :
    Ends w passStatement o c Q ↔ Ends w passStatement o (c.advanceBy (st.length + 1)) Q := by
  have hbehind : (c.advanceBy (st.length + 1)).rest = ls := by
    rw [rest_advanceBy, hrest, List.drop_append, List.drop_eq_nil_of_le (Nat.le_succ _),
      Nat.add_sub_cancel_left]
    rfl
  rw [ends_passStatement_iff, ends_passStatement_iff, hbehind, hrest,
    statement_semicolon hline hmark]
  simp only [advanceBy_add]

/-- A statement without a block under it is passed up to the end of its line. -/
theorem ends_passStatement_newline {w : Endings} {Q : Unit → Cursor → Prop} {st : List Lexeme}
    {newline : Lexeme} (hrest : c.rest = st ++ newline :: ls)
    (hline : ∀ l ∈ st, l.token.isLayout = false) (hnewline : newline.token = .newline)
    (hbehind : (c.advanceBy (st.length + 1)).next? ≠ some .indent) :
    Ends w passStatement o c Q ↔ Q () (c.advanceBy (st.length + 1)) := by
  rw [ends_passStatement_iff, hrest, statement_append hline hnewline,
    if_neg fun hopens => hbehind hopens.2]

/-- Where no definition begins in a line, a simple statement does. -/
theorem Cursor.startsSimple_of_opensScope (hnext : c.next? = some t) (hline : t.isLayout = false)
    (hopens : opensScope c.tokens = false) : c.StartsSimple := by
  simp only [opensScope_tokens, startsScope, Bool.or_eq_false_iff, beq_eq_false_iff_ne] at hopens
  exact ⟨next?_ne_of_isLayout hnext hline rfl, next?_ne_of_isLayout hnext hline rfl, hopens.1.2,
    hopens.1.1, hopens.2⟩

/-- A statement that is no definition binds names, or it is passed. -/
theorem ends_classStatement_simple {w : Endings} {inner : List Decorator → Reading ClassOutline}
    {found : ClassBody} {Q : ClassBody → Cursor → Prop} (hnext : c.next? = some t)
    (hline : t.isLayout = false) (hopens : opensScope c.tokens = false) :
    Ends w (classStatement inner found) o c Q ↔
      if startsBinding c.tokens = true then
        Ends w classBinding o c fun bound d =>
          Q { found with bindings := found.bindings ++ bound } d
      else Ends w passStatement o c fun _ d => Q found d := by
  rw [classStatement_eq, ends_statementOf_simple (startsSimple_of_opensScope hnext hline hopens)]
  simp only [memberSimple, ends_bind, ends_ahead, ends_ite, ends_pure]
  rfl

/-- A statement that is no definition and binds no names is passed. -/
theorem ends_classStatement_other {w : Endings} {inner : List Decorator → Reading ClassOutline}
    {found : ClassBody} {Q : ClassBody → Cursor → Prop} (hnext : c.next? = some t)
    (hline : t.isLayout = false) (hopens : opensScope c.tokens = false)
    (hstarts : startsBinding c.tokens = false) :
    Ends w (classStatement inner found) o c Q ↔ Ends w passStatement o c fun _ d => Q found d := by
  rw [ends_classStatement_simple hnext hline hopens,
    if_neg (by rw [hstarts]; exact Bool.noConfusion)]

/-- A round of the statements of a block, where the block does not end. -/
theorem ends_indentedRound_statement {w : Endings} {inner : List Decorator → Reading ClassOutline}
    {found : ClassBody} {Q : Round ClassBody ClassBody → Cursor → Prop} (hnext : c.next? = some t)
    (ht : t ≠ .dedent) :
    Ends w (indentedRound inner found) o c Q ↔
      Ends w (classStatement inner found) o c fun b d => Q (.again b) d := by
  obtain ⟨l, ls, hrest, _⟩ := next?_eq_some_iff.1 hnext
  simp [ends_indentedRound, hnext, hrest, ht]

/-- A statement of a class body leads to the next round. -/
theorem leads_of_classStatement {inner : List Decorator → Reading ClassOutline}
    {found b : ClassBody} (hnext : c.next? = some t) (ht : t ≠ .dedent)
    (h : classStatement inner found o c = .done b d) (hlength : d.rest.length < c.rest.length) :
    Leads (indentedRound inner) o found c b d :=
  leads_of_round (fun _ => ends_indentedRound_statement hnext ht) h hlength

/-- A simple statement at the top of a module is passed. -/
theorem ends_topStatement_simple {w : Endings} {found : TopLevel} {Q : TopLevel → Cursor → Prop}
    (hnext : c.next? = some t) (hline : t.isLayout = false) (hopens : opensScope c.tokens = false) :
    Ends w (topStatement found) o c Q ↔ Ends w passStatement o c fun _ d => Q found d := by
  have hdedent : c.next? ≠ some .dedent := next?_ne_of_isLayout hnext hline rfl
  rw [topStatement_eq, ends_statementOf_simple (startsSimple_of_opensScope hnext hline hopens)]
  simp only [topSimple, ends_bind, ends_check, ends_ite, ends_pure, beq_iff_eq, if_neg hdedent]

/-- A statement ends at a semicolon, if more comes behind it. -/
theorem ends_finishStatement_semicolon {w : Endings} {Q : Unit → Cursor → Prop}
    (hnext : c.next? = some .semicolon) (hmore : c.advance.next? ≠ some .newline) :
    Ends w finishStatement o c Q ↔ Q () c.advance := by
  simp only [finishStatement, ends_bind, ends_accept, ends_ite, ends_pure, hnext, hmore, ne_eq,
    not_false_eq_true, not_true_eq_false, true_implies, false_implies, and_true, true_and,
    if_true]

/-- Without a semicolon the rest of a statement is passed. -/
theorem ends_finishStatement_other {w : Endings} {Q : Unit → Cursor → Prop}
    (hnext : c.next? ≠ some .semicolon) :
    Ends w finishStatement o c Q ↔ Ends w passStatement o c Q := by
  simp only [finishStatement, ends_bind, ends_accept, ends_ite, ends_pure, hnext, ne_eq,
    not_false_eq_true, true_implies, false_implies, true_and, Bool.false_eq_true, if_false]

/-! ### Readings with a condition -/

namespace LineBreak

variable {B : LineBreak o o'} {x : Reading α} {y : Reading β} {f : α → Reading σ}
  {g : β → Reading τ} {G : α → Cursor → Prop} {H : σ → Cursor → Prop}
  {Q : α → β → Cursor → Prop} {S : σ → τ → Cursor → Prop}

variable (B) in
/-- From places abreast, if `x` finds something of which `G` holds, the reading `y` of the other
source finds something as well and ends abreast of it. -/
def KeepsIf (G : α → Cursor → Prop) (c c' : Cursor) (x : Reading α) (y : Reading β)
    (Q : α → β → Cursor → Prop) : Prop :=
  Ends .any x o c fun a d => G a d →
    Ends ⟨False, False⟩ y o' c' fun a' d' => B.Abreast d d' ∧ Q a a' d

/-- A reading that keeps pace does so under any condition. -/
theorem Keeps.keepsIf (h : B.Keeps c c' x y Q) : B.KeepsIf G c c' x y Q :=
  Ends.mono h fun _ _ hd _ => hd

/-- A sequence keeps pace if its parts do; what is found in the end says what was found first. -/
theorem KeepsIf.bind (hx : B.KeepsIf G c c' x y Q)
    (hG : ∀ a d, Ends .any (f a) o d fun b e => H b e → G a d)
    (hf : ∀ a a' d d', B.Abreast d d' → Q a a' d → B.KeepsIf H d d' (f a) (g a') S) :
    B.KeepsIf H c c' (x >>= f) (y >>= g) S := by
  rw [KeepsIf, ends_bind]
  refine hx.mono fun a d hd => (hG a d).found.mono fun b e ⟨hfound, hguard⟩ hH => ?_
  obtain ⟨a', d', hdone, habreast, hQ⟩ := exists_done_of_ends (hd (hguard hH))
  rw [ends_bind]
  exact (ends_iff_of_done hdone).2 ((ends_iff_of_done hfound).1 (hf a a' d d' habreast hQ) hH)

/-- A sequence keeps pace if its first part does, and then its second one under a condition. -/
theorem Keeps.bindIf (hx : B.Keeps c c' x y Q)
    (hf : ∀ a a' d d', B.Abreast d d' → Q a a' d → B.KeepsIf H d d' (f a) (g a') S) :
    B.KeepsIf H c c' (x >>= f) (y >>= g) S :=
  KeepsIf.bind (G := fun _ _ => True) hx.keepsIf (fun _ _ => ends_any fun _ _ _ => trivial) hf

/-- A reading keeps pace if it does before its value is changed. -/
theorem KeepsIf.map {u : α → σ} {v : β → τ} (hx : B.KeepsIf G c c' x y Q)
    (hG : ∀ a d, H (u a) d → G a d) (hS : ∀ a a' d, Q a a' d → S (u a) (v a') d) :
    B.KeepsIf H c c' (do return u (← x)) (do return v (← y)) S :=
  hx.bind (fun a d => hG a d) fun _ _ _ _ habreast hQ _ => ⟨habreast, hS _ _ _ hQ⟩

/-- A choice keeps pace if both branches do. -/
theorem KeepsIf.ite {p : Prop} [Decidable p] {x' : Reading α} {y' : Reading β}
    (h : p → B.KeepsIf G c c' x y Q) (h' : ¬p → B.KeepsIf G c c' x' y' Q) :
    B.KeepsIf G c c' (if p then x else x') (if p then y else y') Q := by
  split
  · exact h ‹_›
  · exact h' ‹_›

/-! ### Statements outside of the line -/

variable (B) in
/-- Classes keep pace outside of the line, where fewer than `n` tokens are ahead. -/
def KeepsClasses (P : ClassOutline → Prop) (n : Nat)
    (inner : List Decorator → Reading ClassOutline) : Prop :=
  ∀ ⦃c c'⦄, B.Abreast c c' → B.Inner (B.after.length + 1) c → c.rest.length < n → ∀ ds ds',
    B.KeepsIf (fun j _ => Fits P [j]) c c' (inner ds) (inner ds') fun j j' d =>
      SameClasses [j] [j'] ∧ B.Apart B.after.length d

/-- Places abreast are looked at alike where their next tokens are the same. -/
theorem keeps_check (h : B.Abreast c c') (hnext : c'.next? = c.next?) (t : Token) :
    B.Keeps c c' (check t) (check t) fun b b' d => b' = b ∧ d = c := by
  simp only [Keeps, ends_check, hnext]
  exact ⟨h, trivial, trivial⟩

/-- A function starts at both places, or at neither. -/
theorem Abreast.startsFunction_eq (h : B.Abreast c c') : c'.startsFunction = c.startsFunction := by
  rw [startsFunction, startsFunction, h.next.beq_eq (by decide), h.next.beq_eq (by decide),
    h.advance.next.beq_eq (by decide)]

/-- Definitions begin at places abreast together. -/
theorem Abreast.startsScope_eq (h : B.Abreast c c') : c'.startsScope = c.startsScope := by
  rw [startsScope, startsScope, h.next.beq_eq (by decide), h.next.beq_eq (by decide),
    h.startsFunction_eq]

/-- A binding starts at both places, or at neither. -/
theorem Abreast.startsBinding_eq (h : B.Abreast c c') :
    startsBinding c'.tokens = startsBinding c.tokens :=
  startsBinding_twins (List.forall₂_map_left_iff.2 (List.forall₂_map_right_iff.2 h.twinTokens))

/-- The names that a statement binds are read on its line. -/
theorem reads_boundNames (hc : c.Stands o) : Ends .safe boundNames o c fun _ d =>
    Reads o 0 0 c d ∧ d.rest.length < c.rest.length := by
  simp only [boundNames, ends_bind, ends_peekStart, ends_peekAt, ends_ite]
  split
  · exact ends_hintedBinding hc
  · exact ends_plainBinding hc

/-- A binding of a class body keeps pace outside of the line. -/
theorem keeps_classBinding (h : B.Abreast c c') (hin : B.Inner k c) (hk : B.after.length ≤ k)
    (hk' : k ≤ B.after.length + 1) :
    B.Keeps c c' classBinding classBinding fun bs bs' d => SameAttributes bs bs' ∧ B.Apart k d := by
  rw [classBinding_eq]
  refine (h.keeps_line hin hk' (fun _ => sim_boundNames)
    (((reads_boundNames h.stands).of_safe trivial).mono fun _ _ hd => hd.1.onLine)).bind
      fun bs bs' d d' hd ⟨hsame, hin'⟩ => ?_
  exact (keeps_finishStatement hd hin' hk hk').bind fun _ _ _ _ he hapart =>
    keeps_pure he ⟨hsame, hapart⟩

section Scope

variable {P : ClassOutline → Prop} {inner : List Decorator → Reading ClassOutline}
  {addClass addClass' : ClassOutline → σ} {addFunction addFunction' : FunctionOutline → σ}
  {G : σ → Prop} {R : σ → σ → Prop} (h : B.Abreast c c') (hin : B.Inner k c)
  (hk : B.after.length ≤ k) (hk' : k ≤ B.after.length + 1)

include h hin hk'

include hk in
/-- A definition keeps pace outside of the line, if classes do. -/
theorem keepsIf_definitionOf (hinner : B.KeepsClasses P n inner) (hn : c.rest.length < n)
    (hG : ∀ {j}, G (addClass j) → Fits P [j])
    (hclass : ∀ {j j'}, SameClasses [j] [j'] → R (addClass j) (addClass' j'))
    (hfunction : ∀ {f f'}, R (addFunction f) (addFunction' f')) (ds ds' : List Decorator) :
    B.KeepsIf (fun s _ => G s) c c' (definitionOf inner addClass addFunction ds)
      (definitionOf inner addClass' addFunction' ds') fun s s' d => R s s' ∧ B.Apart k d := by
  refine (keeps_check h (hin.apart.next_eq hk' h) .classKeyword).bindIf
    fun b _ d d' hd ⟨hb, hsame⟩ => ?_
  subst hb hsame
  refine KeepsIf.ite (fun _ => ?_) fun _ => ?_
  · exact (hinner hd (hin.imp_right (Nat.le_trans · hk')) hn ds ds').map (fun _ _ => hG)
      fun _ _ _ hj => ⟨hclass hj.1, hj.2.imp_right (Nat.le_trans · hk)⟩
  · exact ((keeps_functionDefinition hd hin hk hk' ds ds').keepsIf (G := fun _ _ => True)).map
      (fun _ _ _ => trivial) fun _ _ _ hapart => ⟨hfunction, hapart⟩

/-- **A statement of a scope keeps pace** outside of the line that is broken, if the definitions and
the simple ones do. -/
theorem keepsIf_statementOf {definition definition' : List Decorator → Reading σ}
    {simple simple' : Reading σ} {found found' : σ} (hfound : R found found')
    (hdefinition : ∀ {d d'}, B.Abreast d d' → B.Inner k d → d.rest.length ≤ c.rest.length →
      ∀ ds ds', B.KeepsIf (fun s _ => G s) d d' (definition ds) (definition' ds')
        fun s s' d => R s s' ∧ B.Apart k d)
    (hsimple : B.KeepsIf (fun s _ => G s) c c' simple simple' fun s s' d => R s s' ∧ B.Apart k d) :
    B.KeepsIf (fun s _ => G s) c c' (statementOf definition simple found)
      (statementOf definition' simple' found') fun s s' d => R s s' ∧ B.Apart k d := by
  have hnext := hin.apart.next_eq hk' h
  have hhere := hdefinition h hin (Nat.le_refl _) [] []
  simp only [KeepsIf, statementOf, ends_bind (x := peek), ends_peek, hnext]
  split
  · rename_i hnewline
    exact fun _ => ⟨h.advance, hfound, hin.advance hnewline⟩
  · exact ends_bind.2 (ends_peekPlace.2 trivial)
  · refine (keeps_decorators h hin hk').bindIf ?_
    rintro ds ds' d d' hd ⟨hin', hle⟩
    exact hdefinition hd hin' hle ds ds'
  · exact hhere
  · simp only [ends_bind (x := atFunction), ends_atFunction, h.startsFunction_eq]
    exact KeepsIf.ite (fun _ => hhere) fun _ => hsimple

end Scope

section Statements

variable {P : ClassOutline → Prop} {inner : List Decorator → Reading ClassOutline}
  {found found' : ClassBody} (hinner : B.KeepsClasses P n inner) (h : B.Abreast c c')
  (hin : B.Inner k c) (hk : B.after.length ≤ k) (hk' : k ≤ B.after.length + 1)
  (hn : c.rest.length < n) (hbody : SameBody found found')

include hinner h hin hk hk' hn hbody

/-- **A statement of a class body keeps pace**, outside of the line that is broken. -/
theorem keepsIf_classStatement :
    B.KeepsIf (fun b _ => Fits P b.classes) c c' (classStatement inner found)
      (classStatement inner found') fun b b' d => SameBody b b' ∧ B.Apart k d := by
  have hdefinition : ∀ {d d'}, B.Abreast d d' → B.Inner k d → d.rest.length ≤ c.rest.length →
      ∀ ds ds', B.KeepsIf (fun b _ => Fits P b.classes) d d' (memberDefinition inner found ds)
        (memberDefinition inner found' ds') fun b b' d => SameBody b b' ∧ B.Apart k d := by
    intro d d' hd hin' hle ds ds'
    refine keepsIf_definitionOf (G := fun (b : ClassBody) => Fits P b.classes) hd hin' hk hk' hinner
      (Nat.lt_of_le_of_lt hle hn) (fun hfits => ?_) (fun hj => ?_) ?_ ds ds'
    · exact (Fits.concat_iff.1 hfits).2
    · exact ⟨hbody.attributes, hbody.classes.concat hj⟩
    · exact ⟨hbody.attributes, hbody.classes⟩
  rw [classStatement_eq, classStatement_eq]
  refine keepsIf_statementOf h hin hk' hbody hdefinition ?_
  have hstarts : startsBinding (c'.rest.map (·.token)) = startsBinding (c.rest.map (·.token)) :=
    h.startsBinding_eq
  simp only [KeepsIf, memberSimple, ends_bind (x := Reading.ahead), ends_ahead, hstarts]
  refine KeepsIf.ite (fun _ => ?_) fun _ => ?_
  · refine (keeps_classBinding h hin hk hk').bindIf ?_
    rintro bs bs' e e' he ⟨hsame, hapart⟩ _
    exact ⟨he, ⟨hbody.attributes.append hsame, hbody.classes⟩, hapart⟩
  · exact (keeps_passStatement h hin hk hk').bindIf fun _ _ e e' he hapart _ =>
      ⟨he, hbody, hapart⟩

end Statements

/-! ### Statements of the line -/

/-- Behind the break the tokens are the same. -/
theorem Abreast.tokens_eq (h : B.Abreast c c') (hlength : c.rest.length ≤ B.after.length + 1) :
    c'.tokens = c.tokens := by
  obtain ⟨a, a', hrest, hrest', hmatched⟩ := (h.back hlength).ahead
  rw [Cursor.tokens, Cursor.tokens, hrest, hrest', B.back_behind, B.back_behind', List.append_nil,
    List.append_nil, tokens_matched hmatched]

/-- In the line, the same tokens lead up to its end and to the break. -/
theorem Abreast.exists_rest {st : List Lexeme} (h : B.Abreast c c')
    (hrest : c.rest = st ++ B.mark :: B.next :: B.after) :
    ∃ st', c'.rest = st' ++ B.newline :: B.next' :: B.after' ∧
      List.Forall₂ B.front.Matched st st' := by
  obtain ⟨a, a', ha, ha', hmatched⟩ := (h.front (by
    rw [hrest, List.length_append, List.length_cons, List.length_cons]
    omega)).ahead
  rw [B.front_behind, hrest] at ha
  obtain rfl := List.append_cancel_right ha
  exact ⟨a', B.front_behind' ▸ ha', hmatched⟩

/-- The rest of the line is passed: in the one source up to the end of the line that was broken, in
the other one up to the break. -/
theorem Abreast.pass_line {st : List Lexeme} (h : B.Abreast c c')
    (hst : ∀ l ∈ st, l.token.isLayout = false)
    (hrest : c.rest = st ++ B.mark :: B.next :: B.after) :
    ∃ d d', B.Abreast d d' ∧ d.rest = B.next :: B.after ∧
      (∀ w Q, Ends w passStatement o c Q ↔ Ends w passStatement o d Q) ∧
        passStatement o' c' = .done () d' := by
  obtain ⟨st', hrest', hmatched⟩ := h.exists_rest hrest
  have hst' : ∀ l ∈ st', l.token.isLayout = false := by
    intro l hl
    have hmem : l.token ∈ st'.map (·.token) := List.mem_map_of_mem hl
    rw [tokens_matched hmatched] at hmem
    obtain ⟨l', hl', hsame⟩ := List.mem_map.1 hmem
    exact hsame ▸ hst l' hl'
  have habreast := h.advanceBy (st.length + 1)
  have hbehind : (c.advanceBy (st.length + 1)).rest = B.next :: B.after := by
    rw [rest_advanceBy, hrest, List.drop_append, List.drop_eq_nil_of_le (Nat.le_succ _),
      Nat.add_sub_cancel_left]
    rfl
  refine ⟨_, _, habreast, hbehind, fun w Q =>
    ends_passStatement_semicolon hrest hst B.semicolon, ?_⟩
  have hnext : (c'.advanceBy (st.length + 1)).next? ≠ some .indent := by
    rw [habreast.next_eq (by rw [hbehind, List.length_cons]; omega), next?, hbehind]
    intro heq
    have hindent : B.next.token = .indent := Option.some.inj heq
    have hline := B.next_line
    rw [hindent] at hline
    cases hline
  rw [done_iff_ends, ends_passStatement_newline hrest' hst' B.newline_token
    (hmatched.length_eq ▸ hnext), hmatched.length_eq]
  exact ⟨rfl, rfl⟩

variable (B) in
/-- A statement of the line begins here. -/
def InLine (c : Cursor) : Prop :=
  ∃ st, (∀ l ∈ st, l.token.isLayout = false) ∧
    Separated o B.tokens B.mark (B.next :: B.after) st ∧
      c.rest = st ++ B.mark :: B.next :: B.after

/-- The token at a statement of the line is none of the layout's. -/
theorem InLine.exists_next (hin : B.InLine c) (h : B.Abreast c c') :
    ∃ t, t.isLayout = false ∧ c.next? = some t ∧ c'.next? = some t := by
  obtain ⟨st, hst, hseparated, hrest⟩ := hin
  obtain ⟨l, ls, rfl⟩ := List.exists_cons_of_ne_nil (hseparated.ne_nil B.semicolon)
  have hnext : c.next? = some l.token := next?_eq_some_iff.2 ⟨_, _, hrest, rfl⟩
  refine ⟨_, hst l List.mem_cons_self, hnext, (h.next_eq ?_).trans hnext⟩
  rw [hrest]
  simp only [List.length_append, List.length_cons]
  omega

section Line

variable {inner inner' : List Decorator → Reading ClassOutline} {found found' : ClassBody}
  {st : List Lexeme}

/-- A statement that binds names binds the same ones in front of the break. -/
theorem keeps_boundNames (hst : IsBound o B.tokens st ls) (h : B.Abreast c c')
    (hrest : c.rest = st ++ ls) (hlength : B.after.length + 1 < ls.length) :
    B.Keeps c c' boundNames boundNames fun bs bs' d => SameAttributes bs bs' ∧ d.rest = ls :=
  ((h.keeps_front sim_boundNames).and (hst.ends c h.follows hrest)).mono fun _ _ ⟨hd, hls⟩ =>
    (hd (hls ▸ hlength)).mono fun _ _ ⟨habreast, hsame⟩ => ⟨habreast, hsame, hls⟩

variable (inner') in
/-- A statement that binds names keeps pace if its end does. -/
theorem keeps_bound {R : Cursor → Prop} (hst : IsBound o B.tokens st ls) (h : B.Abreast c c')
    (hrest : c.rest = st ++ ls) (hlength : B.after.length + 1 < ls.length)
    (hfinish : ∀ d d', B.Abreast d d' → d.rest = ls →
      B.Keeps d d' finishStatement finishStatement fun _ _ => R)
    (hbody : SameBody found found') :
    B.Keeps c c' (classStatement inner found) (classStatement inner' found')
      fun b b' d => SameBody b b' ∧ R d := by
  have hbinding : B.Keeps c c' classBinding classBinding fun bs bs' d =>
      SameAttributes bs bs' ∧ R d := by
    rw [classBinding_eq]
    refine (keeps_boundNames hst h hrest hlength).bind ?_
    rintro bs bs' d d' hd ⟨hsame, hls⟩
    exact (hfinish d d' hd hls).bind fun _ _ _ _ he hR => keeps_pure he ⟨hsame, hR⟩
  have hstarts : startsBinding c.tokens = true := by
    rw [Cursor.tokens, hrest]
    exact hst.starts
  have hstarts' := h.startsBinding_eq.trans hstarts
  obtain ⟨name, us, htokens⟩ := exists_identifier_of_startsBinding hstarts
  obtain ⟨name', us', htokens'⟩ := exists_identifier_of_startsBinding hstarts'
  rw [Keeps, ends_classStatement_simple (next?_of_tokens htokens) rfl (by rw [htokens]; rfl),
    if_pos hstarts]
  refine Ends.mono hbinding fun bs d hd => ?_
  rw [ends_classStatement_simple (next?_of_tokens htokens') rfl (by rw [htokens']; rfl),
    if_pos hstarts']
  refine hd.mono ?_
  rintro bs' d' ⟨habreast, hsame, hR⟩
  exact ⟨habreast, ⟨hbody.attributes.append hsame, hbody.classes⟩, hR⟩

/-- A semicolon in the line ends a statement in both sources. -/
theorem keeps_finish_more {semicolon : Lexeme} (h : B.Abreast c c')
    (hsemicolon : semicolon.token = .semicolon) (hne : st ≠ [])
    (hst : ∀ l ∈ st, l.token.isLayout = false)
    (hrest : c.rest = semicolon :: (st ++ B.mark :: B.next :: B.after)) :
    B.Keeps c c' finishStatement finishStatement fun _ _ d =>
      d.rest = st ++ B.mark :: B.next :: B.after := by
  have hadvance : c.advance.rest = st ++ B.mark :: B.next :: B.after := by
    rw [rest_advance, hrest]
    rfl
  have hcount := congrArg List.length hadvance
  rw [List.length_append, List.length_cons, List.length_cons] at hcount
  have hpos := List.length_pos_iff.2 hne
  have hnext : c.next? = some .semicolon := next?_eq_some_iff.2 ⟨_, _, hrest, hsemicolon⟩
  have hnext' := h.next_eq (by
    rw [hrest, List.length_cons, List.length_append, List.length_cons, List.length_cons]
    omega)
  obtain ⟨l, ls, rfl⟩ := List.exists_cons_of_ne_nil hne
  have hmore : c.advance.next? ≠ some .newline := by
    rw [next?, hadvance]
    intro heq
    have hnewline : l.token = .newline := Option.some.inj heq
    have hlayout := hst l List.mem_cons_self
    rw [hnewline] at hlayout
    cases hlayout
  have hmore' := h.advance.next_eq (by omega)
  rw [Keeps, ends_finishStatement_semicolon hnext hmore,
    ends_finishStatement_semicolon (hnext'.trans hnext) (hmore' ▸ hmore)]
  exact ⟨h.advance, hadvance⟩

/-- At the break, a semicolon ends the statement in the one source and a `newline` in the other. -/
theorem keeps_finish_mark (h : B.Abreast c c') (hrest : c.rest = B.mark :: B.next :: B.after) :
    B.Keeps c c' finishStatement finishStatement fun _ _ d =>
      d.rest.length = B.after.length + 1 := by
  have hadvance : c.advance.rest = B.next :: B.after := by
    rw [rest_advance, hrest]
    rfl
  have hmore : c.advance.next? ≠ some .newline := by
    rw [next?, hadvance]
    intro heq
    have hnewline : B.next.token = .newline := Option.some.inj heq
    have hline := B.next_line
    rw [hnewline] at hline
    cases hline
  have hmark : c.rest = [] ++ B.mark :: B.next :: B.after := hrest
  obtain ⟨st', hrest', hmatched⟩ := h.exists_rest hmark
  cases hmatched
  have hother : c'.next? ≠ some .semicolon := by
    rw [next?, hrest']
    intro heq
    have hsemicolon : B.newline.token = .semicolon := Option.some.inj heq
    rw [B.newline_token] at hsemicolon
    cases hsemicolon
  obtain ⟨d, d', hd, hd_rest, _, hpass⟩ := h.pass_line (by simp) hmark
  rw [Keeps, ends_finishStatement_semicolon (next?_eq_some_iff.2 ⟨_, _, hrest, B.semicolon⟩) hmore,
    ends_finishStatement_other hother, ends_iff_of_done hpass]
  refine ⟨⟨h.advance.reaches, hd.reaches', ?_⟩, by rw [hadvance, List.length_cons]⟩
  rw [← hd.length_eq, hadvance, hd_rest]

/-- A binding that is passed with the rest of the line, is passed up to the break in the other
source. -/
theorem passed_classBinding (hpassed : IsPassed o B.tokens st (B.mark :: B.next :: B.after))
    (h : B.Abreast c c') (hst : ∀ l ∈ st, l.token.isLayout = false)
    (hrest : c.rest = st ++ B.mark :: B.next :: B.after)
    (hstarts : startsBinding c.tokens = true) :
    Ends .any classBinding o c fun bs d => ∃ bs' e e', B.Abreast e e' ∧
      e.rest = B.next :: B.after ∧ classBinding o' c' = .done bs' e' ∧ SameAttributes bs bs' ∧
        passStatement o e = .done () d := by
  rw [classBinding_eq]
  simp only [ends_bind, ends_pure]
  have hends := hpassed.ends (by rw [← hrest]; exact hstarts) c h.follows hrest
  refine (((h.keeps_front sim_boundNames).and hends).and
    (Onward.suffix inferInstance o c)).mono ?_
  rintro bs d ⟨⟨hd, hlength, hother⟩, hsuffix⟩
  obtain ⟨st', hst', hrest'⟩ := exists_append_of_suffix (hrest ▸ hsuffix) (Nat.le_of_lt hlength)
  rw [List.length_cons, List.length_cons] at hlength
  obtain ⟨bs', d', hdone, habreast, hsame⟩ := exists_done_of_ends (hd (by omega))
  obtain ⟨e, e', he, hbehind, hiff, hpass⟩ :=
    habreast.pass_line (fun l hl => hst l (hst'.subset hl)) hrest'
  have hother' : d'.next? ≠ some .semicolon := habreast.next_eq (by omega) ▸ hother
  rw [ends_finishStatement_other hother, hiff]
  refine ends_done.mono fun _ d hdone' => ⟨bs', e, e', he, hbehind, ?_, hsame, hdone'⟩
  rw [done_iff_ends]
  simp only [ends_bind, ends_pure, ends_iff_of_done hdone]
  rw [ends_finishStatement_other hother', ends_iff_of_done hpass]
  exact ⟨trivial, rfl⟩

variable (inner') in
/-- A statement that is passed with the rest of the line, is passed up to the break in the other
source. -/
theorem passed_classStatement (hpassed : IsPassed o B.tokens st (B.mark :: B.next :: B.after))
    (h : B.Abreast c c') (hne : st ≠ []) (hst : ∀ l ∈ st, l.token.isLayout = false)
    (hrest : c.rest = st ++ B.mark :: B.next :: B.after) (hbody : SameBody found found') :
    Ends .any (classStatement inner found) o c fun t d => ∃ t' e e', B.Abreast e e' ∧
      e.rest = B.next :: B.after ∧ classStatement inner' found' o' c' = .done t' e' ∧
        SameBody t t' ∧ passStatement o e = .done () d := by
  obtain ⟨l, ls, rfl⟩ := List.exists_cons_of_ne_nil hne
  have hl := hst l List.mem_cons_self
  have hnext : c.next? = some l.token := next?_eq_some_iff.2 ⟨_, _, hrest, rfl⟩
  have hnext' : c'.next? = some l.token := (h.next_eq (by
    simp only [hrest, List.length_append, List.length_cons]
    omega)).trans hnext
  have hopens : opensScope c.tokens = false := by
    rw [Cursor.tokens, hrest]
    exact hpassed.opens
  have hopens' : opensScope c'.tokens = false := by
    rw [opensScope_tokens, h.startsScope_eq, ← opensScope_tokens, hopens]
  rw [ends_classStatement_simple hnext hl hopens]
  split
  · rename_i hstarts
    refine (passed_classBinding hpassed h hst hrest hstarts).mono ?_
    rintro bs d ⟨bs', e, e', he, hbehind, hdone, hsame, hpass⟩
    have hclass : classStatement inner' found' o' c' =
        .done { found' with bindings := found'.bindings ++ bs' } e' := by
      rw [done_iff_ends, ends_classStatement_simple hnext' hl hopens',
        if_pos (h.startsBinding_eq.trans hstarts), ends_iff_of_done hdone]
      exact ⟨rfl, rfl⟩
    exact ⟨_, e, e', he, hbehind, hclass, ⟨hbody.attributes.append hsame, hbody.classes⟩, hpass⟩
  · rename_i hstarts
    obtain ⟨e, e', he, hbehind, hiff, hpass⟩ := h.pass_line hst hrest
    have hclass : classStatement inner' found' o' c' = .done found' e' := by
      rw [done_iff_ends, ends_classStatement_simple hnext' hl hopens',
        if_neg (h.startsBinding_eq ▸ hstarts), ends_iff_of_done hpass]
      exact ⟨rfl, rfl⟩
    rw [hiff]
    exact ends_done.mono fun _ d hdone => ⟨_, e, e', he, hbehind, hclass, hbody, hdone⟩

/-- A reading that keeps pace leads to a round of the other loop, if it is one there. -/
theorem KeepsIf.leads {step' : τ → Reading (Round τ β)} {s' : τ} {x : Reading σ} {y : Reading τ}
    {G : σ → Cursor → Prop} {Q : σ → τ → Cursor → Prop} (h : B.Abreast c c')
    (hround : ∀ R, Ends ⟨False, False⟩ (step' s') o' c' R ↔
      Ends ⟨False, False⟩ y o' c' fun t d => R (.again t) d)
    (hkeeps : B.KeepsIf G c c' x y Q)
    (hpass : Ends .any x o c fun _ d => d.rest.length < c.rest.length) :
    Ends .any x o c fun t d => G t d → ∃ t' d',
      Leads step' o' s' c' t' d' ∧ B.Abreast d d' ∧ Q t t' d := by
  refine (Ends.and hkeeps hpass).mono fun t d ⟨hd, hlength⟩ hG => ?_
  obtain ⟨t', d', hdone, habreast, hQ⟩ := exists_done_of_ends (hd hG)
  rw [h.length_eq, habreast.length_eq] at hlength
  exact ⟨t', d', leads_of_round hround hdone hlength, habreast, hQ⟩

/-- A reading that keeps pace without a condition leads to a round too. -/
theorem Keeps.leads {step' : τ → Reading (Round τ β)} {s' : τ} {x : Reading σ} {y : Reading τ}
    {Q : σ → τ → Cursor → Prop} (h : B.Abreast c c')
    (hround : ∀ R, Ends ⟨False, False⟩ (step' s') o' c' R ↔
      Ends ⟨False, False⟩ y o' c' fun t d => R (.again t) d)
    (hkeeps : B.Keeps c c' x y Q)
    (hpass : Ends .any x o c fun _ d => d.rest.length < c.rest.length) :
    Ends .any x o c fun t d => ∃ t' d',
      Leads step' o' s' c' t' d' ∧ B.Abreast d d' ∧ Q t t' d :=
  (KeepsIf.leads (G := fun _ _ => True) h hround hkeeps.keepsIf hpass).mono
    fun _ _ hd => hd trivial

/-- Statements behind the break that are passed are a line of their own in the other source. -/
theorem exists_pass_behind (h : B.Abreast c c') (hrest : c.rest = B.next :: B.after)
    (hpass : passStatement o c = .done () d) :
    c'.tokens = (B.next :: B.after).map (·.token) ∧ ∃ d', passStatement o' c' = .done () d' ∧
      B.Abreast d d' ∧ d'.rest.length < c'.rest.length ∧ d.rest.length ≤ B.after.length + 1 := by
  have hlength : c.rest.length = B.after.length + 1 := by rw [hrest, List.length_cons]
  obtain ⟨_, d', hdone, habreast, _⟩ := exists_done_of_ends ((ends_iff_of_done hpass).1
    (keeps_passStatement h (.inr (Nat.le_of_eq hlength)) (Nat.le_succ _) (Nat.le_refl _)))
  have hless := ((ends_iff_of_done hpass).1
    ((passes_passStatement h.stands (next?_eq_some_iff.2 ⟨_, _, hrest, rfl⟩)
      (Bool.or_eq_false_iff.1 B.next_line).2).of_safe (w := .any) trivial)).length_lt
  refine ⟨by rw [h.tokens_eq (Nat.le_of_eq hlength), Cursor.tokens, hrest], d', hdone, habreast, ?_,
    by omega⟩
  rw [← habreast.length_eq, ← h.length_eq]
  exact hless

variable (found') in
/-- Tokens behind the break that bind no names are passed as statements of a class body. -/
theorem leads_behind (h : B.Abreast c c') (hrest : c.rest = B.next :: B.after)
    (hbehind : startsBinding ((B.next :: B.after).map (·.token)) = false)
    (hpass : passStatement o c = .done () d) :
    ∃ d', Leads (indentedRound inner') o' found' c' found' d' ∧ B.Abreast d d' ∧
      d.rest.length ≤ B.after.length + 1 := by
  obtain ⟨htokens, d', hdone, habreast, hless, hle⟩ := exists_pass_behind h hrest hpass
  have hnext' : c'.next? = some B.next.token := next?_of_tokens htokens
  have hclass : classStatement inner' found' o' c' = .done found' d' := by
    rw [done_iff_ends, ends_classStatement_other hnext' B.next_line (htokens ▸ B.opens_next)
      (htokens ▸ hbehind), ends_iff_of_done hdone]
    exact ⟨rfl, rfl⟩
  refine ⟨d', leads_of_classStatement hnext' (fun hdedent => ?_) hclass hless, habreast, hle⟩
  have hline := B.next_line
  rw [hdedent] at hline
  cases hline

variable (inner') in
/-- **The line keeps pace with its two parts**: a statement of the line leads to the next one, or
behind the break. -/
theorem leads_inLine (h : B.Abreast c c') (hin : B.InLine c)
    (hpass : Ends .any (classStatement inner found) o c fun _ d =>
      d.rest.length < c.rest.length) (hbody : SameBody found found') :
    Ends .any (classStatement inner found) o c fun b d => ∃ b' d',
      Leads (indentedRound inner') o' found' c' b' d' ∧ SameBody b b' ∧ B.Abreast d d' ∧
        (B.InLine d ∨ d.rest.length ≤ B.after.length + 1) := by
  obtain ⟨t, ht, -, hnext'⟩ := hin.exists_next h
  have hdedent : t ≠ .dedent := fun heq => by
    rw [heq] at ht
    cases ht
  have hround : ∀ R, Ends ⟨False, False⟩ (indentedRound inner' found') o' c' R ↔
      Ends ⟨False, False⟩ (classStatement inner' found') o' c' fun b d => R (.again b) d :=
    fun _ => ends_indentedRound_statement hnext' hdedent
  obtain ⟨st, hst, hseparated, hrest⟩ := hin
  cases hseparated with
  | last hbound =>
    exact (Keeps.leads h hround (keeps_bound inner' hbound h hrest (by simp)
      (fun _ _ hd hls => keeps_finish_mark hd hls) hbody) hpass).mono
        fun b d ⟨b', d', hleads, habreast, hsame, hbehind⟩ =>
          ⟨b', d', hleads, hsame, habreast, .inr (Nat.le_of_eq hbehind)⟩
  | @more st more semicolon hbound hsemicolon hmore =>
    have hmore' : ∀ l ∈ more, l.token.isLayout = false := fun l hl =>
      hst l (List.mem_append_right _ (List.mem_cons_of_mem _ hl))
    rw [List.append_assoc, List.cons_append] at hrest
    have hlength : B.after.length + 1 <
        (semicolon :: (more ++ B.mark :: B.next :: B.after)).length := by
      simp only [List.length_cons, List.length_append]
      omega
    exact (Keeps.leads h hround (keeps_bound inner' hbound h hrest hlength
      (fun _ _ hd hls => keeps_finish_more hd hsemicolon (hmore.ne_nil B.semicolon) hmore' hls)
      hbody) hpass).mono fun b d ⟨b', d', hleads, habreast, hsame, hbehind⟩ =>
        ⟨b', d', hleads, hsame, habreast, .inl ⟨more, hmore', hmore, hbehind⟩⟩
  | passed hpassed hne hbehind =>
    refine (passed_classStatement inner' hpassed h hne hst hrest hbody).mono
      fun b d ⟨b', e, e', he, hrest', hdone, hsame, hpassed'⟩ => ?_
    obtain ⟨d', hleads, hd, hlength⟩ := leads_behind b' he hrest' hbehind hpassed'
    refine ⟨b', d', (leads_of_classStatement hnext' hdedent hdone ?_).trans hleads, hsame, hd,
      .inr hlength⟩
    rw [← he.length_eq, ← h.length_eq, hrest', hrest]
    simp only [List.length_append, List.length_cons]
    omega

end Line

end LineBreak

end Outline
end Lineage
