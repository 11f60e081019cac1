/-
# Walks through the bases

What all visits of a walk have in common.  A visit changes the state of the walk by
three reports and by keeping orders; a property that none of the four breaks holds to
the end (`visit_invariant`).  Reports stay and are counted, so a walk only extends
(`visit_extends`), and one that counted a report has it in its diagnostics
(`visit_honest`).  What the kept orders have in common (`Walk.Keeps`) is no such property:
it is to be shown of each order that is kept (`keeps_settle`).

`visit_induction` is the way to everything else: it gives for a visit the three cases
(the order is known, the class is too deep, its bases are visited one after another)
with the run of the visits of the bases as a chain (`Each`).
-/

import Lineage.Hierarchy.Linearization
import Mathlib.Data.List.Basic

namespace Lineage
namespace Hierarchy

namespace Walk

variable {w w' w'' : Walk} {d e : Diagnostic} {id : ClassId} {order : List ClassId}
  {K : ClassId → List ClassId → Prop}

/-! ### Steps -/

/-- A report changes no kept order. -/
@[simp] theorem report_known (w : Walk) (d : Diagnostic) : (w.report d).known = w.known := by
  unfold report
  split <;> rfl

/-- A report is not counted by itself. -/
@[simp] theorem report_unstable (w : Walk) (d : Diagnostic) :
    (w.report d).unstable = w.unstable := by
  unfold report
  split <;> rfl

/-- What has been reported after a report is what was before, and it. -/
@[simp] theorem mem_report : e ∈ (w.report d).diagnostics ↔ e ∈ w.diagnostics ∨ e = d := by
  unfold report
  split
  · rename_i h
    have hd : d ∈ w.diagnostics := List.contains_iff_mem.1 h
    exact ⟨Or.inl, fun he => he.elim id fun heq => heq ▸ hd⟩
  · exact List.mem_append.trans (or_congr_right List.mem_singleton)

/-- A counted report changes no kept order. -/
@[simp] theorem reportUnstable_known (w : Walk) (d : Diagnostic) :
    (w.reportUnstable d).known = w.known := report_known w d

/-- A counted report is one more. -/
@[simp] theorem reportUnstable_unstable (w : Walk) (d : Diagnostic) :
    (w.reportUnstable d).unstable = w.unstable + 1 := rfl

/-- What has been reported after a counted report is what was before, and it. -/
@[simp] theorem mem_reportUnstable :
    e ∈ (w.reportUnstable d).diagnostics ↔ e ∈ w.diagnostics ∨ e = d := mem_report

/-- `K` holds of every class with a kept order, and of that order. -/
def Keeps (K : ClassId → List ClassId → Prop) (w : Walk) : Prop :=
  ∀ id order, (id, order) ∈ w.known → K id order

/-- Nothing is kept at the start. -/
theorem keeps_start (K : ClassId → List ClassId → Prop) : start.Keeps K :=
  fun _ _ hmem => absurd hmem List.not_mem_nil

/-- What holds of kept orders holds of one that is looked up. -/
theorem Keeps.of_lookup (h : w.Keeps K) (hlookup : w.known.lookup id = some order) :
    K id order := by
  obtain ⟨_, _, hsplit, _⟩ := List.lookup_eq_some_iff.1 hlookup
  exact h id order (hsplit ▸ List.mem_append_right _ List.mem_cons_self)

/-- What holds of all kept orders still does when no order is added. -/
theorem Keeps.of_known_eq (h : w.Keeps K) (heq : w'.known = w.known) : w'.Keeps K :=
  fun id order hmem => h id order (heq ▸ hmem)

/-- What holds of all kept orders holds with one more, if it is true of that one. -/
theorem Keeps.keep (h : w.Keeps K) (hK : K id order) : (w.keep id order).Keeps K := by
  intro id' order' hmem
  rcases List.mem_cons.1 hmem with heq | hmem
  · obtain ⟨rfl, rfl⟩ := Prod.mk.inj heq
    exact hK
  · exact h id' order' hmem

/-- A property of the state that no step of a walk breaks. -/
structure Invariant (I : Walk → Prop) : Prop where
  cyclic : ∀ w cycle, I w → I (w.reportUnstable (.cyclic cycle))
  tooDeep : ∀ w name limit, I w → I (w.reportUnstable (.tooDeep name limit))
  inconsistent : ∀ w name bases, I w → I (w.report (.inconsistent name bases))
  keep : ∀ w id order, I w → I (w.keep id order)

/-- What has been reported by `w` has been reported by `w'`. -/
structure Extends (w w' : Walk) : Prop where
  diagnostics : ∀ d ∈ w.diagnostics, d ∈ w'.diagnostics
  unstable : w.unstable ≤ w'.unstable

/-- A walk extends itself. -/
theorem Extends.refl (w : Walk) : w.Extends w := ⟨fun _ => id, Nat.le_refl _⟩

/-- A walk extends all that it has extended on the way. -/
theorem Extends.trans (h : w.Extends w') (h' : w'.Extends w'') : w.Extends w'' :=
  ⟨fun d hd => h'.diagnostics d (h.diagnostics d hd), Nat.le_trans h.unstable h'.unstable⟩

/-- Every step extends a walk. -/
theorem invariant_extends (w : Walk) : Invariant w.Extends where
  cyclic _ _ h := ⟨fun d hd => mem_reportUnstable.2 (.inl (h.diagnostics d hd)),
    Nat.le_succ_of_le h.unstable⟩
  tooDeep _ _ _ h := ⟨fun d hd => mem_reportUnstable.2 (.inl (h.diagnostics d hd)),
    Nat.le_succ_of_le h.unstable⟩
  inconsistent _ _ _ h := ⟨fun d hd => mem_report.2 (.inl (h.diagnostics d hd)),
    (report_unstable ..).symm ▸ h.unstable⟩
  keep _ _ _ h := ⟨h.diagnostics, h.unstable⟩

/-- A class has been reported as too deep. -/
def CutShort (w : Walk) : Prop := ∃ name limit, .tooDeep name limit ∈ w.diagnostics

/-- Once a class has been reported as too deep it stays so. -/
theorem CutShort.of_extends (h : w.CutShort) (hw : w.Extends w') : w'.CutShort := by
  obtain ⟨name, limit, hmem⟩ := h
  exact ⟨name, limit, hw.diagnostics _ hmem⟩

/-- Where an order may depend on the way, a cycle or a class too deep is among the
diagnostics. -/
def Honest (w : Walk) : Prop :=
  0 < w.unstable → (∃ cycle, .cyclic cycle ∈ w.diagnostics) ∨ w.CutShort

/-- Nothing is counted at the start. -/
theorem honest_start : start.Honest := fun h => absurd h (Nat.lt_irrefl 0)

/-- A report that is counted is one of a cycle or of a class too deep. -/
theorem invariant_honest : Invariant Honest where
  cyclic _ cycle _ _ := .inl ⟨cycle, mem_reportUnstable.2 (.inr rfl)⟩
  tooDeep _ name limit _ _ := .inr ⟨name, limit, mem_reportUnstable.2 (.inr rfl)⟩
  inconsistent w name bases h hpos := by
    rw [report_unstable] at hpos
    rcases h hpos with ⟨cycle, hmem⟩ | ⟨name', limit, hmem⟩
    · exact .inl ⟨cycle, mem_report.2 (.inl hmem)⟩
    · exact .inr ⟨name', limit, mem_report.2 (.inl hmem)⟩
  keep _ _ _ h := h

end Walk

namespace BaseGraph

open Walk (Invariant)

variable {g : BaseGraph} {limit left : Nat} {way bases : List ClassId} {id : ClassId}
  {w w' w₁ w₂ : Walk} {order merged : List ClassId} {baseOrders : List (List ClassId)}
  {I : Walk → Prop}

/-! ### The parts of a visit -/

/-- The bases that stay are those that are not in progress. -/
theorem openBases_fst (way bases : List ClassId) (w : Walk) :
    (g.openBases way bases w).1 = bases.filter fun b => !way.contains b := by
  induction bases generalizing w with
  | nil => rfl
  | cons b bases ih =>
    unfold openBases
    by_cases hb : way.contains b
    · rw [if_pos hb, List.filter_cons_of_neg (by simpa using hb)]
      exact ih _
    · rw [if_neg hb, List.filter_cons_of_pos (by simpa using hb)]
      exact congrArg (b :: ·) (ih w)

/-- The open bases are those that are not on the way. -/
theorem mem_openBases {b : ClassId} :
    b ∈ (g.openBases way bases w).1 ↔ b ∈ bases ∧ b ∉ way := by
  rw [openBases_fst]
  simp

/-- Opening the bases adds no order. -/
theorem openBases_known (way bases : List ClassId) (w : Walk) :
    (g.openBases way bases w).2.known = w.known := by
  induction bases generalizing w with
  | nil => rfl
  | cons b bases ih =>
    unfold openBases
    split
    · exact (ih _).trans (Walk.reportUnstable_known ..)
    · exact ih w

/-- Each base that goes is counted. -/
theorem openBases_unstable (way bases : List ClassId) (w : Walk) :
    (g.openBases way bases w).2.unstable = w.unstable + bases.countP way.contains := by
  induction bases generalizing w with
  | nil => rfl
  | cons b bases ih =>
    unfold openBases
    by_cases hb : way.contains b
    · rw [if_pos hb, List.countP_cons_of_pos hb]
      exact (ih _).trans (by rw [Walk.reportUnstable_unstable]; omega)
    · rw [if_neg hb, List.countP_cons_of_neg hb]
      exact ih w

/-- If none is counted, all stay. -/
theorem openBases_fst_of_unstable (h : (g.openBases way bases w).2.unstable = w.unstable) :
    (g.openBases way bases w).1 = bases := by
  rw [openBases_unstable] at h
  have hnone : bases.countP way.contains = 0 := by omega
  rw [openBases_fst]
  exact List.filter_eq_self.2 fun b hb => by simpa using List.countP_eq_zero.1 hnone b hb

/-- Each base that goes is reported with the cycle that it closes. -/
theorem mem_openBases_diagnostics {d : Diagnostic} :
    d ∈ (g.openBases way bases w).2.diagnostics ↔
      d ∈ w.diagnostics ∨ ∃ b ∈ bases, b ∈ way ∧
        d = .cyclic ((way.dropWhile (· ≠ b) ++ [b]).map g.nameOf) := by
  induction bases generalizing w with
  | nil => simp [openBases]
  | cons b bases ih =>
    unfold openBases
    by_cases hb : way.contains b
    · rw [if_pos hb]
      dsimp only
      rw [ih, Walk.mem_reportUnstable, List.exists_mem_cons_iff, or_assoc]
      have hb' : b ∈ way := List.contains_iff_mem.1 hb
      simp only [hb', true_and]
    · rw [if_neg hb, List.exists_mem_cons_iff]
      have hb' : b ∉ way := mt List.contains_iff_mem.2 hb
      simp only [hb', false_and, false_or]
      exact ih

/-- If nothing is reported, all stay. -/
theorem openBases_fst_of_diagnostics (h : (g.openBases way bases w).2.diagnostics = []) :
    (g.openBases way bases w).1 = bases := by
  rw [openBases_fst]
  refine List.filter_eq_self.2 fun b hb => ?_
  by_contra hway
  have hmem : b ∈ way := by simpa using hway
  exact List.not_mem_nil (h ▸ mem_openBases_diagnostics.2 (.inr ⟨b, hb, hmem, rfl⟩))

/-- Opening the bases keeps every invariant. -/
theorem openBases_invariant (hI : Invariant I) (way bases : List ClassId) (h : I w) :
    I (g.openBases way bases w).2 := by
  induction bases generalizing w with
  | nil => exact h
  | cons b bases ih =>
    unfold openBases
    split
    · exact ih (hI.cyclic w _ h)
    · exact ih h

/-- Merging the orders of the bases adds no order. -/
theorem mergeBases_known (id : ClassId) (bases : List ClassId) (baseOrders : List (List ClassId))
    (w : Walk) : (g.mergeBases id bases baseOrders w).2.known = w.known := by
  unfold mergeBases
  split
  · rfl
  · exact Walk.report_known ..

/-- Merging the orders of the bases keeps every invariant. -/
theorem mergeBases_invariant (hI : Invariant I) (h : I w) :
    I (g.mergeBases id bases baseOrders w).2 := by
  unfold mergeBases
  split
  · exact h
  · exact hI.inconsistent w _ _ h

/-- Without an inconsistency among the diagnostics, the order is the merged one. -/
theorem c3Merge_of_mergeBases (h : (g.mergeBases id bases baseOrders w).2.diagnostics = []) :
    c3Merge (baseOrders ++ [bases]) = some (g.mergeBases id bases baseOrders w).1 := by
  unfold mergeBases at h ⊢
  split
  · assumption
  · rename_i hnone
    rw [hnone] at h
    have hmem := (Walk.mem_report (w := w)).2
      (.inr (rfl : Diagnostic.inconsistent (g.nameOf id) (bases.map g.nameOf) = _))
    exact absurd (h ▸ hmem) List.not_mem_nil

/-! ### The cases of a visit -/

/-- A class with a kept order is not visited again. -/
theorem visit_known (h : w.known.lookup id = some order) :
    g.visit limit left way id w = (order, w) := by
  rw [visit.eq_def]
  dsimp only
  rw [h]

/-- A class at the limit stands for itself, and that is reported. -/
theorem visit_tooDeep (h : w.known.lookup id = none) :
    g.visit limit 0 way id w = ([id], w.reportUnstable (.tooDeep (g.nameOf id) limit)) := by
  rw [visit.eq_def]
  dsimp only
  rw [h]

/-- The state after a visit that entered a class: the order is kept if nothing on the way
to it was counted. -/
def settle (w w' : Walk) (id : ClassId) (order : List ClassId) : Walk :=
  if w'.unstable = w.unstable then w'.keep id order else w'

/-- Else a visit opens the bases, visits them and merges their orders behind the class. -/
theorem visit_entered (h : w.known.lookup id = none) :
    g.visit limit (left + 1) way id w =
      let opened := g.openBases (way ++ [id]) (g.bases id) w
      let visited := orders (g.visit limit left (way ++ [id])) opened.1 opened.2
      let merged := g.mergeBases id opened.1 visited.1 visited.2
      (id :: merged.1, settle w merged.2 id (id :: merged.1)) := by
  rw [visit.eq_def]
  dsimp only
  rw [h]
  rfl

/-- The end of a visit counts no report. -/
@[simp] theorem settle_unstable (w w' : Walk) (id : ClassId) (order : List ClassId) :
    (settle w w' id order).unstable = w'.unstable := by
  unfold settle
  split <;> rfl

/-- The end of a visit reports nothing. -/
@[simp] theorem settle_diagnostics (w w' : Walk) (id : ClassId) (order : List ClassId) :
    (settle w w' id order).diagnostics = w'.diagnostics := by
  unfold settle
  split <;> rfl

/-- The end of a visit keeps every invariant. -/
theorem settle_invariant (hI : Invariant I) (h : I w') : I (settle w w' id order) := by
  unfold settle
  split
  · exact hI.keep w' id order h
  · exact h

/-- What holds of kept orders still does after a visit, if it holds of an order that counted
nothing. -/
theorem keeps_settle {K : ClassId → List ClassId → Prop} (h : w'.Keeps K)
    (hK : w'.unstable = w.unstable → K id order) : (settle w w' id order).Keeps K := by
  unfold settle
  split
  · rename_i hstable
    exact h.keep (hK hstable)
  · exact h

/-- Visits of several classes are one of the first, then those of the others. -/
theorem orders_cons (visit : ClassId → Walk → List ClassId × Walk) (b : ClassId)
    (bases : List ClassId) (w : Walk) :
    orders visit (b :: bases) w =
      ((visit b w).1 :: (orders visit bases (visit b w).2).1,
        (orders visit bases (visit b w).2).2) :=
  rfl

/-- Visits that do the same for each class do the same for all of them. -/
theorem orders_congr {visit visit' : ClassId → Walk → List ClassId × Walk}
    (h : ∀ b ∈ bases, ∀ w, visit b w = visit' b w) (w : Walk) :
    orders visit bases w = orders visit' bases w := by
  induction bases generalizing w with
  | nil => rfl
  | cons b bases ih =>
    have hothers := ih fun c hc => h c (List.mem_cons_of_mem b hc)
    rw [orders_cons, orders_cons, h b List.mem_cons_self, hothers]

/-- Visits of several classes keep an invariant that each of them keeps. -/
theorem orders_invariant {visit : ClassId → Walk → List ClassId × Walk}
    (hvisit : ∀ b w, I w → I (visit b w).2) (h : I w) : I (orders visit bases w).2 := by
  induction bases generalizing w with
  | nil => exact h
  | cons b bases ih => exact ih (hvisit b w h)

/-- **What no step breaks, no visit breaks.** -/
theorem visit_invariant (hI : Invariant I) (h : I w) : I (g.visit limit left way id w).2 := by
  induction left generalizing way id w with
  | zero =>
    cases hknown : w.known.lookup id with
    | some order => rwa [visit_known hknown]
    | none => exact visit_tooDeep hknown ▸ hI.tooDeep w _ limit h
  | succ left ih =>
    cases hknown : w.known.lookup id with
    | some order => rwa [visit_known hknown]
    | none =>
      rw [visit_entered hknown]
      have hopened := openBases_invariant (g := g) hI (way ++ [id]) (g.bases id) h
      exact settle_invariant hI
        (mergeBases_invariant hI (orders_invariant (fun _ _ => ih) hopened))

/-- A visit only adds reports. -/
theorem visit_extends (limit left : Nat) (way : List ClassId) (id : ClassId) (w : Walk) :
    w.Extends (g.visit limit left way id w).2 :=
  visit_invariant (Walk.invariant_extends w) (.refl w)

/-- Counted reports are reported at the end of a visit, if they were before. -/
theorem visit_honest (h : w.Honest) : (g.visit limit left way id w).2.Honest :=
  visit_invariant Walk.invariant_honest h

/-! ### Induction over visits -/

/-- Visits of one class after another: the classes, the state before, their orders, the
state after.  `P` holds of every visit, and every visit extends the walk. -/
inductive Each (P : ClassId → Walk → List ClassId → Walk → Prop) :
    List ClassId → Walk → List (List ClassId) → Walk → Prop where
  | nil {w : Walk} : Each P [] w [] w
  | cons {b : ClassId} {bases : List ClassId} {w w' w'' : Walk} {order : List ClassId}
      {baseOrders : List (List ClassId)} (first : P b w order w') (grows : w.Extends w')
      (others : Each P bases w' baseOrders w'') :
      Each P (b :: bases) w (order :: baseOrders) w''

variable {P : ClassId → Walk → List ClassId → Walk → Prop}

/-- Visits of several classes extend the walk. -/
theorem Each.extends (h : Each P bases w baseOrders w') : w.Extends w' := by
  induction h with
  | nil => exact .refl _
  | cons _ grows _ ih => exact grows.trans ih

/-- What holds of every visit may be replaced by what follows from it. -/
theorem Each.imp {Q : ClassId → Walk → List ClassId → Walk → Prop}
    (hPQ : ∀ b w order w', P b w order w' → Q b w order w') (h : Each P bases w baseOrders w') :
    Each Q bases w baseOrders w' := by
  induction h with
  | nil => exact .nil
  | cons first grows _ ih => exact .cons (hPQ _ _ _ _ first) grows ih

/-- What each visit keeps, the visits keep one after another. -/
theorem Each.keeps (h : Each P bases w baseOrders w')
    (hP : ∀ b ∈ bases, ∀ w order w', P b w order w' → I w → I w') (hw : I w) : I w' := by
  induction h with
  | nil => exact hw
  | @cons b bases _ _ _ _ _ first _ _ ih =>
    have hw' := hP b List.mem_cons_self _ _ _ first hw
    exact ih (fun c hc => hP c (List.mem_cons_of_mem b hc)) hw'

/-- Visits of one class after another are as `Each` says, if each of them extends the walk. -/
theorem each_orders {visit : ClassId → Walk → List ClassId × Walk}
    (h : ∀ b w, P b w (visit b w).1 (visit b w).2 ∧ w.Extends (visit b w).2)
    (bases : List ClassId) (w : Walk) :
    Each P bases w (orders visit bases w).1 (orders visit bases w).2 := by
  induction bases generalizing w with
  | nil => exact .nil
  | cons b bases ih => exact .cons (h b w).1 (h b w).2 (ih _)

/-- **Induction over visits.**  What holds of a known order, of a class too deep, and of a
class that is entered, if it holds of the visits of its bases, holds of every visit. -/
theorem visit_induction {P : Nat → List ClassId → ClassId → Walk → List ClassId → Walk → Prop}
    (known : ∀ left way id w order, w.known.lookup id = some order → P left way id w order w)
    (tooDeep : ∀ way id w, P 0 way id w [id] (w.reportUnstable (.tooDeep (g.nameOf id) limit)))
    (entered : ∀ left way id w bases w₁ baseOrders w₂ merged w₃,
      bases = (g.openBases (way ++ [id]) (g.bases id) w).1 →
      w₁ = (g.openBases (way ++ [id]) (g.bases id) w).2 →
      Each (P left (way ++ [id])) bases w₁ baseOrders w₂ →
      merged = (g.mergeBases id bases baseOrders w₂).1 →
      w₃ = (g.mergeBases id bases baseOrders w₂).2 →
      P (left + 1) way id w (id :: merged) (settle w w₃ id (id :: merged)))
    (left : Nat) (way : List ClassId) (id : ClassId) (w : Walk) :
    P left way id w (g.visit limit left way id w).1 (g.visit limit left way id w).2 := by
  induction left generalizing way id w with
  | zero =>
    cases hknown : w.known.lookup id with
    | some order => exact visit_known hknown ▸ known _ _ _ _ _ hknown
    | none => exact visit_tooDeep hknown ▸ tooDeep way id w
  | succ left ih =>
    cases hknown : w.known.lookup id with
    | some order => exact visit_known hknown ▸ known _ _ _ _ _ hknown
    | none =>
      rw [visit_entered hknown]
      exact entered left way id w _ _ _ _ _ _ rfl rfl
        (each_orders (fun b w' => ⟨ih _ b w', visit_extends ..⟩) _ _) rfl rfl

end BaseGraph
end Hierarchy
end Lineage
