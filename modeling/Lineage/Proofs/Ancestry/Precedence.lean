/-
# The laws of precedence

A hierarchy without anything to report has one order for each class: the class, and
then what the orders of its bases and the list of its bases merge to (`C3Order`).
That order is the same wherever the class is met (`C3Order.unique`), so the order of
an ancestor that a walk came by is the one that its own walk finds.  It keeps the
bases of every class in it and the order of every class in it
(`superClasses_and_orders_sublist`).
-/

import Lineage.Proofs.Ancestry.Linearization

namespace Lineage
namespace Hierarchy
namespace BaseGraph

variable {g : BaseGraph} {id a : ClassId} {order order' : List ClassId} {w w' : Walk}

/-- The order of a class: itself, then the merge of the orders of its bases and the list
of its bases. -/
inductive C3Order (g : BaseGraph) : ClassId → List ClassId → Prop where
  | merge {id : ClassId} {merged : List ClassId} (orderOf : ClassId → List ClassId)
      (bases : ∀ b ∈ g.bases id, C3Order g b (orderOf b))
      (merges : c3Merge ((g.bases id).map orderOf ++ [g.bases id]) = some merged) :
      C3Order g id (id :: merged)

/-- **A class has one order.** -/
theorem C3Order.unique (h : g.C3Order id order) (h' : g.C3Order id order') : order = order' := by
  induction h generalizing order' with
  | @merge id merged orderOf bases merges ih =>
    cases h' with
    | merge orderOf' bases' merges' =>
      have horders : (g.bases id).map orderOf = (g.bases id).map orderOf' :=
        List.map_congr_left fun b hb => ih b hb (bases' b hb)
      rw [horders, merges'] at merges
      rw [Option.some.inj merges]

/-- The order of a class keeps the list of its bases. -/
theorem C3Order.bases_sublist (h : g.C3Order id order) : (g.bases id).Sublist order := by
  cases h with
  | merge orderOf _ merges =>
    have hmerged := merged_of_c3Merge merges
    exact (hmerged.sublist (List.mem_append_right _ (List.mem_singleton_self _))).cons id

/-- **The order of a class keeps the order of every class in it.** -/
theorem C3Order.exists_sublist (h : g.C3Order id order) (ha : a ∈ order) :
    ∃ order', g.C3Order a order' ∧ order'.Sublist order := by
  induction h with
  | @merge id merged orderOf bases merges ih =>
    have hmerged := merged_of_c3Merge merges
    have hkept : ∀ b ∈ g.bases id, (orderOf b).Sublist (id :: merged) := fun b hb =>
      (hmerged.sublist (List.mem_append_left _ (List.mem_map_of_mem hb))).cons id
    rcases List.mem_cons.1 ha with rfl | ha
    · exact ⟨_, .merge orderOf bases merges, .refl _⟩
    · obtain ⟨s, hs, has⟩ := hmerged.mem_iff.1 ha
      rcases List.mem_append.1 hs with hs | hs
      · obtain ⟨b, hb, rfl⟩ := List.mem_map.1 hs
        obtain ⟨order', h', hsub⟩ := ih b hb has
        exact ⟨order', h', hsub.trans (hkept b hb)⟩
      · obtain rfl := List.mem_singleton.1 hs
        exact ⟨orderOf a, bases a has, hkept a has⟩

/-! ### The orders of a walk -/

/-- What a visit does while nothing is reported: it finds the order of its class, and
keeps such orders only. -/
def FindsC3 (g : BaseGraph) (id : ClassId) (w : Walk) (order : List ClassId) (w' : Walk) : Prop :=
  w.Keeps g.C3Order → w'.diagnostics = [] → w'.Keeps g.C3Order ∧ g.C3Order id order

/-- A walk without reports had none before. -/
theorem diagnostics_eq_nil_of_extends (h : w.Extends w') (hw' : w'.diagnostics = []) :
    w.diagnostics = [] :=
  List.eq_nil_iff_forall_not_mem.2 fun d hd => List.not_mem_nil (hw' ▸ h.diagnostics d hd)

/-- The orders of several classes are those that one function gives. -/
theorem Each.findsC3 {bases : List ClassId} {baseOrders : List (List ClassId)}
    (h : Each g.FindsC3 bases w baseOrders w') (hknown : w.Keeps g.C3Order)
    (hnone : w'.diagnostics = []) :
    w'.Keeps g.C3Order ∧ List.Forall₂ g.C3Order bases baseOrders := by
  induction h with
  | nil => exact ⟨hknown, .nil⟩
  | cons first grows others ih =>
    have hfirst := diagnostics_eq_nil_of_extends others.extends hnone
    obtain ⟨hknown', horder⟩ := first hknown hfirst
    obtain ⟨hknown'', horders⟩ := ih hknown' hnone
    exact ⟨hknown'', .cons horder horders⟩

/-- Orders of several classes are given by one function, since a class has one order. -/
theorem exists_orderOf {bases : List ClassId} {baseOrders : List (List ClassId)}
    (h : List.Forall₂ g.C3Order bases baseOrders) :
    ∃ orderOf : ClassId → List ClassId,
      baseOrders = bases.map orderOf ∧ ∀ b ∈ bases, g.C3Order b (orderOf b) := by
  classical
  let orderOf (b : ClassId) : List ClassId := if hb : ∃ o, g.C3Order b o then hb.choose else []
  have hchosen : ∀ b o, g.C3Order b o → orderOf b = o := fun b o hbo => by
    have hb : ∃ o, g.C3Order b o := ⟨o, hbo⟩
    exact (dif_pos hb).trans (hb.choose_spec.unique hbo)
  refine ⟨orderOf, ?_, fun b hb => ?_⟩
  · induction h with
    | nil => rfl
    | cons hbo _ ih => rw [List.map_cons, hchosen _ _ hbo, ← ih]
  · obtain ⟨o, _, hbo⟩ := exists_mem_of_forall₂ h hb
    exact hchosen b o hbo ▸ hbo

/-- **While nothing is reported, a visit finds the order of its class.** -/
theorem visit_findsC3 (g : BaseGraph) (limit left : Nat) (way : List ClassId) (id : ClassId)
    (w : Walk) :
    g.FindsC3 id w (g.visit limit left way id w).1 (g.visit limit left way id w).2 := by
  refine visit_induction (P := fun _ _ => g.FindsC3) ?known ?tooDeep ?entered left way id w
  case known =>
    intro _ _ id w order hlookup hknown _
    exact ⟨hknown, hknown.of_lookup hlookup⟩
  case tooDeep =>
    intro _ id w _ hnone
    exact absurd (hnone ▸ Walk.mem_reportUnstable.2 (.inr rfl)) List.not_mem_nil
  case entered =>
    intro _ way id w bases w₁ baseOrders w₂ merged w₃ hbases hw₁ heach hmerged hw₃ hknown hnone
    have hnone₃ : w₃.diagnostics = [] := by rwa [settle_diagnostics] at hnone
    have hgrows : w₂.Extends w₃ :=
      hw₃ ▸ mergeBases_invariant (Walk.invariant_extends w₂) (.refl w₂)
    have hnone₂ := diagnostics_eq_nil_of_extends hgrows hnone₃
    have hnone₁ := diagnostics_eq_nil_of_extends heach.extends hnone₂
    obtain rfl : bases = g.bases id :=
      hbases.trans (openBases_fst_of_diagnostics (hw₁ ▸ hnone₁))
    have hknown₁ : w₁.Keeps g.C3Order := hknown.of_known_eq (hw₁ ▸ openBases_known ..)
    obtain ⟨hknown₂, horders⟩ := heach.findsC3 hknown₁ hnone₂
    have hknown₃ : w₃.Keeps g.C3Order := hknown₂.of_known_eq (hw₃ ▸ mergeBases_known ..)
    obtain ⟨orderOf, rfl, horderOf⟩ := exists_orderOf horders
    have horder : g.C3Order id (id :: merged) :=
      .merge orderOf horderOf (hmerged ▸ c3Merge_of_mergeBases (hw₃ ▸ hnone₃))
    exact ⟨keeps_settle hknown₃ fun _ => horder, horder⟩

/-- A linearization with nothing to report is the order of its class. -/
theorem c3Order_linearize {maxDepth : Nat} (hnone : (g.linearize maxDepth id).diagnostics = []) :
    g.C3Order id (id :: (g.linearize maxDepth id).ancestors) := by
  obtain ⟨_, horder⟩ := visit_findsC3 g maxDepth maxDepth [] id .start
    (Walk.keeps_start _) hnone
  rwa [visit_start_fst] at horder

end BaseGraph

/-- **The laws of precedence.**  If the ancestors of a class are well-formed, the class and
its ancestors keep, for each class among them, its bases in declaration order, and, for
each ancestor with well-formed ancestors of its own, that class and its ancestors. -/
theorem superClasses_and_orders_sublist (v : View) (l : List ClassId)
    (h : v.checkedAncestors = .ok l) :
    (∀ x ∈ v.id :: l, (superClasses v.index v.resolver x).Sublist (v.id :: l)) ∧
      ∀ a ∈ l, ∀ u, v.index.view? v.resolver v.context a = some u →
        ∀ m, u.checkedAncestors = .ok m → (a :: m).Sublist (v.id :: l) := by
  obtain ⟨hnone, rfl⟩ := checkedAncestors_eq_ok h
  have horder : v.graph.C3Order v.id (v.id :: v.ancestors) := BaseGraph.c3Order_linearize hnone
  constructor
  · intro x hx
    obtain ⟨_, hx', hsub⟩ := horder.exists_sublist hx
    exact hx'.bases_sublist.trans hsub
  · intro a ha u hu m hm
    obtain ⟨hnone', rfl⟩ := checkedAncestors_eq_ok hm
    obtain ⟨hindex, hresolver, _, rfl⟩ := view?_eq_some hu
    have horder' : v.graph.C3Order u.id (u.id :: u.ancestors) := by
      have hgraph : u.graph = v.graph := by rw [View.graph, View.graph, hindex, hresolver]
      exact hgraph ▸ BaseGraph.c3Order_linearize hnone'
    obtain ⟨order, ha', hsub⟩ := horder.exists_sublist (List.mem_cons_of_mem v.id ha)
    exact horder'.unique ha' ▸ hsub

/-- `D` derives from `B` and `C`, and both of them from `A`. -/
def diamondBases : List (String × List String) :=
  [("A", []), ("B", ["A"]), ("C", ["A"]), ("D", ["B", "C"])]

/-- The view of `D`. -/
def diamondView : View := ⟨.ofBases diamondBases, .ofBases diamondBases, .python3, ⟨3⟩, _, rfl⟩

/-- The hypotheses of `superClasses_and_orders_sublist` are satisfiable: `D` and its
ancestors keep the bases of `D`, and `C` with its ancestors. -/
theorem superClasses_and_orders_sublist_diamond :
    diamondView.checkedAncestors = .ok [⟨1⟩, ⟨2⟩, ⟨0⟩] ∧
      (superClasses diamondView.index diamondView.resolver ⟨3⟩).Sublist [⟨3⟩, ⟨1⟩, ⟨2⟩, ⟨0⟩] ∧
      [(⟨2⟩ : ClassId), ⟨0⟩].Sublist [⟨3⟩, ⟨1⟩, ⟨2⟩, ⟨0⟩] := by
  have h := superClasses_and_orders_sublist diamondView [⟨1⟩, ⟨2⟩, ⟨0⟩] rfl
  exact ⟨rfl, h.1 ⟨3⟩ (by decide), h.2 ⟨2⟩ (by decide) _ rfl [⟨0⟩] rfl⟩

end Hierarchy
end Lineage
