/-
# Walks in an index

The bases of a class are classes of the index, whatever the resolver answers
(`mem_superClasses`), so a walk meets no others besides the one it starts from
(`closedUnder_ids`).  The classes in progress are distinct, hence never more than
these: a walk enters no more levels than there are classes, whatever the longest chain
followed is (`visit_min_levels`).
-/

import Lineage.Hierarchy.View
import Lineage.Proofs.Ancestry.Reachability
import Lineage.Proofs.Ancestry.Walk
import Mathlib.Data.List.Nodup
import Mathlib.Data.List.Perm.Subperm

namespace Lineage
namespace Hierarchy

variable {index : ClassIndex} {resolver : Resolver} {id a b : ClassId}

/-- The ids of the classes of an index. -/
def ClassIndex.ids (index : ClassIndex) : List ClassId := (List.range index.size).map ClassId.mk

/-- The ids of an index are those that have a declaration. -/
theorem mem_ids : a ∈ index.ids ↔ (index.get? a).isSome := by
  rcases a with ⟨n⟩
  simp [ClassIndex.ids, ClassIndex.get?, ClassIndex.size]

/-- There are as many ids as classes. -/
@[simp] theorem length_ids (index : ClassIndex) : index.ids.length = index.size := by
  simp [ClassIndex.ids]

/-- Candidates are added to the bases if the index has them. -/
theorem mem_foldl_addBase {found candidates : List ClassId} :
    b ∈ candidates.foldl (fun found base =>
        if (index.get? base).isSome && !found.contains base then found ++ [base] else found) found ↔
      b ∈ found ∨ b ∈ candidates ∧ (index.get? b).isSome := by
  induction candidates generalizing found with
  | nil => simp
  | cons c candidates ih =>
    rw [List.foldl_cons, ih]
    by_cases hc : (index.get? c).isSome && !found.contains c
    · rw [if_pos hc, List.mem_append, List.mem_singleton, List.mem_cons, or_assoc, or_and_right]
      have hsome : (index.get? c).isSome := (Bool.and_eq_true_iff.1 hc).1
      exact or_congr_right (or_congr_left ⟨fun h => ⟨h, h ▸ hsome⟩, And.left⟩)
    · rw [if_neg hc, List.mem_cons, or_and_right, ← or_assoc]
      refine or_congr_left ⟨Or.inl, ?_⟩
      rintro (hmem | ⟨rfl, hsome⟩)
      · exact hmem
      · simpa [hsome] using hc

/-- The bases of a class are what its base expressions resolve to, in the index. -/
theorem mem_superClasses :
    b ∈ superClasses index resolver id ↔
      ∃ d, index.get? id = some d ∧ (∃ e ∈ d.bases, resolver index d e = some b) ∧
        (index.get? b).isSome := by
  unfold superClasses
  cases hd : index.get? id with
  | none => simp
  | some d =>
    rw [mem_foldl_addBase, List.mem_filterMap]
    simp

/-- An index of classes of one module, each given by its name and those of its bases. -/
def ClassIndex.ofBases (classes : List (String × List String)) : ClassIndex where
  classes := classes.zipIdx.map fun (c, n) =>
    { ClassDecl.synthetic ⟨n⟩ "m" c.1 with bases := c.2.map fun base => .name base ⟨0, 0, ""⟩ }
  byQualifiedName := classes.zipIdx.map fun (c, n) => (dotted "m" c.1, ⟨n⟩)
  byName := classes.zipIdx.map fun (c, n) => (c.1, [⟨n⟩])
  modules := ["m"]

/-- The resolver that finds each of those classes by its name. -/
def Resolver.ofBases (classes : List (String × List String)) : Resolver :=
  .table (classes.zipIdx.map fun (c, n) => (c.1, ⟨n⟩))

namespace BaseGraph

variable {g : BaseGraph} {limit left left' : Nat} {way classes : List ClassId} {w : Walk}

/-- The bases of the classes are among the classes. -/
def ClosedUnder (g : BaseGraph) (classes : List ClassId) : Prop :=
  ∀ a ∈ classes, ∀ b ∈ g.bases a, b ∈ classes

/-- What is reached from the classes is among them. -/
theorem ClosedUnder.mem_of_reaches (h : g.ClosedUnder classes) (ha : a ∈ classes)
    (hb : g.Reaches a b) : b ∈ classes := by
  induction hb with
  | refl => exact ha
  | tail _ edge ih => exact h _ ih _ edge

/-- What is a base of anything is in the index. -/
theorem mem_ids_of_edge (h : (index.graph resolver).Edge a b) : b ∈ index.ids := by
  obtain ⟨_, _, _, hsome⟩ := mem_superClasses.1 h
  exact mem_ids.2 hsome

/-- The classes of an index, with one more, are closed under bases. -/
theorem closedUnder_ids (index : ClassIndex) (resolver : Resolver) (id : ClassId) :
    (index.graph resolver).ClosedUnder (id :: index.ids) :=
  fun _ _ _ hb => List.mem_cons_of_mem id (mem_ids_of_edge hb)

/-- **Levels beyond the number of classes are not entered.**  The classes in progress
are distinct, so there is always a level left for one more. -/
theorem visit_eq_of_levels (hclosed : g.ClosedUnder classes) (hway : way ++ [id] ⊆ classes)
    (hnodup : (way ++ [id]).Nodup) (h : classes.length ≤ way.length + left)
    (h' : classes.length ≤ way.length + left') (w : Walk) :
    g.visit limit left way id w = g.visit limit left' way id w := by
  induction left generalizing left' way id w with
  | zero =>
    have hlength := (List.subperm_of_subset hnodup hway).length_le
    rw [List.length_append, List.length_singleton] at hlength
    omega
  | succ left ih =>
    have hlength := (List.subperm_of_subset hnodup hway).length_le
    rw [List.length_append, List.length_singleton] at hlength
    obtain ⟨left', rfl⟩ := Nat.exists_eq_add_of_le' (show 1 ≤ left' by omega)
    cases hknown : w.known.lookup id with
    | some order => rw [visit_known hknown, visit_known hknown]
    | none =>
      have hid : id ∈ classes := hway (List.mem_append_right _ (List.mem_singleton_self id))
      have hvisits : ∀ b ∈ (g.openBases (way ++ [id]) (g.bases id) w).1, ∀ w',
          g.visit limit left (way ++ [id]) b w' = g.visit limit left' (way ++ [id]) b w' := by
        intro b hb w'
        obtain ⟨hb, hfresh⟩ := mem_openBases.1 hb
        refine ih ?_ ?_ ?_ ?_ w'
        · exact List.append_subset.2
            ⟨hway, List.cons_subset.2 ⟨hclosed id hid b hb, List.nil_subset _⟩⟩
        · exact List.nodup_append_comm.1 (List.nodup_cons.2 ⟨hfresh, hnodup⟩)
        · rw [List.length_append, List.length_singleton]
          omega
        · rw [List.length_append, List.length_singleton]
          omega
      rw [visit_entered hknown, visit_entered hknown]
      dsimp only
      rw [orders_congr hvisits]

/-- **A walk in an index enters no more levels than there are classes**, whatever the
longest chain followed is. -/
theorem visit_min_levels (index : ClassIndex) (resolver : Resolver) (maxDepth : Nat)
    (id : ClassId) (w : Walk) :
    (index.graph resolver).visit maxDepth maxDepth [] id w =
      (index.graph resolver).visit maxDepth (min maxDepth (index.size + 1)) [] id w := by
  rcases Nat.le_total maxDepth (index.size + 1) with hle | hle
  · rw [Nat.min_eq_left hle]
  · rw [Nat.min_eq_right hle]
    have hlength : (id :: index.ids).length = index.size + 1 := by
      rw [List.length_cons, length_ids]
    refine visit_eq_of_levels (closedUnder_ids index resolver id) ?_ (List.nodup_singleton id)
      ?_ ?_ w
    · exact List.cons_subset.2 ⟨List.mem_cons_self, List.nil_subset _⟩
    · rw [hlength]
      exact Nat.le_add_left_of_le hle
    · rw [hlength]
      exact Nat.le_add_left _ _

end BaseGraph
end Hierarchy
end Lineage
