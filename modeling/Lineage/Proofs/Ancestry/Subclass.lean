/-
# Subclasses

A class is a subclass of what it reaches.  The question is answered by a search of its
own, with a list of the classes seen and one of those ahead; it keeps that whatever a
seen class leads to is seen or ahead (`Searching`), so when nothing is ahead all has
been seen (`reaches_eq_true_iff`).

The linearization knows the answer too, unless a class was too deep: its dropped bases
and its fallbacks lose no class (`isSubclass_iff_reaches_and_mem_ancestors`).
-/

import Lineage.Proofs.Ancestry.Linearization

namespace Lineage
namespace Hierarchy

open BaseGraph (Edge Reaches ClosedUnder closedUnder_ids)

variable {g : BaseGraph} {found : ClassId → Bool} {fresh : Nat}
  {classes seen ahead rest : List ClassId} {id a c : ClassId}

/-! ### The search -/

/-- A search among `classes` that has found nothing yet: what is seen leads to nothing but
what is seen or ahead, and `fresh` more classes are all that may come. -/
structure Searching (g : BaseGraph) (classes : List ClassId) (found : ClassId → Bool)
    (fresh : Nat) (seen ahead : List ClassId) : Prop where
  nodup : seen.Nodup
  seen_subset : seen ⊆ classes
  ahead_subset : ahead ⊆ classes
  follows : ∀ a ∈ seen, ∀ b ∈ g.bases a, b ∈ seen ∨ b ∈ ahead
  missed : ∀ a ∈ seen, found a = false
  enough : classes.length ≤ seen.length + fresh

/-- Nothing is seen at the start of a search. -/
theorem Searching.start (hahead : ahead ⊆ classes) (henough : classes.length ≤ fresh) :
    Searching g classes found fresh [] ahead where
  nodup := List.nodup_nil
  seen_subset := List.nil_subset _
  ahead_subset := hahead
  follows _ ha := absurd ha List.not_mem_nil
  missed _ ha := absurd ha List.not_mem_nil
  enough := by rwa [List.length_nil, Nat.zero_add]

/-- A class that has been seen is passed over. -/
theorem Searching.skip (h : Searching g classes found fresh seen (id :: rest)) (hid : id ∈ seen) :
    Searching g classes found fresh seen rest :=
  { h with
    ahead_subset := (List.cons_subset.1 h.ahead_subset).2
    follows := fun a ha b hb => by
      rcases h.follows a ha b hb with hb | hb
      · exact .inl hb
      · rcases List.mem_cons.1 hb with rfl | hb
        · exact .inl hid
        · exact .inr hb }

/-- As long as a class has not been seen, more may come. -/
theorem Searching.fresh_pos (h : Searching g classes found fresh seen (id :: rest))
    (hid : id ∉ seen) : 0 < fresh := by
  have hsubset : id :: seen ⊆ classes :=
    List.cons_subset.2 ⟨(List.cons_subset.1 h.ahead_subset).1, h.seen_subset⟩
  have hlength := (List.subperm_of_subset (List.nodup_cons.2 ⟨hid, h.nodup⟩) hsubset).length_le
  rw [List.length_cons] at hlength
  have := h.enough
  omega

/-- A new class is seen, and its bases come ahead. -/
theorem Searching.enter (hclosed : g.ClosedUnder classes)
    (h : Searching g classes found (fresh + 1) seen (id :: rest)) (hid : id ∉ seen)
    (hmissed : found id = false) :
    Searching g classes found fresh (id :: seen) (g.bases id ++ rest) where
  nodup := List.nodup_cons.2 ⟨hid, h.nodup⟩
  seen_subset := List.cons_subset.2 ⟨(List.cons_subset.1 h.ahead_subset).1, h.seen_subset⟩
  ahead_subset := by
    obtain ⟨hclass, hrest⟩ := List.cons_subset.1 h.ahead_subset
    exact List.append_subset.2 ⟨fun b hb => hclosed id hclass b hb, hrest⟩
  follows a ha b hb := by
    rcases List.mem_cons.1 ha with rfl | ha
    · exact .inr (List.mem_append_left rest hb)
    · rcases h.follows a ha b hb with hb | hb
      · exact .inl (List.mem_cons_of_mem id hb)
      · rcases List.mem_cons.1 hb with rfl | hb
        · exact .inl List.mem_cons_self
        · exact .inr (List.mem_append_right _ hb)
  missed a ha := by
    rcases List.mem_cons.1 ha with rfl | ha
    · exact hmissed
    · exact h.missed a ha
  enough := by
    have := h.enough
    rw [List.length_cons]
    omega

/-- With nothing ahead, all that the seen classes reach is seen. -/
theorem Searching.mem_seen (h : Searching g classes found fresh seen []) (ha : a ∈ seen)
    (hc : g.Reaches a c) : c ∈ seen := by
  induction hc with
  | refl => exact ha
  | tail _ edge ih => exact (h.follows _ ih _ edge).resolve_right List.not_mem_nil

/-- **A search that succeeds has reached what it looks for.** -/
theorem exists_reaches_of_walkFinds (h : View.walkFinds g.bases found fresh seen ahead = true) :
    ∃ a ∈ ahead, ∃ c, g.Reaches a c ∧ found c = true := by
  fun_induction View.walkFinds g.bases found fresh seen ahead with
  | case1 => cases h
  | case2 fresh seen id rest hid ih =>
    obtain ⟨a, ha, hfound⟩ := ih h
    exact ⟨a, List.mem_cons_of_mem id ha, hfound⟩
  | case3 fresh seen id rest hid hfound => exact ⟨id, List.mem_cons_self, id, .refl, hfound⟩
  | case4 => cases h
  | case5 seen id rest hid hmissed fresh ih =>
    obtain ⟨a, ha, c, hac, hfound⟩ := ih h
    rcases List.mem_append.1 ha with ha | ha
    · exact ⟨id, List.mem_cons_self, c, .head ha hac, hfound⟩
    · exact ⟨a, List.mem_cons_of_mem id ha, c, hac, hfound⟩

/-- **A search that fails has missed nothing.** -/
theorem found_eq_false_of_walkFinds (hclosed : g.ClosedUnder classes)
    (hsearch : Searching g classes found fresh seen ahead)
    (h : View.walkFinds g.bases found fresh seen ahead = false)
    (ha : a ∈ seen ∨ a ∈ ahead) (hc : g.Reaches a c) : found c = false := by
  fun_induction View.walkFinds g.bases found fresh seen ahead with
  | case1 fresh seen =>
    exact hsearch.missed c (hsearch.mem_seen (ha.resolve_right List.not_mem_nil) hc)
  | case2 fresh seen id rest hid ih =>
    have hid : id ∈ seen := List.contains_iff_mem.1 hid
    refine ih (hsearch.skip hid) h (ha.elim .inl fun ha => ?_)
    rcases List.mem_cons.1 ha with rfl | ha
    · exact .inl hid
    · exact .inr ha
  | case3 => cases h
  | case4 seen id rest hid =>
    have hid : id ∉ seen := mt List.contains_iff_mem.2 hid
    exact absurd (hsearch.fresh_pos hid) (Nat.lt_irrefl 0)
  | case5 seen id rest hid hmissed fresh ih =>
    have hid : id ∉ seen := mt List.contains_iff_mem.2 hid
    refine ih (hsearch.enter hclosed hid (Bool.eq_false_iff.2 hmissed)) h ?_
    rcases ha with ha | ha
    · exact .inl (List.mem_cons_of_mem id ha)
    · rcases List.mem_cons.1 ha with rfl | ha
      · exact .inl List.mem_cons_self
      · exact .inr (List.mem_append_right _ ha)

/-! ### Views -/

/-- **A class reaches one with a property if the search says so.** -/
theorem reaches_eq_true_iff (v : View) (found : ClassId → Bool) :
    v.reaches found = true ↔ ∃ c, v.graph.Reaches v.id c ∧ found c = true := by
  constructor
  · intro h
    obtain ⟨a, ha, hfound⟩ := exists_reaches_of_walkFinds h
    exact List.mem_singleton.1 ha ▸ hfound
  · rintro ⟨c, hc, hfound⟩
    by_contra hfails
    have hstart : Searching v.graph (v.id :: v.index.ids) found (v.index.size + 1) [] [v.id] :=
      .start (List.cons_subset.2 ⟨List.mem_cons_self, List.nil_subset _⟩)
        (by rw [List.length_cons, length_ids])
    have hmissed := found_eq_false_of_walkFinds (closedUnder_ids v.index v.resolver v.id) hstart
      (Bool.eq_false_iff.2 hfails) (.inr (List.mem_singleton_self v.id)) hc
    rw [hmissed] at hfound
    cases hfound

/-- A class is a subclass of those that it reaches. -/
theorem isSubclass_eq_true_iff (v : View) (other : ClassId) :
    v.isSubclass other = true ↔ v.graph.Reaches v.id other := by
  unfold View.isSubclass
  rw [reaches_eq_true_iff]
  constructor
  · rintro ⟨c, hc, heq⟩
    exact of_decide_eq_true heq ▸ hc
  · exact fun h => ⟨other, h, decide_eq_true rfl⟩

/-- **A subclass reaches its superclass, and the linearization agrees.**  A class is a
subclass of just those that it reaches, whatever the longest chain followed; so the
relation holds of a class and itself, and passes on through the views of other classes.
If no class is reported as too deep, these are the class and its ancestors. -/
theorem isSubclass_iff_reaches_and_mem_ancestors (v : View) (other : ClassId) :
    (v.isSubclass other = true ↔ v.graph.Reaches v.id other) ∧
      v.isSubclass v.id = true ∧
      (∀ u : View, u.index = v.index → u.resolver = v.resolver →
        v.isSubclass u.id = true → u.isSubclass other = true → v.isSubclass other = true) ∧
      ((∀ name limit, .tooDeep name limit ∉ v.diagnostics) →
        (v.isSubclass other = true ↔ other = v.id ∨ other ∈ v.ancestors)) := by
  refine ⟨isSubclass_eq_true_iff v other, (isSubclass_eq_true_iff v v.id).2 .refl, ?_, ?_⟩
  · intro u hindex hresolver hmid hother
    have hgraph : u.graph = v.graph := by rw [View.graph, View.graph, hindex, hresolver]
    rw [isSubclass_eq_true_iff] at hmid hother ⊢
    exact hmid.trans (hgraph ▸ hother)
  · intro hdeep
    rw [isSubclass_eq_true_iff, ← List.mem_cons]
    exact ⟨fun h => BaseGraph.mem_ancestors_of_reaches hdeep h,
      fun h => (v.graph.explored_linearize v.context.maxDepth v.id).reaches other h⟩

/-- `A` and `B` are bases of each other, and `C` is the second base of `B`. -/
def loopBases : List (String × List String) := [("A", ["B"]), ("B", ["A", "C"]), ("C", [])]

/-- The view of `A`. -/
def loopView : View := ⟨.ofBases loopBases, .ofBases loopBases, .python3, ⟨0⟩, _, rfl⟩

/-- The view of `B`. -/
def loopBaseView : View :=
  ⟨.ofBases loopBases, .ofBases loopBases, .python3, ⟨1⟩, _, rfl⟩

/-- The loop is reported, and nothing else is wrong. -/
theorem loopView_diagnostics : loopView.diagnostics = [.cyclic ["m.A", "m.B", "m.A"]] := rfl

/-- The hypotheses of `isSubclass_iff_reaches_and_mem_ancestors` are satisfiable: `A` is a
subclass of `C` through the view of `B`, and `C` is an ancestor of `A` in spite of the
cycle. -/
theorem isSubclass_iff_reaches_and_mem_ancestors_loop :
    loopView.isSubclass ⟨1⟩ = true ∧ loopBaseView.isSubclass ⟨2⟩ = true ∧
      loopView.isSubclass ⟨2⟩ = true ∧ ⟨2⟩ ∈ loopView.ancestors := by
  have hdeep : ∀ name limit, .tooDeep name limit ∉ loopView.diagnostics := fun name limit => by
    simp [loopView_diagnostics]
  have hedge : (⟨2⟩ : ClassId) ∈ superClasses loopBaseView.index loopBaseView.resolver ⟨1⟩ := by
    decide
  have hmid : loopView.isSubclass ⟨1⟩ = true :=
    ((isSubclass_iff_reaches_and_mem_ancestors loopView ⟨1⟩).2.2.2 hdeep).2 (.inr (by decide))
  have hother : loopBaseView.isSubclass ⟨2⟩ = true :=
    (isSubclass_iff_reaches_and_mem_ancestors loopBaseView ⟨2⟩).1.2 (.single hedge)
  obtain ⟨_, _, htrans, hagree⟩ := isSubclass_iff_reaches_and_mem_ancestors loopView ⟨2⟩
  have hsub := htrans loopBaseView rfl rfl hmid hother
  exact ⟨hmid, hother, hsub, ((hagree hdeep).1 hsub).resolve_left (by decide)⟩

end Hierarchy
end Lineage
