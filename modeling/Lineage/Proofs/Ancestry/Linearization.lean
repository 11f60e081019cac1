/-
# The ancestors of a class

What the walk from a class comes to.  Its ancestors are the classes nearer than the
longest chain followed, each once, on every graph (`mem_ancestors_iff_distance`): the
dropped bases, the classes cut off and the kept orders lose none, repeat none and bring
none back.  If no cycle and no class too deep is reported, the order is settled
(`settled_linearize`), and every ancestor stands before its own bases, however the
orders were merged (`ancestor_before_superClass`).
-/

import Lineage.Proofs.Ancestry.Exploration
import Lineage.Proofs.Ancestry.Index

namespace Lineage
namespace Hierarchy

namespace BaseGraph

/-- The walk from a class finds what there is to find, and its order is settled if no
report was counted. -/
theorem visit_start (g : BaseGraph) (maxDepth : Nat) (id : ClassId) :
    g.Explored maxDepth id maxDepth [] (g.visit maxDepth maxDepth [] id .start).2.CutShort id
        (g.visit maxDepth maxDepth [] id .start).1 ∧
      ((g.visit maxDepth maxDepth [] id .start).2.unstable = 0 →
        g.Settled maxDepth id id (g.visit maxDepth maxDepth [] id .start).1) :=
  (visit_visits g maxDepth id maxDepth [] id .start (onWay_root g maxDepth id)
    (Walk.keeps_start _)).2

/-- The order that the walk from a class finds is the class and its ancestors. -/
theorem visit_start_fst (g : BaseGraph) (maxDepth : Nat) (id : ClassId) :
    (g.visit maxDepth maxDepth [] id .start).1 = id :: (g.linearize maxDepth id).ancestors := by
  obtain ⟨ancestors, horder⟩ := (visit_start g maxDepth id).1.head
  have hancestors : (g.linearize maxDepth id).ancestors = ancestors := congrArg (·.drop 1) horder
  rw [horder, hancestors]

/-- The order of a class and its ancestors has the ends of all clear paths that are
short enough, and of the longer ones too if no class is reported as too deep. -/
theorem explored_linearize (g : BaseGraph) (maxDepth : Nat) (id : ClassId) :
    g.Explored maxDepth id maxDepth []
      (∃ name limit, .tooDeep name limit ∈ (g.linearize maxDepth id).diagnostics) id
      (id :: (g.linearize maxDepth id).ancestors) := by
  have hexplored := (visit_start g maxDepth id).1
  rwa [visit_start_fst] at hexplored

/-- **Without cycles and classes too deep, the order is settled.** -/
theorem settled_linearize {g : BaseGraph} {maxDepth : Nat} {id : ClassId}
    (hcyclic : ∀ cycle, .cyclic cycle ∉ (g.linearize maxDepth id).diagnostics)
    (hdeep : ∀ name limit, .tooDeep name limit ∉ (g.linearize maxDepth id).diagnostics) :
    g.Settled maxDepth id id (id :: (g.linearize maxDepth id).ancestors) := by
  have hsettled := (visit_start g maxDepth id).2
  rw [visit_start_fst] at hsettled
  refine hsettled (Nat.eq_zero_of_not_pos fun hpos => ?_)
  rcases visit_honest Walk.honest_start hpos with ⟨cycle, hmem⟩ | ⟨name, limit, hmem⟩
  · exact hcyclic cycle hmem
  · exact hdeep name limit hmem

/-- If no class is reported as too deep, the order has all that the class reaches, on
cyclic graphs too. -/
theorem mem_ancestors_of_reaches {g : BaseGraph} {maxDepth : Nat} {id c : ClassId}
    (hdeep : ∀ name limit, .tooDeep name limit ∉ (g.linearize maxDepth id).diagnostics)
    (h : g.Reaches id c) : c ∈ id :: (g.linearize maxDepth id).ancestors := by
  obtain ⟨n, path⟩ := h.exists_clearPath
  rcases (explored_linearize g maxDepth id).complete n c path with hmem | ⟨_, name, limit, hcut⟩
  · exact hmem
  · exact absurd hcut (hdeep name limit)

end BaseGraph

/-- **The ancestors are the classes within reach.**  Whatever the index, the resolver and
the longest chain followed, the walk ends: it enters no more levels than the index has
classes.  The ancestors of a class are then distinct classes other than it, and they are
those whose distance from it is at most the longest chain. -/
theorem mem_ancestors_iff_distance (index : ClassIndex) (resolver : Resolver) (maxDepth : Nat)
    (id : ClassId) :
    let g := index.graph resolver
    let ancestors := (g.linearize maxDepth id).ancestors
    g.visit maxDepth maxDepth [] id .start =
        g.visit maxDepth (min maxDepth (index.size + 1)) [] id .start ∧
      ancestors.Nodup ∧ id ∉ ancestors ∧
      ∀ c, c ∈ ancestors ↔ c ≠ id ∧ ∃ n, g.Distance n id c ∧ 1 ≤ n ∧ n ≤ maxDepth := by
  intro g ancestors
  have hexplored := g.explored_linearize maxDepth id
  obtain ⟨hid, hnodup⟩ := List.nodup_cons.1 hexplored.nodup
  refine ⟨BaseGraph.visit_min_levels index resolver maxDepth id .start, hnodup, hid, fun c => ?_⟩
  constructor
  · intro hc
    have hne : c ≠ id := ne_of_mem_of_not_mem hc hid
    obtain ⟨m, hm, path⟩ := hexplored.near c (List.mem_cons_of_mem id hc)
    obtain ⟨n, hn, hdistance⟩ := path.exists_distance
    exact ⟨hne, n, hdistance, hdistance.pos hne, hn.trans hm⟩
  · rintro ⟨hne, n, hdistance, _, hn⟩
    rcases hexplored.complete n c hdistance.clearPath with hmem | ⟨hlong, _⟩
    · exact List.mem_of_ne_of_mem hne hmem
    · exact absurd hn (Nat.not_le_of_gt hlong)

/-- **Every ancestor stands before its own bases**, and they are ancestors too, if neither
a cycle nor a class too deep is reported.  Orders that contradict each other, at any
level, change nothing about it. -/
theorem ancestor_before_superClass (v : View) (hcyclic : ∀ cycle, .cyclic cycle ∉ v.diagnostics)
    (hdeep : ∀ name limit, .tooDeep name limit ∉ v.diagnostics) :
    ∀ x ∈ v.ancestors, ∀ b ∈ superClasses v.index v.resolver x,
      b ∈ v.ancestors ∧ v.ancestors.idxOf x < v.ancestors.idxOf b := by
  intro x hx b hb
  have hsettled := BaseGraph.settled_linearize hcyclic hdeep
  have hnodup := (List.nodup_cons.1 hsettled.nodup).2
  have hpair := hsettled.followed.2.pair_sublist hx hb
  exact ⟨hpair.mem (List.mem_cons_of_mem x (List.mem_singleton_self b)),
    idxOf_lt_idxOf_of_pair_sublist hnodup hpair⟩

/-- `Z` derives from `X` and `Y`, which have the same bases in opposite orders. -/
def crossedBases : List (String × List String) :=
  [("A", []), ("B", []), ("X", ["A", "B"]), ("Y", ["B", "A"]), ("Z", ["X", "Y"]), ("W", ["Z", "A"])]

/-- The view of `W`: the order of `Z` is a fallback, and that of `W` is merged with it. -/
def crossedView : View := ⟨.ofBases crossedBases, .ofBases crossedBases, .python3, ⟨5⟩, _, rfl⟩

/-- The bases of `Z` contradict each other, and nothing else is wrong. -/
theorem crossedView_diagnostics :
    crossedView.diagnostics = [.inconsistent "m.Z" ["m.X", "m.Y"]] := rfl

/-- The hypotheses of `ancestor_before_superClass` are satisfiable: `X` stands before its
second base in the ancestors of `W`. -/
theorem ancestor_before_superClass_crossed :
    (⟨2⟩ : ClassId) ∈ crossedView.ancestors ∧
      ⟨1⟩ ∈ superClasses crossedView.index crossedView.resolver ⟨2⟩ ∧
      ⟨1⟩ ∈ crossedView.ancestors ∧
      crossedView.ancestors.idxOf ⟨2⟩ < crossedView.ancestors.idxOf ⟨1⟩ := by
  have hx : (⟨2⟩ : ClassId) ∈ crossedView.ancestors := by decide
  have hb : (⟨1⟩ : ClassId) ∈ superClasses crossedView.index crossedView.resolver ⟨2⟩ := by decide
  refine ⟨hx, hb, ancestor_before_superClass crossedView (fun cycle => ?_) (fun name limit => ?_)
    _ hx _ hb⟩
  · simp [crossedView_diagnostics]
  · simp [crossedView_diagnostics]

end Hierarchy
end Lineage
