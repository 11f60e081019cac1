/-
# Reachability of classes

The bases of classes are the edges of a graph.  A class reaches its bases, their
bases, and so on (`Reaches`); its distance to one of them is the number of edges of
a shortest path (`Distance`).

A walk through the bases drops those that are in progress, so it only follows paths
that pass no class twice (`ClearPath`).  Nothing is out of its way for that: a
shortest path is such a path (`Distance.clearPath`).
-/

import Lineage.Hierarchy.Linearization
import Mathlib.Data.Nat.Find
import Mathlib.Logic.Relation

namespace Lineage
namespace Hierarchy
namespace BaseGraph

open Relation (ReflTransGen TransGen)

variable {g : BaseGraph} {a b c : ClassId} {n : Nat} {way : List ClassId}

/-- `b` is a direct base of `a`. -/
def Edge (g : BaseGraph) (a b : ClassId) : Prop := b ∈ g.bases a

/-- `b` is `a` or, through any number of classes, a base of it. -/
def Reaches (g : BaseGraph) : ClassId → ClassId → Prop := ReflTransGen g.Edge

/-- No class that `a` reaches is, through any number of classes, a base of itself. -/
def AcyclicBelow (g : BaseGraph) (a : ClassId) : Prop :=
  ∀ b, g.Reaches a b → ¬ TransGen g.Edge b b

/-- A path of `n` edges. -/
inductive Path (g : BaseGraph) : Nat → ClassId → ClassId → Prop where
  | here {a : ClassId} : Path g 0 a a
  | step {n : Nat} {a b c : ClassId} (edge : g.Edge a b) (rest : Path g n b c) :
      Path g (n + 1) a c

/-- The shortest paths from `a` to `b` have `n` edges. -/
def Distance (g : BaseGraph) (n : Nat) (a b : ClassId) : Prop :=
  g.Path n a b ∧ ∀ m, g.Path m a b → n ≤ m

/-- A path of `n` edges that passes no class of `way` and no class twice.  The classes
passed so far are put on the way one by one. -/
inductive ClearPath (g : BaseGraph) : List ClassId → Nat → ClassId → ClassId → Prop where
  | here {way : List ClassId} {a : ClassId} (fresh : a ∉ way) : ClearPath g way 0 a a
  | step {way : List ClassId} {n : Nat} {a b c : ClassId} (fresh : a ∉ way) (edge : g.Edge a b)
      (rest : ClearPath g (way ++ [a]) n b c) : ClearPath g way (n + 1) a c

/-- A path with one more edge at its end. -/
theorem Path.snoc (h : g.Path n a b) (edge : g.Edge b c) : g.Path (n + 1) a c := by
  induction h with
  | here => exact .step edge .here
  | step first _ ih => exact .step first (ih edge)

/-- What is reached is reached along a path. -/
theorem Reaches.exists_path (h : g.Reaches a b) : ∃ n, g.Path n a b := by
  induction h with
  | refl => exact ⟨0, .here⟩
  | tail _ edge ih =>
    obtain ⟨n, path⟩ := ih
    exact ⟨n + 1, path.snoc edge⟩

/-- Where there is a path, there is a distance, and the path is no shorter. -/
theorem Path.exists_distance (h : g.Path n a b) : ∃ m ≤ n, g.Distance m a b := by
  classical
  have hex : ∃ m, g.Path m a b := ⟨n, h⟩
  exact ⟨Nat.find hex, Nat.find_min' hex h, Nat.find_spec hex, fun _ => Nat.find_min' hex⟩

/-- A clear path does not start on the way. -/
theorem ClearPath.not_mem (h : g.ClearPath way n a b) : a ∉ way := by
  cases h with
  | here fresh => exact fresh
  | step fresh _ _ => exact fresh

/-- What a clear path leads to is reached. -/
theorem ClearPath.reaches (h : g.ClearPath way n a b) : g.Reaches a b := by
  induction h with
  | here _ => exact .refl
  | step _ edge _ ih => exact .head edge ih

/-- **A shortest path is clear.**  No class on the way is as near to its end, so none
can be passed; and each class that is passed is farther away than what follows. -/
theorem Path.clearPath (h : g.Path n a c) (hmin : ∀ m, g.Path m a c → n ≤ m)
    (hway : ∀ x ∈ way, ∀ m, g.Path m x c → n < m) : g.ClearPath way n a c := by
  induction h generalizing way with
  | here => exact .here fun hmem => absurd (hway _ hmem 0 .here) (Nat.lt_irrefl 0)
  | @step n a b c edge rest ih =>
    have fresh : a ∉ way := fun hmem => absurd (hway a hmem _ (.step edge rest)) (Nat.lt_irrefl _)
    refine .step fresh edge (ih (fun m path => ?_) fun x hx m path => ?_)
    · have := hmin _ (.step edge path)
      omega
    · rcases List.mem_append.1 hx with hx | hx
      · have := hway x hx m path
        omega
      · obtain rfl := List.mem_singleton.1 hx
        have := hmin m path
        omega

/-- A shortest path is clear, with nothing on the way. -/
theorem Distance.clearPath (h : g.Distance n a c) : g.ClearPath [] n a c :=
  h.1.clearPath h.2 fun _ hx => absurd hx List.not_mem_nil

/-- What a class reaches is at the end of a clear path. -/
theorem Reaches.exists_clearPath (h : g.Reaches a b) : ∃ n, g.ClearPath [] n a b := by
  obtain ⟨_, path⟩ := h.exists_path
  obtain ⟨n, _, hn⟩ := path.exists_distance
  exact ⟨n, hn.clearPath⟩

/-- The distance of a class to another one is not zero. -/
theorem Distance.pos (h : g.Distance n a b) (hne : b ≠ a) : 0 < n := by
  rcases Nat.eq_zero_or_pos n with rfl | hpos
  · cases h.1
    exact absurd rfl hne
  · exact hpos

/-! ### Cycles -/

/-- Below a class that reaches no cycle stand no classes that reach it. -/
theorem AcyclicBelow.not_reaches (h : g.AcyclicBelow a) (hb : TransGen g.Edge b a) :
    ¬ g.Reaches a b :=
  fun hab => h a .refl (TransGen.trans_right hab hb)

/-- What a class reaches is the class and what its bases reach. -/
theorem reaches_iff : g.Reaches a c ↔ c = a ∨ ∃ b ∈ g.bases a, g.Reaches b c := by
  unfold Reaches
  rw [ReflTransGen.cases_head_iff, eq_comm]
  rfl

/-- If no cycle stands below the bases and none of them reaches the class, no cycle
stands below the class. -/
theorem acyclicBelow_of_bases (hbases : ∀ b ∈ g.bases a, g.AcyclicBelow b ∧ ¬ g.Reaches b a) :
    g.AcyclicBelow a := by
  intro c hc hcycle
  rcases reaches_iff.1 hc with rfl | ⟨b, hb, hbc⟩
  · obtain ⟨b, hb, hba⟩ := TransGen.head'_iff.1 hcycle
    exact (hbases b hb).2 hba
  · exact (hbases b hb).1 c hbc hcycle

end BaseGraph
end Hierarchy
end Lineage
