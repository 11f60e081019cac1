/-
# Graphs that agree

A walk from a class asks for the bases and the names of what the class reaches, and for
nothing else.  Where two graphs agree about these (`AgreesFrom`), the class reaches the
same (`reaches_congr`) and has the same linearization (`linearize_congr`), whatever the
graphs are elsewhere.
-/

import Lineage.Proofs.Ancestry.Reachability
import Lineage.Proofs.Ancestry.Walk

namespace Lineage
namespace Hierarchy
namespace BaseGraph

variable {g g' : BaseGraph} {a b c id : ClassId} {way bases : List ClassId} {w : Walk}

/-- The graphs give the same bases and names to all that `a` reaches. -/
def AgreesFrom (g g' : BaseGraph) (a : ClassId) : Prop :=
  ∀ c, g.Reaches a c → g'.bases c = g.bases c ∧ g'.nameOf c = g.nameOf c

/-- Graphs that agree from a class on have the same edges at all that it reaches. -/
theorem AgreesFrom.edge_iff (h : g.AgreesFrom g' a) (hb : g.Reaches a b) :
    g'.Edge b c ↔ g.Edge b c := by
  rw [Edge, Edge, (h b hb).1]

/-- In graphs that agree from a class on, it reaches the same classes. -/
theorem reaches_congr (h : g.AgreesFrom g' a) : g'.Reaches a c ↔ g.Reaches a c := by
  constructor
  · intro hc
    induction hc with
    | refl => exact .refl
    | tail _ edge ih => exact .tail ih ((h.edge_iff ih).1 edge)
  · intro hc
    induction hc with
    | refl => exact .refl
    | tail hb edge ih => exact .tail ih ((h.edge_iff hb).2 edge)

/-- The cycles that are reported go through classes in progress. -/
theorem openBases_congr (hway : ∀ c ∈ way, g'.nameOf c = g.nameOf c) (bases : List ClassId)
    (w : Walk) : g'.openBases way bases w = g.openBases way bases w := by
  induction bases generalizing w with
  | nil => rfl
  | cons b bases ih =>
    unfold openBases
    by_cases hb : way.contains b
    · have hcycle : ∀ c ∈ way.dropWhile (· ≠ b) ++ [b], g'.nameOf c = g.nameOf c := by
        intro c hc
        rcases List.mem_append.1 hc with hc | hc
        · exact hway c ((List.dropWhile_sublist _).mem hc)
        · rw [List.mem_singleton.1 hc]
          exact hway b (List.contains_iff_mem.1 hb)
      rw [if_pos hb, if_pos hb]
      dsimp only
      rw [List.map_congr_left hcycle, ih]
    · rw [if_neg hb, if_neg hb, ih]

/-- The orders of the bases are merged in the same way, if the names in the reports are the same. -/
theorem mergeBases_congr (hid : g'.nameOf id = g.nameOf id)
    (hbases : ∀ c ∈ bases, g'.nameOf c = g.nameOf c) (baseOrders : List (List ClassId)) (w : Walk) :
    g'.mergeBases id bases baseOrders w = g.mergeBases id bases baseOrders w := by
  unfold mergeBases
  rw [hid, List.map_congr_left hbases]

/-- **A visit below a class depends on nothing that the class does not reach.** -/
theorem visit_congr (h : g.AgreesFrom g' a) (limit left : Nat) (hway : ∀ c ∈ way, g.Reaches a c)
    (hid : g.Reaches a id) (w : Walk) :
    g'.visit limit left way id w = g.visit limit left way id w := by
  induction left generalizing way id w with
  | zero =>
    cases hknown : w.known.lookup id with
    | some order => rw [visit_known hknown, visit_known hknown]
    | none => rw [visit_tooDeep hknown, visit_tooDeep hknown, (h id hid).2]
  | succ left ih =>
    cases hknown : w.known.lookup id with
    | some order => rw [visit_known hknown, visit_known hknown]
    | none =>
      have hway' : ∀ c ∈ way ++ [id], g.Reaches a c := by
        intro c hc
        rcases List.mem_append.1 hc with hc | hc
        · exact hway c hc
        · exact List.mem_singleton.1 hc ▸ hid
      have hopen : ∀ b ∈ (g.openBases (way ++ [id]) (g.bases id) w).1, g.Reaches a b :=
        fun b hb => hid.tail (mem_openBases.1 hb).1
      rw [visit_entered hknown, visit_entered hknown]
      dsimp only
      rw [(h id hid).1, openBases_congr fun c hc => (h c (hway' c hc)).2,
        orders_congr fun b hb w' => ih hway' (hopen b hb) w',
        mergeBases_congr (h id hid).2 fun b hb => (h b (hopen b hb)).2]

/-- **The linearization of a class depends on nothing that the class does not reach.** -/
theorem linearize_congr (h : g.AgreesFrom g' a) (maxDepth : Nat) :
    g'.linearize maxDepth a = g.linearize maxDepth a := by
  unfold linearize
  rw [visit_congr h maxDepth maxDepth (fun _ hc => absurd hc List.not_mem_nil) .refl]

end BaseGraph
end Hierarchy
end Lineage
