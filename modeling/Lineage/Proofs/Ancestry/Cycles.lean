/-
# Cycles

A walk sees a cycle when a base is in progress already.  The classes in progress are a
trail: distinct, each a base of the one before it (`Trail`), so what a base closes is a
cycle of the graph (`Trail.exists_cycle`), and no report is made up
(`visit_reports`).

Nothing is missed either, unless a class was too deep.  Orders that were kept hide no
cycle: a walk without such a report has a settled order, and no cycle stands below a
settled class (`cyclic_reported_iff_and_genuine`).
-/

import Lineage.Proofs.Ancestry.Linearization
import Mathlib.Data.List.Chain

namespace Lineage
namespace Hierarchy
namespace BaseGraph

open Relation (TransGen)

variable {g : BaseGraph} {limit left : Nat} {root id a b first : ClassId}
  {way bases others : List ClassId} {baseOrders : List (List ClassId)} {w w' : Walk}

/-- A cycle: distinct classes, each a base of the one before it, and the first one a base
of the last. -/
structure Cycle (g : BaseGraph) (first : ClassId) (others : List ClassId) : Prop where
  chain : List.IsChain g.Edge (first :: others ++ [first])
  nodup : (first :: others).Nodup

/-- Along a chain every later class is reached. -/
theorem transGen_of_isChain {l : List ClassId} (h : List.IsChain g.Edge (a :: l)) (hb : b ∈ l) :
    TransGen g.Edge a b := by
  induction l generalizing a with
  | nil => exact absurd hb List.not_mem_nil
  | cons x l ih =>
    obtain ⟨edge, hrest⟩ := List.isChain_cons_cons.1 h
    rcases List.mem_cons.1 hb with rfl | hb
    · exact .single edge
    · exact .head edge (ih hrest hb)

/-- The first class of a cycle is a base of itself, through the others. -/
theorem Cycle.transGen (h : g.Cycle first others) : TransGen g.Edge first first :=
  transGen_of_isChain h.chain (List.mem_append_right _ (List.mem_singleton_self first))

/-! ### Trails -/

/-- The classes in progress and then `id`: distinct, each a base of the one before it. -/
structure Trail (g : BaseGraph) (limit : Nat) (root : ClassId) (left : Nat) (way : List ClassId)
    (id : ClassId) : Prop extends g.OnWay limit root left way id where
  chain : List.IsChain g.Edge (way ++ [id])
  nodup : (way ++ [id]).Nodup
  reached : ∀ a ∈ way ++ [id], g.Reaches root a

/-- At the root the trail is empty. -/
theorem trail_root (g : BaseGraph) (limit : Nat) (root : ClassId) :
    g.Trail limit root limit [] root where
  toOnWay := onWay_root g limit root
  chain := .singleton root
  nodup := List.nodup_singleton root
  reached a ha := by
    obtain rfl := List.mem_singleton.1 ha
    exact .refl

/-- A trail goes on along an edge. -/
theorem Trail.isChain_snoc (h : g.Trail limit root left way id) (edge : g.Edge id b) :
    List.IsChain g.Edge (way ++ [id] ++ [b]) := by
  refine h.chain.append (.singleton b) fun x hx y hy => ?_
  rw [List.getLast?_concat, Option.mem_some_iff] at hx
  rw [List.head?_singleton, Option.mem_some_iff] at hy
  exact hx ▸ hy ▸ edge

/-- A trail goes on to a base that is not on the way yet. -/
theorem Trail.step (h : g.Trail limit root (left + 1) way id) (edge : g.Edge id b)
    (fresh : b ∉ way ++ [id]) : g.Trail limit root left (way ++ [id]) b where
  toOnWay := h.toOnWay.step edge fresh
  chain := h.isChain_snoc edge
  nodup := List.nodup_append_comm.1 (List.nodup_cons.2 ⟨fresh, h.nodup⟩)
  reached a ha := by
    rcases List.mem_append.1 ha with ha | ha
    · exact h.reached a ha
    · obtain rfl := List.mem_singleton.1 ha
      have hid : id ∈ way ++ [id] := List.mem_append_right way (List.mem_singleton_self id)
      exact (h.reached id hid).tail edge

/-- **A base in progress closes a cycle**, which begins where the base stands. -/
theorem Trail.exists_cycle (h : g.Trail limit root left way id) (edge : g.Edge id b)
    (hb : b ∈ way ++ [id]) :
    ∃ others, (way ++ [id]).dropWhile (· ≠ b) = b :: others ∧ g.Cycle b others ∧
      ∀ c ∈ b :: others, g.Reaches root c := by
  obtain ⟨before, others, hsplit, hbefore⟩ := List.eq_append_cons_of_mem hb
  have hpassed : ∀ c ∈ before, decide (c ≠ b) = true := fun c hc =>
    decide_eq_true (ne_of_mem_of_not_mem hc hbefore)
  have hchain := h.isChain_snoc edge
  have hnodup := h.nodup
  have hreached := h.reached
  rw [hsplit] at hchain hnodup hreached ⊢
  rw [List.append_assoc] at hchain
  refine ⟨others, ?_, ⟨hchain.right_of_append, hnodup.of_append_right⟩, fun c hc => ?_⟩
  · rw [List.dropWhile_append_of_pos hpassed, List.dropWhile_cons_of_neg]
    simp
  · exact hreached c (List.mem_append_right before hc)

/-! ### Reports on a trail -/

/-- `G` holds of every report that a walk from `root` can make: of the cycle that a base in
progress closes, of the class at the end of a trail that is as long as the limit allows, and of
every conflict of orders. -/
structure HoldsOfReports (g : BaseGraph) (limit : Nat) (root : ClassId) (G : Diagnostic → Prop) :
    Prop where
  cyclic : ∀ {left way id b}, g.Trail limit root left way id → g.Edge id b → b ∈ way ++ [id] →
    G (.cyclic (((way ++ [id]).dropWhile (· ≠ b) ++ [b]).map g.nameOf))
  tooDeep : ∀ {way id}, g.Trail limit root 0 way id → (way ++ [id]).head? = some root →
    G (.tooDeep (g.nameOf id) limit)
  inconsistent : ∀ name bases, G (.inconsistent name bases)

/-- What a visit does on a trail from `root`: it makes reports of which `G` holds. -/
def VisitReports (g : BaseGraph) (limit : Nat) (root : ClassId) (G : Diagnostic → Prop) (left : Nat)
    (way : List ClassId) (id : ClassId) (w : Walk) (_ : List ClassId) (w' : Walk) : Prop :=
  g.Trail limit root left way id → (way ++ [id]).head? = some root →
    (∀ d ∈ w.diagnostics, G d) → ∀ d ∈ w'.diagnostics, G d

/-- A way keeps its start as it grows. -/
theorem head?_snoc (h : (way ++ [id]).head? = some root) :
    (way ++ [id] ++ [b]).head? = some root := by
  rw [List.head?_append, h, Option.some_or]

variable {G : Diagnostic → Prop} {d : Diagnostic}

/-- Taking up the bases of a class reports only what holds of reports. -/
theorem HoldsOfReports.openBases (hG : g.HoldsOfReports limit root G)
    (htrail : g.Trail limit root left way id) (h : ∀ d ∈ w.diagnostics, G d) :
    ∀ d ∈ (g.openBases (way ++ [id]) (g.bases id) w).2.diagnostics, G d := by
  intro d hd
  rcases mem_openBases_diagnostics.1 hd with hd | ⟨b, hb, hway, rfl⟩
  · exact h d hd
  · exact hG.cyclic htrail hb hway

/-- Merging the orders of the bases reports only what holds of reports. -/
theorem HoldsOfReports.mergeBases (hG : g.HoldsOfReports limit root G)
    (h : ∀ d ∈ w.diagnostics, G d) :
    ∀ d ∈ (g.mergeBases id bases baseOrders w).2.diagnostics, G d := by
  unfold BaseGraph.mergeBases
  split
  · exact h
  · intro d hd
    rcases Walk.mem_report.1 hd with hd | rfl
    · exact h d hd
    · exact hG.inconsistent _ _

/-- **Every report is made on a trail.** -/
theorem visit_reports (hG : g.HoldsOfReports limit root G) (left : Nat) (way : List ClassId)
    (id : ClassId) (w : Walk) :
    g.VisitReports limit root G left way id w (g.visit limit left way id w).1
      (g.visit limit left way id w).2 := by
  refine visit_induction ?known ?tooDeep ?entered left way id w
  case known =>
    intro _ _ _ _ _ _ _ _ hw
    exact hw
  case tooDeep =>
    intro way id w htrail hhead hw d hd
    rcases Walk.mem_reportUnstable.1 hd with hd | rfl
    · exact hw d hd
    · exact hG.tooDeep htrail hhead
  case entered =>
    intro left way id w bases w₁ baseOrders w₂ merged w₃ hbases hw₁ heach _ hw₃ htrail hhead hw
    have hopened : ∀ d ∈ w₁.diagnostics, G d := hw₁ ▸ hG.openBases htrail hw
    have hvisited : ∀ d ∈ w₂.diagnostics, G d := by
      refine heach.keeps (I := fun w => ∀ d ∈ w.diagnostics, G d)
        (fun b hb _ _ _ hvisit => hvisit ?_ (head?_snoc hhead)) hopened
      obtain ⟨edge, fresh⟩ := mem_openBases.1 (hbases ▸ hb)
      exact htrail.step edge fresh
    have hmerged : ∀ d ∈ w₃.diagnostics, G d := hw₃ ▸ hG.mergeBases hvisited
    rwa [settle_diagnostics]

/-- What holds of reports holds of every report of a linearization. -/
theorem HoldsOfReports.linearize {maxDepth : Nat} (hG : g.HoldsOfReports maxDepth id G)
    (hd : d ∈ (g.linearize maxDepth id).diagnostics) : G d :=
  visit_reports hG maxDepth [] id .start (trail_root g maxDepth id) rfl
    (fun _ hnone => absurd hnone List.not_mem_nil) d hd

/-! ### The cycles of a linearization -/

/-- The names are those of the classes along a cycle that `root` reaches, the first one
again at the end. -/
def NamesCycle (g : BaseGraph) (root : ClassId) (names : List String) : Prop :=
  ∃ first others, g.Cycle first others ∧ (∀ c ∈ first :: others, g.Reaches root c) ∧
    names = (first :: others ++ [first]).map g.nameOf

/-- What a base in progress closes is a cycle, and its classes are the ones named. -/
theorem holdsOfReports_namesCycle (g : BaseGraph) (limit : Nat) (root : ClassId) :
    g.HoldsOfReports limit root fun d => ∀ names, d = .cyclic names → g.NamesCycle root names where
  cyclic htrail hedge hway names heq := by
    obtain ⟨others, hfrom, hcycle, hreached⟩ := htrail.exists_cycle hedge hway
    refine ⟨_, others, hcycle, hreached, ?_⟩
    rw [← Diagnostic.cyclic.inj heq, hfrom]
  tooDeep _ _ _ heq := nomatch heq
  inconsistent _ _ _ heq := nomatch heq

/-- Every cycle that a linearization reports is one. -/
theorem namesCycle_of_mem_linearize {maxDepth : Nat} {names : List String}
    (h : .cyclic names ∈ (g.linearize maxDepth id).diagnostics) : g.NamesCycle id names :=
  (holdsOfReports_namesCycle g maxDepth id).linearize h names rfl

/-- **A cycle below the class is reported**, if no class is reported as too deep. -/
theorem exists_cyclic_of_reaches {maxDepth : Nat}
    (hdeep : ∀ name limit, .tooDeep name limit ∉ (g.linearize maxDepth id).diagnostics)
    (hb : g.Reaches id b) (hcycle : TransGen g.Edge b b) :
    ∃ names, .cyclic names ∈ (g.linearize maxDepth id).diagnostics := by
  by_contra hnone
  have hcyclic : ∀ names, .cyclic names ∉ (g.linearize maxDepth id).diagnostics :=
    fun names hnames => hnone ⟨names, hnames⟩
  exact (settled_linearize hcyclic hdeep).acyclic b hb hcycle

end BaseGraph

open BaseGraph (Cycle)
open Relation (TransGen)

/-- **Cycles are reported, and nothing else is.**  If no class is reported as too deep, a
cyclic diagnostic stands among the others just when the class reaches a cycle.  In any
case each of them names a cycle that the class reaches: distinct classes, each a base of
the one before it, and the first one of the last.  So a class that reaches a cycle has no
checked ancestors, and one that reaches none is not refused for a cycle. -/
theorem cyclic_reported_iff_and_genuine (index : ClassIndex) (resolver : Resolver)
    (context : Context) (id : ClassId) :
    let g := index.graph resolver
    let diagnostics := (g.linearize context.maxDepth id).diagnostics
    let complete := ∀ name limit, .tooDeep name limit ∉ diagnostics
    let cyclicBelow := ∃ c, g.Reaches id c ∧ TransGen g.Edge c c
    (complete → ((∃ names, .cyclic names ∈ diagnostics) ↔ cyclicBelow)) ∧
      (∀ names, .cyclic names ∈ diagnostics →
        ∃ first others, g.Cycle first others ∧ (∀ c ∈ first :: others, g.Reaches id c) ∧
          names = (first :: others ++ [first]).map g.nameOf) ∧
      ∀ v, index.view? resolver context id = some v →
        (complete → cyclicBelow → ∀ l, v.checkedAncestors ≠ .ok l) ∧
          (¬ cyclicBelow → ∀ names, .cyclic names ∉ v.diagnostics ∧
            v.checkedAncestors ≠ .error (.cyclic names)) := by
  intro g diagnostics complete cyclicBelow
  have hgenuine : ∀ names, .cyclic names ∈ diagnostics → g.NamesCycle id names :=
    fun _ => BaseGraph.namesCycle_of_mem_linearize
  have hbelow : ∀ names, .cyclic names ∈ diagnostics → cyclicBelow := fun names hnames => by
    obtain ⟨first, _, hcycle, hreached, _⟩ := hgenuine names hnames
    exact ⟨first, hreached first List.mem_cons_self, hcycle.transGen⟩
  have hreported : complete → cyclicBelow → ∃ names, .cyclic names ∈ diagnostics :=
    fun hdeep ⟨_, hc, hcycle⟩ => BaseGraph.exists_cyclic_of_reaches hdeep hc hcycle
  refine ⟨fun hdeep => ⟨fun ⟨names, hnames⟩ => hbelow names hnames, hreported hdeep⟩, hgenuine,
    fun v hv => ?_⟩
  have hdiagnostics : v.diagnostics = diagnostics := by
    obtain ⟨hindex, hresolver, hcontext, hid⟩ := view?_eq_some hv
    rw [View.diagnostics, View.linearization, View.graph, hindex, hresolver, hcontext, hid]
  constructor
  · intro hdeep hcyclic l hl
    obtain ⟨names, hnames⟩ := hreported hdeep hcyclic
    rw [← hdiagnostics, (checkedAncestors_eq_ok hl).1] at hnames
    exact List.not_mem_nil hnames
  · intro hacyclic names
    have hnone : .cyclic names ∉ v.diagnostics := fun hnames =>
      hacyclic (hbelow names (hdiagnostics ▸ hnames))
    refine ⟨hnone, fun herror => hnone ?_⟩
    exact List.mem_of_mem_head? (checkedAncestors_eq_error_iff.1 herror)

/-- `A` and `B` are bases of each other, and `D` is one of its own bases, which share `C`. -/
def knotBases : List (String × List String) :=
  [("A", ["B"]), ("B", ["C", "A"]), ("C", []), ("D", ["A", "C", "D"])]

/-- The view of `D`: the order of `C` was kept on the way through `B`. -/
def knotView : View := ⟨.ofBases knotBases, .ofBases knotBases, .python3, ⟨3⟩, _, rfl⟩

/-- The knot is reported with both of its cycles. -/
theorem knotView_diagnostics :
    knotView.diagnostics = [.cyclic ["m.D", "m.D"], .cyclic ["m.A", "m.B", "m.A"]] := rfl

/-- The hypotheses of `cyclic_reported_iff_and_genuine` are satisfiable: `D` reaches a
cycle, the second report names one, and `D` has no checked ancestors; the classes with
crossed bases reach none and are refused for something else. -/
theorem cyclic_reported_iff_and_genuine_knot :
    (∃ c, knotView.graph.Reaches ⟨3⟩ c ∧ TransGen knotView.graph.Edge c c) ∧
      knotView.graph.NamesCycle ⟨3⟩ ["m.A", "m.B", "m.A"] ∧
      (∀ l, knotView.checkedAncestors ≠ .ok l) ∧
      (∀ names, crossedView.checkedAncestors ≠ .error (.cyclic names)) := by
  have hdeep : ∀ name limit, .tooDeep name limit ∉ knotView.diagnostics := fun name limit => by
    simp [knotView_diagnostics]
  obtain ⟨hiff, hgenuine, hviews⟩ := cyclic_reported_iff_and_genuine (.ofBases knotBases)
    (.ofBases knotBases) .python3 ⟨3⟩
  have hmem : .cyclic ["m.A", "m.B", "m.A"] ∈ knotView.diagnostics := by
    simp [knotView_diagnostics]
  have hbelow := (hiff hdeep).1 ⟨_, hmem⟩
  obtain ⟨hiff', _, hviews'⟩ := cyclic_reported_iff_and_genuine (.ofBases crossedBases)
    (.ofBases crossedBases) .python3 ⟨5⟩
  have hdeep' : ∀ name limit, .tooDeep name limit ∉ crossedView.diagnostics :=
    fun name limit => by simp [crossedView_diagnostics]
  have hacyclic := mt (hiff' hdeep').2 fun ⟨names, hnames⟩ => by
    have hnames : .cyclic names ∈ crossedView.diagnostics := hnames
    simp [crossedView_diagnostics] at hnames
  exact ⟨hbelow, hgenuine _ hmem, (hviews knotView rfl).1 hdeep hbelow,
    fun names => ((hviews' crossedView rfl).2 hacyclic names).2⟩

end Hierarchy
end Lineage
