/-
# Kept orders

The same walk with nothing kept (`plainVisit`) visits a class again wherever it meets it.
It finds the same orders and makes the same reports in the same order, as long as no
chain of bases can be too long.

A kept order is one that was found without a counted report.  Visited again, on any
trail, its class has all its bases open, for no cycle stands below it; each of them is
visited again with the same result; and what the merges report has been reported
(`Repeats`, `repeats_entered`).  So where the walk takes a kept order, a plain visit
finds that order and changes nothing, and the two walks go on side by side
(`visit_mirrors`).
-/

import Lineage.Proofs.Ancestry.Cycles

namespace Lineage
namespace Hierarchy

namespace Walk

variable {w : Walk} {d : Diagnostic}

/-- The walk without its kept orders. -/
def forget (w : Walk) : Walk := { w with known := [] }

/-- A report that has been made is not made again. -/
theorem report_of_mem (h : d ∈ w.diagnostics) : w.report d = w :=
  if_pos (List.contains_iff_mem.2 h)

/-- Reporting does not look at the kept orders. -/
theorem forget_report (w : Walk) (d : Diagnostic) : (w.report d).forget = w.forget.report d := by
  unfold report forget
  dsimp only
  split <;> rfl

/-- Nor does counting a report. -/
theorem forget_reportUnstable (w : Walk) (d : Diagnostic) :
    (w.reportUnstable d).forget = w.forget.reportUnstable d := by
  unfold reportUnstable
  rw [← forget_report]
  rfl

end Walk

namespace BaseGraph

variable {g : BaseGraph} {limit left : Nat} {root id b : ClassId} {way bases : List ClassId}
  {order merged : List ClassId} {baseOrders : List (List ClassId)} {w w' w'' : Walk}

/-! ### The walk with nothing kept -/

/-- The order of a class as `visit` finds it, with nothing kept for the next time. -/
def plainVisit (g : BaseGraph) (limit : Nat) : (left : Nat) → (way : List ClassId) → ClassId →
    Walk → List ClassId × Walk
  | 0, _, id, w => ([id], w.reportUnstable (.tooDeep (g.nameOf id) limit))
  | n + 1, way, id, w =>
    let way := way ++ [id]
    let (bases, w₁) := g.openBases way (g.bases id) w
    let (baseOrders, w₂) := orders (plainVisit g limit n way) bases w₁
    let (merged, w₃) := g.mergeBases id bases baseOrders w₂
    (id :: merged, w₃)

/-- The ancestors of a class in resolution order, found with nothing kept. -/
def plainLinearize (g : BaseGraph) (maxDepth : Nat) (id : ClassId) : Linearization :=
  let (order, w) := g.plainVisit maxDepth maxDepth [] id .start
  ⟨order.drop 1, w.diagnostics⟩

/-- A plain visit that enters a class opens its bases, visits them and merges their orders. -/
theorem plainVisit_succ (g : BaseGraph) (limit left : Nat) (way : List ClassId) (id : ClassId)
    (w : Walk) :
    g.plainVisit limit (left + 1) way id w =
      let opened := g.openBases (way ++ [id]) (g.bases id) w
      let visited := orders (g.plainVisit limit left (way ++ [id])) opened.1 opened.2
      let merged := g.mergeBases id opened.1 visited.1 visited.2
      (id :: merged.1, merged.2) :=
  rfl

/-! ### The parts of a visit, with nothing kept -/

/-- Opening the bases does not look at the kept orders. -/
theorem openBases_forget (way bases : List ClassId) (w : Walk) :
    g.openBases way bases w.forget =
      ((g.openBases way bases w).1, (g.openBases way bases w).2.forget) := by
  induction bases generalizing w with
  | nil => rfl
  | cons b bases ih =>
    unfold openBases
    split
    · dsimp only
      rw [← Walk.forget_reportUnstable]
      exact ih _
    · rw [ih]

/-- Nor does merging their orders. -/
theorem mergeBases_forget (id : ClassId) (bases : List ClassId) (baseOrders : List (List ClassId))
    (w : Walk) :
    g.mergeBases id bases baseOrders w.forget =
      ((g.mergeBases id bases baseOrders w).1, (g.mergeBases id bases baseOrders w).2.forget) := by
  unfold mergeBases
  split
  · rfl
  · rw [← Walk.forget_report]

/-- A visit that entered a class changes nothing but the kept orders at its end. -/
theorem settle_forget (w w' : Walk) (id : ClassId) (order : List ClassId) :
    (settle w w' id order).forget = w'.forget := by
  unfold settle
  split <;> rfl

/-- Bases none of which is in progress all stay, and nothing is reported. -/
theorem openBases_of_not_mem (h : ∀ b ∈ bases, b ∉ way) : g.openBases way bases w = (bases, w) := by
  induction bases with
  | nil => rfl
  | cons b bases ih =>
    have hb : ¬ way.contains b := mt List.contains_iff_mem.1 (h b List.mem_cons_self)
    unfold openBases
    rw [if_neg hb, ih fun c hc => h c (List.mem_cons_of_mem b hc)]

/-- Visits that change nothing change nothing one after another. -/
theorem orders_of_forall₂ {visit : ClassId → Walk → List ClassId × Walk}
    (h : List.Forall₂ (fun b o => visit b w = (o, w)) bases baseOrders) :
    orders visit bases w = (baseOrders, w) := by
  induction h with
  | nil => rfl
  | cons hb _ ih => rw [orders_cons, hb, ih]

/-- A merge whose report has been made finds the same order and reports nothing. -/
theorem mergeBases_of_reported
    (h : ∀ d ∈ (g.mergeBases id bases baseOrders w).2.diagnostics, d ∈ w'.diagnostics) :
    g.mergeBases id bases baseOrders w' = ((g.mergeBases id bases baseOrders w).1, w') := by
  unfold mergeBases at h ⊢
  split
  · rfl
  · rename_i hnone
    rw [hnone] at h
    rw [Walk.report_of_mem (h _ (Walk.mem_report.2 (.inr rfl)))]

/-! ### Visiting a class again -/

/-- Once what `w` has reported is reported, a plain visit of `id` finds `order` on any
trail, and reports nothing. -/
def Repeats (g : BaseGraph) (limit : Nat) (root : ClassId) (w : Walk) (id : ClassId)
    (order : List ClassId) : Prop :=
  ∀ left way u, g.Trail limit root left way id → (∀ d ∈ w.diagnostics, d ∈ u.diagnostics) →
    g.plainVisit limit left way id u = (order, u)

/-- A class that repeats does so as well once more has been reported. -/
theorem Repeats.of_extends (h : g.Repeats limit root w id order) (hw : w.Extends w') :
    g.Repeats limit root w' id order :=
  fun left way u htrail hu => h left way u htrail fun d hd => hu d (hw.diagnostics d hd)

/-- What `root` reaches is no more than `limit` classes. -/
def FitsIn (g : BaseGraph) (limit : Nat) (root : ClassId) : Prop :=
  ∃ classes, g.ClosedUnder classes ∧ root ∈ classes ∧ classes.length ≤ limit

/-- Where all fits in, a trail has a level left. -/
theorem Trail.exists_level (h : g.Trail limit root left way id) (hfits : g.FitsIn limit root) :
    ∃ n, left = n + 1 := by
  obtain ⟨classes, hclosed, hroot, hlimit⟩ := hfits
  have hsubset : way ++ [id] ⊆ classes := fun c hc => hclosed.mem_of_reaches hroot (h.reached c hc)
  have hlength := (List.subperm_of_subset h.nodup hsubset).length_le
  have hlevels := h.levels
  rw [List.length_append, List.length_singleton] at hlength
  exact Nat.exists_eq_add_of_le' (by omega)

/-- The bases of a class that reaches no cycle are not in progress on any trail to it. -/
theorem Trail.bases_not_mem (h : g.Trail limit root left way id) (hacyclic : g.AcyclicBelow id) :
    ∀ b ∈ g.bases id, b ∉ way ++ [id] := by
  intro b hb hmem
  have edge : g.Edge id b := hb
  rcases List.mem_append.1 hmem with hmem | hmem
  · exact hacyclic.not_reaches (h.above b hmem) (.single edge)
  · obtain rfl := List.mem_singleton.1 hmem
    exact hacyclic b .refl (.single edge)

/-- **A class without a cycle below it repeats if its bases do.** -/
theorem repeats_entered (hfits : g.FitsIn limit root) (hacyclic : g.AcyclicBelow id)
    (hbases : List.Forall₂ (g.Repeats limit root w) (g.bases id) baseOrders) :
    g.Repeats limit root (g.mergeBases id (g.bases id) baseOrders w).2 id
      (id :: (g.mergeBases id (g.bases id) baseOrders w).1) := by
  intro left way u htrail hu
  obtain ⟨n, rfl⟩ := htrail.exists_level hfits
  have hfresh := htrail.bases_not_mem hacyclic
  have hgrows : w.Extends (g.mergeBases id (g.bases id) baseOrders w).2 :=
    mergeBases_invariant (Walk.invariant_extends w) (.refl w)
  have hvisits : List.Forall₂ (fun b o => g.plainVisit limit n (way ++ [id]) b u = (o, u))
      (g.bases id) baseOrders := by
    have hbases' := (List.forall₂_and_left _ _).2 ⟨fun b (hb : b ∈ g.bases id) => hb, hbases⟩
    refine hbases'.imp fun b o ⟨hb, hrepeats⟩ => ?_
    exact hrepeats n _ u (htrail.step hb (hfresh b hb)) fun d hd => hu d (hgrows.diagnostics d hd)
  rw [plainVisit_succ, openBases_of_not_mem hfresh]
  dsimp only
  rw [orders_of_forall₂ hvisits, mergeBases_of_reported hu]

/-! ### The two walks side by side -/

/-- What a visit on a trail and a plain visit have in common, the kept orders being those
of classes that repeat: the order, the reports, and that the kept orders stay so; and the
class repeats if the visit counted no report. -/
def Mirrors (g : BaseGraph) (limit : Nat) (root : ClassId) (left : Nat) (way : List ClassId)
    (id : ClassId) (w : Walk) (order : List ClassId) (w' : Walk) : Prop :=
  g.Trail limit root left way id → w.Keeps (g.Settled limit root) →
    w.Keeps (g.Repeats limit root w) →
      g.plainVisit limit left way id w.forget = (order, w'.forget) ∧
        w'.Keeps (g.Repeats limit root w') ∧
        (w'.unstable = w.unstable → g.Repeats limit root w' id order)

/-- Classes with a kept order repeat in a longer walk as well, if no order is added. -/
theorem keeps_repeats_of_extends (h : w.Keeps (g.Repeats limit root w)) (hw : w.Extends w')
    (hknown : w'.known = w.known) : w'.Keeps (g.Repeats limit root w') := by
  intro id order hmem
  rw [hknown] at hmem
  exact (h id order hmem).of_extends hw

/-- The visits of the bases of a class, taken together. -/
theorem Each.mirrors
    (h : Each (fun b w order w' => g.Visits limit root left way b w order w' ∧
      g.Mirrors limit root left way b w order w') bases w baseOrders w')
    (htrail : ∀ b ∈ bases, g.Trail limit root left way b)
    (hsettled : w.Keeps (g.Settled limit root)) (hrepeats : w.Keeps (g.Repeats limit root w)) :
    orders (g.plainVisit limit left way) bases w.forget = (baseOrders, w'.forget) ∧
      w'.Keeps (g.Repeats limit root w') ∧
      (w'.unstable = w.unstable → List.Forall₂ (g.Repeats limit root w') bases baseOrders) := by
  induction h with
  | nil => exact ⟨rfl, hrepeats, fun _ => .nil⟩
  | @cons b bases w w' w'' order baseOrders first grows others ih =>
    have hb := htrail b List.mem_cons_self
    obtain ⟨hsettled', _⟩ := first.1 hb.toOnWay hsettled
    obtain ⟨hplain, hrepeats', hfirst⟩ := first.2 hb hsettled hrepeats
    obtain ⟨hplains, hrepeats'', hothers⟩ :=
      ih (fun c hc => htrail c (List.mem_cons_of_mem b hc)) hsettled' hrepeats'
    refine ⟨?_, hrepeats'', fun hstable => ?_⟩
    · rw [orders_cons, hplain, hplains]
    · -- The count never falls, so neither the first visit nor the others raised it.
      have h₁ := grows.unstable
      have h₂ := others.extends.unstable
      exact .cons ((hfirst (by omega)).of_extends others.extends) (hothers (by omega))

/-- A class whose order is kept repeats, so a plain visit finds the same order. -/
theorem mirrors_known (hlookup : w.known.lookup id = some order) :
    g.Mirrors limit root left way id w order w := by
  intro htrail _ hrepeats
  have hagain := hrepeats.of_lookup hlookup
  exact ⟨hagain left way w.forget htrail fun _ hd => hd, hrepeats, fun _ => hagain⟩

/-- A class that is too deep is reported in the same way by both visits. -/
theorem mirrors_tooDeep :
    g.Mirrors limit root 0 way id w [id] (w.reportUnstable (.tooDeep (g.nameOf id) limit)) := by
  intro _ _ hrepeats
  refine ⟨?_, ?_, fun hstable => ?_⟩
  · rw [Walk.forget_reportUnstable]
    rfl
  · exact keeps_repeats_of_extends hrepeats ((Walk.invariant_extends w).tooDeep w _ limit (.refl w))
      (Walk.reportUnstable_known ..)
  · rw [Walk.reportUnstable_unstable] at hstable
    omega

/-- A visit that enters a class mirrors a plain one, if the visits of its bases do. -/
theorem mirrors_entered {w₁ w₂ w₃ : Walk} (hfits : g.FitsIn limit root)
    (hbases : bases = (g.openBases (way ++ [id]) (g.bases id) w).1)
    (hw₁ : w₁ = (g.openBases (way ++ [id]) (g.bases id) w).2)
    (heach : Each (fun b w order w' => g.Visits limit root left (way ++ [id]) b w order w' ∧
      g.Mirrors limit root left (way ++ [id]) b w order w') bases w₁ baseOrders w₂)
    (hmerged : merged = (g.mergeBases id bases baseOrders w₂).1)
    (hw₃ : w₃ = (g.mergeBases id bases baseOrders w₂).2)
    (hvisits : g.Visits limit root (left + 1) way id w (id :: merged)
      (settle w w₃ id (id :: merged))) :
    g.Mirrors limit root (left + 1) way id w (id :: merged) (settle w w₃ id (id :: merged)) := by
  intro htrail hsettled hrepeats
  have hgrows₁ : w.Extends w₁ :=
    hw₁ ▸ openBases_invariant (Walk.invariant_extends w) _ _ (.refl w)
  have hgrows₃ : w₂.Extends w₃ :=
    hw₃ ▸ mergeBases_invariant (Walk.invariant_extends w₂) (.refl w₂)
  have hknown₁ : w₁.known = w.known := hw₁ ▸ openBases_known ..
  obtain ⟨hplains, hrepeats₂, hbasesRepeat⟩ := heach.mirrors
    (fun b hb => by
      obtain ⟨edge, fresh⟩ := mem_openBases.1 (hbases ▸ hb)
      exact htrail.step edge fresh)
    (hsettled.of_known_eq hknown₁) (keeps_repeats_of_extends hrepeats hgrows₁ hknown₁)
  have hrepeats₃ : w₃.Keeps (g.Repeats limit root w₃) :=
    keeps_repeats_of_extends hrepeats₂ hgrows₃ (hw₃ ▸ mergeBases_known ..)
  have hgrows : w₃.Extends (settle w w₃ id (id :: merged)) :=
    settle_invariant (Walk.invariant_extends w₃) (.refl w₃)
  -- An order that counted no report had all bases open, and each of them repeats.
  have hstable : w₃.unstable = w.unstable → g.Repeats limit root w₃ id (id :: merged) := by
    intro heq
    have h₁ := hgrows₁.unstable
    have h₂ := heach.extends.unstable
    have h₃ := hgrows₃.unstable
    obtain rfl : bases = g.bases id := hbases.trans (openBases_fst_of_unstable (hw₁ ▸ by omega))
    have hacyclic := ((hvisits htrail.toOnWay hsettled).2.2 (by rwa [settle_unstable])).acyclic
    rw [hmerged, hw₃]
    exact repeats_entered hfits hacyclic (hbasesRepeat (by omega))
  refine ⟨?_, ?_, fun heq => ?_⟩
  · rw [plainVisit_succ, openBases_forget, ← hbases, ← hw₁]
    dsimp only
    rw [hplains, mergeBases_forget, ← hmerged, ← hw₃, settle_forget]
  · exact fun id order hmem => (keeps_settle hrepeats₃ hstable id order hmem).of_extends hgrows
  · rw [settle_unstable] at heq
    exact (hstable heq).of_extends hgrows

/-- **The two walks go on side by side.** -/
theorem visit_mirrors (hfits : g.FitsIn limit root) (left : Nat) (way : List ClassId)
    (id : ClassId) (w : Walk) :
    g.Mirrors limit root left way id w (g.visit limit left way id w).1
      (g.visit limit left way id w).2 := by
  refine (visit_induction (P := fun left way id w order w' =>
    g.Visits limit root left way id w order w' ∧ g.Mirrors limit root left way id w order w')
    ?known ?tooDeep ?entered left way id w).2
  case known =>
    intro left way id w order hlookup
    exact ⟨visits_known hlookup, mirrors_known hlookup⟩
  case tooDeep =>
    intro way id w
    exact ⟨visits_tooDeep, mirrors_tooDeep⟩
  case entered =>
    intro left way id w bases w₁ baseOrders w₂ merged w₃ hbases hw₁ heach hmerged hw₃
    have hvisits := visits_entered hbases hw₁ (heach.imp fun _ _ _ _ h => h.1) hmerged hw₃
    exact ⟨hvisits, mirrors_entered hfits hbases hw₁ heach hmerged hw₃ hvisits⟩

/-! ### Linearizations -/

/-- The walk finds the same with and without kept orders, if all fits in. -/
theorem linearize_eq_plainLinearize {maxDepth : Nat} (hfits : g.FitsIn maxDepth id) :
    g.linearize maxDepth id = g.plainLinearize maxDepth id := by
  have hmirrors := (visit_mirrors hfits maxDepth [] id .start (trail_root g maxDepth id)
    (Walk.keeps_start _) (Walk.keeps_start _)).1
  have hstart : Walk.start.forget = Walk.start := rfl
  unfold linearize plainLinearize
  rw [hstart] at hmirrors
  rw [hmirrors]
  rfl

/-- In an index, a class with bases fits in what is no less than the index. -/
theorem fitsIn_of_size_le {index : ClassIndex} {resolver : Resolver} {maxDepth : Nat}
    (hsize : index.size ≤ maxDepth) (hpos : 0 < maxDepth) :
    (index.graph resolver).FitsIn maxDepth id := by
  by_cases hid : id ∈ index.ids
  · exact ⟨index.ids, fun _ _ _ hb => mem_ids_of_edge hb, hid, by rwa [length_ids]⟩
  · refine ⟨[id], fun a ha b hb => ?_, List.mem_singleton_self id, hpos⟩
    obtain rfl := List.mem_singleton.1 ha
    obtain ⟨d, hd, _⟩ := mem_superClasses.1 hb
    exact absurd (mem_ids.2 (Option.isSome_of_eq_some hd)) hid

end BaseGraph

/-- **Kept orders change nothing.**  If the longest chain followed is no shorter than the
index, a walk finds the same ancestors and makes the same reports in the same order as
the walk with nothing kept, on every graph. -/
theorem linearize_eq_of_size_le (index : ClassIndex) (resolver : Resolver) (maxDepth : Nat)
    (id : ClassId) (hsize : index.size ≤ maxDepth) :
    (index.graph resolver).linearize maxDepth id =
      (index.graph resolver).plainLinearize maxDepth id := by
  cases maxDepth with
  | zero => rfl
  | succ n =>
    exact BaseGraph.linearize_eq_plainLinearize (BaseGraph.fitsIn_of_size_le hsize n.succ_pos)

/-- `P` and `Q` are bases of each other, and `Z` cannot merge its bases.  All three are bases
of `R`. -/
def tangledBases : List (String × List String) :=
  [("A", []), ("B", []), ("X", ["A", "B"]), ("Y", ["B", "A"]), ("Z", ["X", "Y"]),
    ("P", ["Q", "Z"]), ("Q", ["P", "Z"]), ("R", ["P", "Z", "Q"])]

/-- The hypothesis of `linearize_eq_of_size_le` is satisfiable: with nothing kept, `Z` is
visited five times and `Q` twice on the way through the bases of `R`, and the cycle and the
contradiction below them are reported as in the walk that keeps orders. -/
theorem linearize_eq_of_size_le_tangled :
    (ClassIndex.ofBases tangledBases).size ≤ 8 ∧
      ((ClassIndex.ofBases tangledBases).graph (.ofBases tangledBases)).plainLinearize 8 ⟨7⟩ =
        ⟨[⟨6⟩, ⟨5⟩, ⟨4⟩, ⟨2⟩, ⟨3⟩, ⟨1⟩, ⟨0⟩],
          [.cyclic ["m.P", "m.Q", "m.P"], .inconsistent "m.Z" ["m.X", "m.Y"],
            .cyclic ["m.Q", "m.P", "m.Q"], .inconsistent "m.R" ["m.P", "m.Z", "m.Q"]]⟩ := by
  have hsize : (ClassIndex.ofBases tangledBases).size ≤ 8 := by decide
  have heq := linearize_eq_of_size_le (.ofBases tangledBases) (.ofBases tangledBases) 8 ⟨7⟩ hsize
  exact ⟨hsize, heq.symm.trans rfl⟩

end Hierarchy
end Lineage
