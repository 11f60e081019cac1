/-
# What a visit finds

A visit of a class finds what it reaches, with three exceptions: classes behind those
in progress, classes below the longest chain followed, and what an order kept from
before brings along.  The last one is none: an order is kept only if nothing was
dropped below its class, so it has everything that the class reaches and no cycle
stands there (`Settled`).  A class in progress would be on such a cycle, so the order
is as good on any later way (`Settled.explored`).

`visit_visits` carries both facts through a walk: the order of a visit has every class at
the end of a clear path that is short enough (`Explored`), and the kept orders are
settled.
-/

import Lineage.Proofs.Ancestry.Merging
import Lineage.Proofs.Ancestry.Reachability
import Lineage.Proofs.Ancestry.Walk
import Mathlib.Data.List.Forall2

namespace Lineage
namespace Hierarchy

/-- What stands in the first list is related to something in the second. -/
theorem exists_mem_of_forall₂ {α β : Type} {R : α → β → Prop} {as : List α} {bs : List β} {a : α}
    (h : List.Forall₂ R as bs) (ha : a ∈ as) : ∃ b ∈ bs, R a b := by
  induction h with
  | nil => exact absurd ha List.not_mem_nil
  | cons hab _ ih =>
    rcases List.mem_cons.1 ha with rfl | ha
    · exact ⟨_, List.mem_cons_self, hab⟩
    · obtain ⟨b, hb, h⟩ := ih ha
      exact ⟨b, List.mem_cons_of_mem _ hb, h⟩

namespace BaseGraph

open Relation (TransGen)

variable {g : BaseGraph} {limit left : Nat} {root id b c : ClassId} {way bases : List ClassId}
  {order merged : List ClassId} {baseOrders : List (List ClassId)} {w w' : Walk} {cut cut' : Prop}

/-! ### The order merged from those of the bases -/

/-- The classes of the merged order are those of the merged ones, if the bases are among
them. -/
theorem mem_mergeBases (hbases : ∀ b ∈ bases, ∃ o ∈ baseOrders, b ∈ o) :
    c ∈ (g.mergeBases id bases baseOrders w).1 ↔ ∃ o ∈ baseOrders, c ∈ o := by
  unfold mergeBases
  split
  · rename_i merged hmerge
    rw [(merged_of_c3Merge hmerge).mem_iff]
    constructor
    · rintro ⟨o, ho, hc⟩
      rcases List.mem_append.1 ho with ho | ho
      · exact ⟨o, ho, hc⟩
      · obtain rfl := List.mem_singleton.1 ho
        exact hbases c hc
    · rintro ⟨o, ho, hc⟩
      exact ⟨o, List.mem_append_left _ ho, hc⟩
  · rw [mem_keepLast, List.mem_flatten]

/-- The merged order has no repetitions, also where the orders contradict each other. -/
theorem nodup_mergeBases (id : ClassId) (bases : List ClassId) (baseOrders : List (List ClassId))
    (w : Walk) : (g.mergeBases id bases baseOrders w).1.Nodup := by
  unfold mergeBases
  split
  · rename_i merged hmerge
    exact (merged_of_c3Merge hmerge).nodup
  · exact nodup_keepLast _

/-- Both ways of merging put a class before its bases if the merged orders do. -/
theorem followed_mergeBases (hbases : ∀ b ∈ bases, ∃ o ∈ baseOrders, b ∈ o)
    (h : ∀ o ∈ baseOrders, Followed g.bases o) :
    Followed g.bases (g.mergeBases id bases baseOrders w).1 := by
  have hmem : ∀ c, c ∈ (g.mergeBases id bases baseOrders w).1 ↔ ∃ o ∈ baseOrders, c ∈ o :=
    fun _ => mem_mergeBases hbases
  have hnodup := nodup_mergeBases (g := g) id bases baseOrders w
  unfold mergeBases at hmem hnodup ⊢
  split
  · rename_i merged hmerge
    rw [hmerge] at hmem hnodup
    refine Followed.of_sublists hnodup fun a ha => ?_
    obtain ⟨o, ho, hao⟩ := (hmem a).1 ha
    exact ⟨o, hao, h o ho, (merged_of_c3Merge hmerge).sublist (List.mem_append_left _ ho)⟩
  · exact (Followed.flatten h).keepLast

/-! ### Classes in progress -/

/-- The classes of `way` lead from `root` to `id`, which `left` more levels fit below. -/
structure OnWay (g : BaseGraph) (limit : Nat) (root : ClassId) (left : Nat) (way : List ClassId)
    (id : ClassId) : Prop where
  path : g.Path way.length root id
  above : ∀ a ∈ way, TransGen g.Edge a id
  fresh : id ∉ way
  levels : way.length + left = limit

/-- At the root nothing is on the way yet. -/
theorem onWay_root (g : BaseGraph) (limit : Nat) (root : ClassId) :
    g.OnWay limit root limit [] root :=
  ⟨.here, fun _ h => absurd h List.not_mem_nil, List.not_mem_nil, Nat.zero_add limit⟩

/-- The way goes on to a base that is not on it yet. -/
theorem OnWay.step (h : g.OnWay limit root (left + 1) way id) (edge : g.Edge id b)
    (fresh : b ∉ way ++ [id]) : g.OnWay limit root left (way ++ [id]) b where
  path := by
    rw [List.length_append]
    exact h.path.snoc edge
  above a ha := by
    rcases List.mem_append.1 ha with ha | ha
    · exact .tail (h.above a ha) edge
    · obtain rfl := List.mem_singleton.1 ha
      exact .single edge
  fresh := fresh
  levels := by
    have := h.levels
    rw [List.length_append, List.length_singleton]
    omega

/-! ### Orders -/

/-- An order of `id`: itself first, then classes that it reaches, none twice, and none
farther from `root` than the limit. -/
structure IsOrder (g : BaseGraph) (limit : Nat) (root id : ClassId) (order : List ClassId) :
    Prop where
  head : ∃ ancestors, order = id :: ancestors
  nodup : order.Nodup
  reaches : ∀ c ∈ order, g.Reaches id c
  near : ∀ c ∈ order, ∃ n ≤ limit, g.Path n root c

/-- An order begins with its class. -/
theorem IsOrder.self_mem (h : g.IsOrder limit root id order) : id ∈ order := by
  obtain ⟨ancestors, rfl⟩ := h.head
  exact List.mem_cons_self

/-- An order found on a way: it has no class in progress, and it has the end of every
clear path, unless the path is too long and that is reported (`cut`). -/
structure Explored (g : BaseGraph) (limit : Nat) (root : ClassId) (left : Nat)
    (way : List ClassId) (cut : Prop) (id : ClassId) (order : List ClassId) : Prop extends
    g.IsOrder limit root id order where
  away : ∀ c ∈ order, c ∉ way
  complete : ∀ n c, g.ClearPath way n id c → c ∈ order ∨ left < n ∧ cut

/-- An order that does not depend on the way: everything that its class reaches, where no
cycle stands, each class before its bases. -/
structure Settled (g : BaseGraph) (limit : Nat) (root id : ClassId) (order : List ClassId) :
    Prop extends g.IsOrder limit root id order where
  complete : ∀ c, g.Reaches id c → c ∈ order
  acyclic : g.AcyclicBelow id
  followed : Followed g.bases order

/-- An order found on a way stays one if more may have been cut. -/
theorem Explored.mono (h : g.Explored limit root left way cut id order) (hcut : cut → cut') :
    g.Explored limit root left way cut' id order :=
  { h with complete := fun n c path => (h.complete n c path).imp_right (.imp_right hcut) }

/-- **A settled order is good on every way.**  A class in progress reaches `id`, and `id`
reaches no such class. -/
theorem Settled.explored (h : g.Settled limit root id order)
    (hway : g.OnWay limit root left way id) : g.Explored limit root left way cut id order :=
  { h with
    away := fun c hc hmem => h.acyclic.not_reaches (hway.above c hmem) (h.reaches c hc)
    complete := fun _ c path => .inl (h.complete c path.reaches) }

/-! ### One class after another -/

/-- What a visit does on a way: it finds what there is to find, keeps settled orders only,
and its own order is settled if it counted no report. -/
def Visits (g : BaseGraph) (limit : Nat) (root : ClassId) (left : Nat) (way : List ClassId)
    (id : ClassId) (w : Walk) (order : List ClassId) (w' : Walk) : Prop :=
  g.OnWay limit root left way id → w.Keeps (g.Settled limit root) →
    w'.Keeps (g.Settled limit root) ∧ g.Explored limit root left way w'.CutShort id order ∧
      (w'.unstable = w.unstable → g.Settled limit root id order)

/-- The visits of the bases of a class, taken together. -/
theorem Each.visits (h : Each (g.Visits limit root left way) bases w baseOrders w')
    (hway : ∀ b ∈ bases, g.OnWay limit root left way b) (hknown : w.Keeps (g.Settled limit root)) :
    w'.Keeps (g.Settled limit root) ∧
      List.Forall₂ (g.Explored limit root left way w'.CutShort) bases baseOrders ∧
      (w'.unstable = w.unstable → List.Forall₂ (g.Settled limit root) bases baseOrders) := by
  induction h with
  | nil => exact ⟨hknown, .nil, fun _ => .nil⟩
  | @cons b bases w w' w'' order baseOrders first grows others ih =>
    obtain ⟨hknown', hexplored, hsettled⟩ := first (hway b List.mem_cons_self) hknown
    obtain ⟨hknown'', hexploreds, hsettleds⟩ :=
      ih (fun b hb => hway b (List.mem_cons_of_mem _ hb)) hknown'
    have hcut : w'.CutShort → w''.CutShort := fun hc => hc.of_extends others.extends
    refine ⟨hknown'', .cons (hexplored.mono hcut) hexploreds, fun hstable => ?_⟩
    -- The count never falls, so neither the first visit nor the others raised it.
    have h₁ := grows.unstable
    have h₂ := others.extends.unstable
    exact .cons (hsettled (by omega)) (hsettleds (by omega))

/-! ### A class that is entered -/

section Entered

variable (hway : g.OnWay limit root (left + 1) way id)
  (hmem : ∀ c, c ∈ merged ↔ ∃ o ∈ baseOrders, c ∈ o) (hnodup : merged.Nodup)

include hway hmem hnodup

/-- The merged orders of the bases, with the class in front of them, are an order of the class. -/
theorem isOrder_cons (hbases : ∀ b ∈ bases, g.Edge id b)
    (h : List.Forall₂ (g.Explored limit root left (way ++ [id]) cut) bases baseOrders) :
    g.IsOrder limit root id (id :: merged) := by
  -- Every class of the merged order was found from a base.
  have hfound : ∀ c ∈ merged, ∃ b ∈ bases, ∃ o, c ∈ o ∧
      g.Explored limit root left (way ++ [id]) cut b o := fun c hc => by
    obtain ⟨o, ho, hco⟩ := (hmem c).1 hc
    obtain ⟨b, hb, hexplored⟩ := exists_mem_of_forall₂ h.flip ho
    exact ⟨b, hb, o, hco, hexplored⟩
  refine ⟨⟨merged, rfl⟩, List.nodup_cons.2 ⟨fun hid => ?_, hnodup⟩, fun c hc => ?_, fun c hc => ?_⟩
  · obtain ⟨_, _, o, hido, hexplored⟩ := hfound id hid
    exact hexplored.away id hido (List.mem_append_right _ (List.mem_singleton_self id))
  · rcases List.mem_cons.1 hc with rfl | hc
    · exact .refl
    · obtain ⟨b, hb, o, hco, hexplored⟩ := hfound c hc
      exact .head (hbases b hb) (hexplored.reaches c hco)
  · rcases List.mem_cons.1 hc with rfl | hc
    · exact ⟨way.length, by have := hway.levels; omega, hway.path⟩
    · obtain ⟨_, _, o, hco, hexplored⟩ := hfound c hc
      exact hexplored.near c hco

/-- A clear path begins with an edge to a base that is not in progress, and goes on as a
clear path of that base. -/
theorem explored_cons (hbases : ∀ b, b ∈ bases ↔ g.Edge id b ∧ b ∉ way ++ [id])
    (h : List.Forall₂ (g.Explored limit root left (way ++ [id]) cut) bases baseOrders) :
    g.Explored limit root (left + 1) way cut id (id :: merged) where
  toIsOrder := isOrder_cons hway hmem hnodup (fun b hb => ((hbases b).1 hb).1) h
  away c hc hcway := by
    rcases List.mem_cons.1 hc with rfl | hc
    · exact hway.fresh hcway
    · obtain ⟨o, ho, hco⟩ := (hmem c).1 hc
      obtain ⟨b, hb, hexplored⟩ := exists_mem_of_forall₂ h.flip ho
      exact hexplored.away c hco (List.mem_append_left _ hcway)
  complete n c path := by
    cases path with
    | here _ => exact .inl List.mem_cons_self
    | step _ edge rest =>
      obtain ⟨o, ho, hexplored⟩ := exists_mem_of_forall₂ h ((hbases _).2 ⟨edge, rest.not_mem⟩)
      rcases hexplored.complete _ c rest with hc | ⟨hlong, hcut⟩
      · exact .inl (List.mem_cons_of_mem _ ((hmem c).2 ⟨o, ho, hc⟩))
      · exact .inr ⟨Nat.succ_lt_succ hlong, hcut⟩

/-- With all bases settled the class is settled: none of them reaches it, for it would
be in their orders. -/
theorem settled_cons (hfollowed : Followed g.bases merged)
    (hexplored :
      List.Forall₂ (g.Explored limit root left (way ++ [id]) cut) (g.bases id) baseOrders)
    (h : List.Forall₂ (g.Settled limit root) (g.bases id) baseOrders) :
    g.Settled limit root id (id :: merged) where
  toIsOrder := isOrder_cons hway hmem hnodup (fun _ hb => hb) hexplored
  complete c hc := by
    rcases reaches_iff.1 hc with rfl | ⟨b, hb, hbc⟩
    · exact List.mem_cons_self
    · obtain ⟨o, ho, hsettled⟩ := exists_mem_of_forall₂ h hb
      exact List.mem_cons_of_mem _ ((hmem c).2 ⟨o, ho, hsettled.complete c hbc⟩)
  acyclic := by
    have hid := (isOrder_cons hway hmem hnodup (fun _ hb => hb) hexplored).nodup
    refine acyclicBelow_of_bases fun b hb => ?_
    obtain ⟨o, ho, hsettled⟩ := exists_mem_of_forall₂ h hb
    exact ⟨hsettled.acyclic, fun hbid =>
      (List.nodup_cons.1 hid).1 ((hmem id).2 ⟨o, ho, hsettled.complete id hbid⟩)⟩
  followed := ⟨fun b hb => by
    obtain ⟨o, ho, hsettled⟩ := exists_mem_of_forall₂ h hb
    exact (hmem b).2 ⟨o, ho, hsettled.self_mem⟩, hfollowed⟩

end Entered

/-! ### Every visit -/

/-- A class too deep is an order of its own, and the paths that go on are reported. -/
theorem explored_tooDeep (hway : g.OnWay limit root 0 way id) (hcut : cut) :
    g.Explored limit root 0 way cut id [id] where
  head := ⟨[], rfl⟩
  nodup := List.nodup_singleton id
  reaches c hc := List.mem_singleton.1 hc ▸ .refl
  near c hc := ⟨way.length, by have := hway.levels; omega, List.mem_singleton.1 hc ▸ hway.path⟩
  away c hc := List.mem_singleton.1 hc ▸ hway.fresh
  complete n c path := by
    cases path with
    | here _ => exact .inl List.mem_cons_self
    | step _ _ _ => exact .inr ⟨Nat.succ_pos _, hcut⟩

/-- A visit of a class whose order is kept finds that order. -/
theorem visits_known (hlookup : w.known.lookup id = some order) :
    g.Visits limit root left way id w order w := by
  intro hway hknown
  have hsettled := hknown.of_lookup hlookup
  exact ⟨hknown, hsettled.explored hway, fun _ => hsettled⟩

/-- A visit below the limit finds the class alone, and reports it. -/
theorem visits_tooDeep :
    g.Visits limit root 0 way id w [id] (w.reportUnstable (.tooDeep (g.nameOf id) limit)) := by
  intro hway hknown
  refine ⟨hknown.of_known_eq (Walk.reportUnstable_known ..),
    explored_tooDeep hway ⟨_, _, Walk.mem_reportUnstable.2 (.inr rfl)⟩, fun heq => ?_⟩
  rw [Walk.reportUnstable_unstable] at heq
  omega

/-- A visit that enters a class finds what there is to find, if the visits of its bases do. -/
theorem visits_entered {w₁ w₂ w₃ : Walk}
    (hbases : bases = (g.openBases (way ++ [id]) (g.bases id) w).1)
    (hw₁ : w₁ = (g.openBases (way ++ [id]) (g.bases id) w).2)
    (heach : Each (g.Visits limit root left (way ++ [id])) bases w₁ baseOrders w₂)
    (hmerged : merged = (g.mergeBases id bases baseOrders w₂).1)
    (hw₃ : w₃ = (g.mergeBases id bases baseOrders w₂).2) :
    g.Visits limit root (left + 1) way id w (id :: merged) (settle w w₃ id (id :: merged)) := by
  intro hway hknown
  have hopen : ∀ b, b ∈ bases ↔ g.Edge id b ∧ b ∉ way ++ [id] := fun b => by
    rw [hbases]
    exact mem_openBases
  have hknown₁ : w₁.Keeps (g.Settled limit root) := hknown.of_known_eq (hw₁ ▸ openBases_known ..)
  obtain ⟨hknown₂, hexplored, hsettled⟩ := heach.visits
    (fun b hb => hway.step ((hopen b).1 hb).1 ((hopen b).1 hb).2) hknown₁
  have hknown₃ : w₃.Keeps (g.Settled limit root) := hknown₂.of_known_eq (hw₃ ▸ mergeBases_known ..)
  have hheads : ∀ b ∈ bases, ∃ o ∈ baseOrders, b ∈ o := fun b hb => by
    obtain ⟨o, ho, h⟩ := exists_mem_of_forall₂ hexplored hb
    exact ⟨o, ho, h.self_mem⟩
  have hmem : ∀ c, c ∈ merged ↔ ∃ o ∈ baseOrders, c ∈ o := fun c => by
    rw [hmerged]
    exact mem_mergeBases hheads
  have hnodup : merged.Nodup := hmerged ▸ nodup_mergeBases ..
  have hgrows : w₂.Extends w₃ :=
    hw₃ ▸ mergeBases_invariant (Walk.invariant_extends w₂) (.refl w₂)
  -- An order that counted no report had all bases open and all of them settled.
  have hstable : w₃.unstable = w.unstable → g.Settled limit root id (id :: merged) := fun heq => by
    have h₁ : w.Extends w₁ :=
      hw₁ ▸ openBases_invariant (Walk.invariant_extends w) _ _ (.refl w)
    have h₁ := h₁.unstable
    have h₂ := heach.extends.unstable
    have h₃ := hgrows.unstable
    obtain rfl : bases = g.bases id := hbases.trans (openBases_fst_of_unstable (hw₁ ▸ by omega))
    have hsettleds := hsettled (by omega)
    refine settled_cons hway hmem hnodup ?_ hexplored hsettleds
    rw [hmerged]
    refine followed_mergeBases hheads fun o ho => ?_
    obtain ⟨b, _, h⟩ := exists_mem_of_forall₂ hsettleds.flip ho
    exact h.followed
  have hcut : w₂.CutShort → (settle w w₃ id (id :: merged)).CutShort := fun hc =>
    hc.of_extends (settle_invariant (Walk.invariant_extends w₂) hgrows)
  refine ⟨keeps_settle hknown₃ hstable, (explored_cons hway hmem hnodup hopen hexplored).mono hcut,
    fun heq => hstable ?_⟩
  rwa [settle_unstable] at heq

/-- **What a visit finds.**  On a way from `root`, with settled orders kept, a visit finds
the classes at the ends of all clear paths that are short enough and none in progress,
keeps settled orders only, and has a settled order itself if it counted no report. -/
theorem visit_visits (g : BaseGraph) (limit : Nat) (root : ClassId) (left : Nat)
    (way : List ClassId) (id : ClassId) (w : Walk) :
    g.Visits limit root left way id w (g.visit limit left way id w).1
      (g.visit limit left way id w).2 := by
  refine visit_induction ?known ?tooDeep ?entered left way id w
  case known =>
    intro left way id w order hlookup
    exact visits_known hlookup
  case tooDeep =>
    intro way id w
    exact visits_tooDeep
  case entered =>
    intro left way id w bases w₁ baseOrders w₂ merged w₃ hbases hw₁ heach hmerged hw₃
    exact visits_entered hbases hw₁ heach hmerged hw₃

end BaseGraph
end Hierarchy
end Lineage
