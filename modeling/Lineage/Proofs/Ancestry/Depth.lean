/-
# Chains at the limit

A walk reports a class as too deep where as many classes are in progress as it may follow.
These and the class are a chain: distinct, each a base of the one before it, from the class
that the walk started at (`ChainFrom`).  So the report says how long a chain was, and not that
something was lost: the bases behind its end may be found on a shorter way
(`tooDeep_reported_complete`).

What is lost is reported in any case (`tooDeep_reported_of_missing_and_genuine`).
-/

import Lineage.Proofs.Ancestry.Cycles

namespace Lineage
namespace Hierarchy
namespace BaseGraph

variable {g : BaseGraph} {maxDepth : Nat} {root id b : ClassId} {name : String}

/-- A chain of bases: distinct classes, `root` the first of them, each a base of the one before
it. -/
structure ChainFrom (g : BaseGraph) (root : ClassId) (classes : List ClassId) : Prop where
  head : classes.head? = some root
  edges : List.IsChain g.Edge classes
  nodup : classes.Nodup

/-- The root reaches every class of a chain. -/
theorem ChainFrom.reaches {classes : List ClassId} (h : g.ChainFrom root classes)
    (hb : b ∈ classes) : g.Reaches root b := by
  cases classes with
  | nil => cases hb
  | cons a rest =>
    obtain rfl : a = root := Option.some.inj h.head
    rcases List.mem_cons.1 hb with rfl | hb
    · exact .refl
    · exact (transGen_of_isChain h.edges hb).to_reflTransGen

/-- The class of that name ends a chain of `limit` more classes. -/
def EndsChain (g : BaseGraph) (root : ClassId) (limit : Nat) (name : String) : Prop :=
  ∃ others last, g.ChainFrom root (others ++ [last]) ∧ others.length = limit ∧ g.nameOf last = name

/-- A trail as long as the limit allows is a chain at the limit. -/
theorem holdsOfReports_endsChain (g : BaseGraph) (limit : Nat) (root : ClassId) :
    g.HoldsOfReports limit root fun d =>
      ∀ name n, d = .tooDeep name n → n = limit ∧ g.EndsChain root limit name where
  cyclic _ _ _ _ _ heq := nomatch heq
  tooDeep {way id} htrail hhead name n heq := by
    obtain ⟨rfl, rfl⟩ := Diagnostic.tooDeep.inj heq
    exact ⟨rfl, way, id, ⟨hhead, htrail.chain, htrail.nodup⟩, htrail.levels, rfl⟩
  inconsistent _ _ _ _ heq := nomatch heq

/-- **Every class too deep ends a chain at the limit.** -/
theorem endsChain_of_mem_linearize {n : Nat}
    (h : .tooDeep name n ∈ (g.linearize maxDepth id).diagnostics) :
    n = maxDepth ∧ g.EndsChain id maxDepth name :=
  (holdsOfReports_endsChain g maxDepth id).linearize h name n rfl

end BaseGraph

open BaseGraph (ChainFrom)

/-- **What is lost is reported, and each report is of a chain at the limit.**  If a class that
`id` reaches is missing from its ancestors, a class is reported as too deep.  Every such report
gives the limit, and the class of its name stands at the end of a chain of bases from `id` with
as many other classes as the limit says, each class once.

So the checked ancestors, where there are any, have every class that `id` reaches, and they are
not refused for the depth where every chain of bases from `id` has at most as many classes as
the limit says. -/
theorem tooDeep_reported_of_missing_and_genuine (index : ClassIndex) (resolver : Resolver)
    (context : Context) (id : ClassId) :
    let g := index.graph resolver
    let l := g.linearize context.maxDepth id
    ((∃ c, g.Reaches id c ∧ c ∉ id :: l.ancestors) →
        ∃ name limit, .tooDeep name limit ∈ l.diagnostics) ∧
      (∀ name limit, .tooDeep name limit ∈ l.diagnostics → limit = context.maxDepth ∧
        ∃ others last, g.ChainFrom id (others ++ [last]) ∧ others.length = context.maxDepth ∧
          g.nameOf last = name) ∧
      ∀ v, index.view? resolver context id = some v →
        (∀ ancestors, v.checkedAncestors = .ok ancestors →
          ∀ c, g.Reaches id c → c ∈ id :: ancestors) ∧
        ((∀ classes, g.ChainFrom id classes → classes.length ≤ context.maxDepth) →
          ∀ name limit, v.checkedAncestors ≠ .error (.tooDeep name limit)) := by
  intro g l
  have hgenuine : ∀ name limit, .tooDeep name limit ∈ l.diagnostics →
      limit = context.maxDepth ∧ g.EndsChain id context.maxDepth name :=
    fun _ _ => BaseGraph.endsChain_of_mem_linearize
  refine ⟨fun ⟨c, hc, hmissing⟩ => ?_, hgenuine, fun v hv => ?_⟩
  · by_contra hnone
    have hdeep : ∀ name limit, .tooDeep name limit ∉ l.diagnostics :=
      fun name limit hname => hnone ⟨name, limit, hname⟩
    exact hmissing (BaseGraph.mem_ancestors_of_reaches hdeep hc)
  · have hl : v.linearization = l := by
      obtain ⟨hindex, hresolver, hcontext, hid⟩ := view?_eq_some hv
      rw [View.linearization, View.graph, hindex, hresolver, hcontext, hid]
    constructor
    · intro ancestors hok c hc
      obtain ⟨hnone, rfl⟩ := checkedAncestors_eq_ok hok
      rw [View.diagnostics, hl] at hnone
      rw [View.ancestors, hl]
      exact BaseGraph.mem_ancestors_of_reaches (fun _ _ hname => by simp [l, hnone] at hname) hc
    · intro hshort name limit herror
      have hname : .tooDeep name limit ∈ v.diagnostics :=
        List.mem_of_mem_head? (checkedAncestors_eq_error_iff.1 herror)
      rw [View.diagnostics, hl] at hname
      obtain ⟨others, last, hchain, hlength, _⟩ := (hgenuine name limit hname).2
      have hle := hshort _ hchain
      rw [List.length_append, List.length_singleton] at hle
      omega

/-- `A` derives from `X` by a chain of four bases, and directly. -/
def shortcutBases : List (String × List String) :=
  [("X", []), ("D", ["X"]), ("C", ["D"]), ("B", ["C"]), ("A", ["B", "X"])]

/-- The view of `A`, with chains of at most `maxDepth` classes followed. -/
def shortcutView (maxDepth : Nat) : View :=
  ⟨.ofBases shortcutBases, .ofBases shortcutBases, ⟨.python3, maxDepth⟩, ⟨4⟩, _, rfl⟩

/-- No class outside these five is a base of one of them. -/
theorem closedUnder_shortcut (maxDepth : Nat) :
    (shortcutView maxDepth).graph.ClosedUnder [⟨4⟩, ⟨3⟩, ⟨2⟩, ⟨1⟩, ⟨0⟩] := by
  change ∀ a ∈ _, ∀ b ∈ superClasses (.ofBases shortcutBases) (.ofBases shortcutBases) a, b ∈ _
  decide

/-- A chain of bases from `A` has each of the five classes at most once. -/
theorem length_le_of_chainFrom_shortcut (maxDepth : Nat) {classes : List ClassId}
    (h : (shortcutView maxDepth).graph.ChainFrom ⟨4⟩ classes) : classes.length ≤ 5 := by
  have hsubset : classes ⊆ [⟨4⟩, ⟨3⟩, ⟨2⟩, ⟨1⟩, ⟨0⟩] := fun c hc =>
    (closedUnder_shortcut maxDepth).mem_of_reaches List.mem_cons_self (h.reaches hc)
  exact (List.subperm_of_subset h.nodup hsubset).length_le

/-- The hypotheses of `tooDeep_reported_of_missing_and_genuine` are satisfiable: with chains of
two classes, `A` misses `D` and that is reported; with chains of five, its checked ancestors are
all that it reaches. -/
theorem tooDeep_reported_of_missing_and_genuine_shortcut :
    (∃ name limit, .tooDeep name limit ∈ (shortcutView 2).diagnostics) ∧
      (∀ name limit, (shortcutView 5).checkedAncestors ≠ .error (.tooDeep name limit)) ∧
      (shortcutView 5).checkedAncestors = .ok [⟨3⟩, ⟨2⟩, ⟨1⟩, ⟨0⟩] ∧
      ∀ c, (shortcutView 5).graph.Reaches ⟨4⟩ c → c ∈ [⟨4⟩, ⟨3⟩, ⟨2⟩, ⟨1⟩, (⟨0⟩ : ClassId)] := by
  obtain ⟨hmissing, _, _⟩ := tooDeep_reported_of_missing_and_genuine (.ofBases shortcutBases)
    (.ofBases shortcutBases) ⟨.python3, 2⟩ ⟨4⟩
  obtain ⟨_, _, hviews⟩ := tooDeep_reported_of_missing_and_genuine (.ofBases shortcutBases)
    (.ofBases shortcutBases) ⟨.python3, 5⟩ ⟨4⟩
  have hB : ⟨3⟩ ∈ (shortcutView 2).graph.bases ⟨4⟩ := by decide
  have hC : ⟨2⟩ ∈ (shortcutView 2).graph.bases ⟨3⟩ := by decide
  have hD : ⟨1⟩ ∈ (shortcutView 2).graph.bases ⟨2⟩ := by decide
  have hreached : (shortcutView 2).graph.Reaches ⟨4⟩ ⟨1⟩ := .head hB (.head hC (.single hD))
  have hok : (shortcutView 5).checkedAncestors = .ok [⟨3⟩, ⟨2⟩, ⟨1⟩, ⟨0⟩] := by rfl
  obtain ⟨hcomplete, hshort⟩ := hviews (shortcutView 5) rfl
  exact ⟨hmissing ⟨⟨1⟩, hreached, by decide⟩,
    hshort fun _ => length_le_of_chainFrom_shortcut 5, hok, hcomplete _ hok⟩

/-- A class is reported as too deep though nothing is lost: with chains of three classes, the
chain through `D` ends there, and its base `X` is found as a base of `A`. -/
theorem tooDeep_reported_complete :
    (shortcutView 3).checkedAncestors = .error (.tooDeep "m.D" 3) ∧
      .tooDeep "m.D" 3 ∈ (shortcutView 3).diagnostics ∧
        ∀ c, (shortcutView 3).graph.Reaches ⟨4⟩ c → c ∈ ⟨4⟩ :: (shortcutView 3).ancestors := by
  refine ⟨by rfl, List.mem_of_mem_head? (by rfl), fun c hc => ?_⟩
  have hancestors : (shortcutView 3).ancestors = [⟨3⟩, ⟨2⟩, ⟨1⟩, ⟨0⟩] := by rfl
  rw [hancestors]
  exact (closedUnder_shortcut 3).mem_of_reaches List.mem_cons_self hc

end Hierarchy
end Lineage
