/-
# Inherited members

The five look-ups of inherited members are one: go along the class and its ancestors and
take the first member of that name (`MemberKind.first?`).  What it finds can be said
without the order: a member of a class that is reached and declares the name, there the
first of it, and overridden by no other class that declares it (`FindsNearest`).

Both follow from the settled order of a well-formed ancestry.  It has every class that is
reached, so a declaration is not missed; and a class stands before all that it derives
from, so one that overrides the member found would have come first
(`findsNearest_firstMember`).
-/

import Lineage.Proofs.Ancestry.Linearization

namespace Lineage
namespace Hierarchy

open Outline
open Relation (TransGen)

variable {α : Type} {g : BaseGraph} {a b c : ClassId} {l : List ClassId}

/-- Whatever an element of such a list leads to stands in it, and not at its head. -/
theorem Followed.mem_of_transGen (h : Followed g.bases (a :: l)) (hc : c ∈ a :: l)
    (hb : TransGen g.Edge c b) : b ∈ l := by
  have hnext : ∀ x ∈ a :: l, ∀ y, g.Edge x y → y ∈ l := fun x hx y edge => by
    rcases List.mem_cons.1 hx with rfl | hx
    · exact h.1 y edge
    · exact (h.2.pair_sublist hx edge).mem (List.mem_cons_of_mem x (List.mem_singleton_self y))
  induction hb with
  | single edge => exact hnext c hc _ edge
  | tail _ edge ih => exact hnext _ (List.mem_cons_of_mem a ih) _ edge

/-! ### Kinds of members -/

/-- A kind of member: the members that a declaration has, in order, and their names. -/
structure MemberKind (α : Type) where
  items : ClassDecl → List α
  nameOf : α → String

namespace MemberKind

/-- Methods. -/
def methods : MemberKind Method := ⟨(·.methods), (·.name)⟩

/-- Class attributes. -/
def classAttributes : MemberKind Binding := ⟨(·.classAttributes), (·.target)⟩

/-- Instance attributes. -/
def instanceAttributes : MemberKind Binding := ⟨(·.instanceAttributes), (·.target)⟩

/-- Properties. -/
def properties : MemberKind Property := ⟨(·.properties), (·.name)⟩

/-- Nested classes. -/
def nested : MemberKind NestedClass := ⟨(·.nested), (·.name)⟩

variable (k : MemberKind α) (index : ClassIndex) (name : String)

/-- The class declares a member of that name. -/
def Declares (c : ClassId) : Prop :=
  ∃ d, index.get? c = some d ∧ ∃ x ∈ k.items d, k.nameOf x = name

/-- The member is the first one of that name that the class declares. -/
def DeclaresFirst (c : ClassId) (item : α) : Prop :=
  ∃ d before after, index.get? c = some d ∧ k.items d = before ++ item :: after ∧
    k.nameOf item = name ∧ ∀ x ∈ before, k.nameOf x ≠ name

/-- The first member of that name in a declaration. -/
def first? (d : ClassDecl) : Option α := (k.items d).find? fun x => k.nameOf x == name

variable {k index name} {item : α}

/-- A class has a first item of a name just when it declares one. -/
theorem first?_isSome_iff : ((index.get? c).bind (k.first? name)).isSome ↔
    k.Declares index name c := by
  unfold Declares first?
  cases hd : index.get? c with
  | none => simp
  | some d => simp

/-- The first item of a name is the one that the class declares first. -/
theorem first?_eq_some (h : (index.get? c).bind (k.first? name) = some item) :
    k.DeclaresFirst index name c item := by
  obtain ⟨d, hd, hfirst⟩ := Option.bind_eq_some_iff.1 h
  obtain ⟨hname, before, after, hsplit, hbefore⟩ := List.find?_eq_some_iff_append.1 hfirst
  refine ⟨d, before, after, hd, hsplit, eq_of_beq hname, fun x hx heq => ?_⟩
  have := hbefore x hx
  simp [heq] at this

/-- What is declared first is declared. -/
theorem DeclaresFirst.declares (h : k.DeclaresFirst index name c item) :
    k.Declares index name c := by
  obtain ⟨d, before, after, hd, hsplit, hname, _⟩ := h
  refine ⟨d, hd, item, ?_, hname⟩
  rw [hsplit]
  exact List.mem_append_right before List.mem_cons_self

end MemberKind

/-! ### Look-ups -/

/-- What a look-up of a name among the members of a class and its ancestors is to find:
something if any class that is reached declares the name; and then the first one that
its owner declares, which no class that declares the name derives from. -/
structure FindsNearest (v : View) (k : MemberKind α) (name : String)
    (found : Option (Member α)) : Prop where
  isSome_iff : found.isSome ↔ ∃ c, v.graph.Reaches v.id c ∧ k.Declares v.index name c
  reached : ∀ m, found = some m → v.graph.Reaches v.id m.owner
  first : ∀ m, found = some m → k.DeclaresFirst v.index name m.owner m.item
  notOverridden : ∀ m, found = some m → ∀ c, v.graph.Reaches v.id c →
    k.Declares v.index name c → ¬ TransGen v.graph.Edge c m.owner

/-- Finding a member and changing its item is finding the changed one. -/
theorem firstMember_map {β : Type} (v : View) (inherited : Bool) (pick : ClassDecl → Option α)
    (f : α → β) :
    v.firstMember inherited (fun d => (pick d).map f) =
      (v.firstMember inherited pick).map fun m => ⟨m.owner, f m.item⟩ := by
  unfold View.firstMember
  rw [List.map_findSome?]
  refine congrArg (List.findSome? · _) (funext fun c => ?_)
  rw [Function.comp_apply]
  cases v.index.get? c with
  | none => rfl
  | some d => simp [Function.comp_def]

/-- **Along a settled order the first member is the nearest one.** -/
theorem findsNearest_firstMember {v : View} {limit : Nat} {root : ClassId}
    (hsettled : v.graph.Settled limit root v.id (v.chain true)) (k : MemberKind α) (name : String) :
    FindsNearest v k name (v.firstMember true (k.first? name)) := by
  have hmem : ∀ c, c ∈ v.chain true ↔ v.graph.Reaches v.id c := fun c =>
    ⟨hsettled.reaches c, hsettled.complete c⟩
  -- The first member comes from a class before which no class of the order declares the name.
  have hfound : ∀ m, v.firstMember true (k.first? name) = some m →
      ∃ before after, v.chain true = before ++ m.owner :: after ∧
        k.DeclaresFirst v.index name m.owner m.item ∧
        ∀ c ∈ before, ¬ k.Declares v.index name c := fun m hm => by
    obtain ⟨before, c, after, hsplit, hc, hbefore⟩ := List.findSome?_eq_some_iff.1 hm
    obtain ⟨item, hitem, rfl⟩ := Option.map_eq_some_iff.1 hc
    refine ⟨before, after, hsplit, MemberKind.first?_eq_some hitem, fun b hb hdeclares => ?_⟩
    have hnone := Option.map_eq_none_iff.1 (hbefore b hb)
    rw [← MemberKind.first?_isSome_iff, hnone] at hdeclares
    cases hdeclares
  have howner : ∀ m, v.firstMember true (k.first? name) = some m →
      v.graph.Reaches v.id m.owner := fun m hm => by
    obtain ⟨before, after, hsplit, _⟩ := hfound m hm
    exact (hmem _).1 (hsplit ▸ List.mem_append_right before List.mem_cons_self)
  refine ⟨⟨fun hsome => ?_, fun ⟨c, hc, hdeclares⟩ => ?_⟩, howner, fun m hm => ?_,
    fun m hm c hc hdeclares hderives => ?_⟩
  · obtain ⟨m, hm⟩ := Option.isSome_iff_exists.1 hsome
    obtain ⟨_, _, _, hfirst, _⟩ := hfound m hm
    exact ⟨m.owner, howner m hm, hfirst.declares⟩
  · refine List.findSome?_isSome_iff.2 ⟨c, (hmem c).2 hc, ?_⟩
    rw [Option.isSome_map]
    exact MemberKind.first?_isSome_iff.2 hdeclares
  · obtain ⟨_, _, _, hfirst, _⟩ := hfound m hm
    exact hfirst
  · obtain ⟨before, after, hsplit, _, hbefore⟩ := hfound m hm
    have hfollowed := hsettled.followed
    have hnodup := hsettled.nodup
    have hc' := (hmem c).2 hc
    rw [hsplit] at hfollowed hnodup hc'
    have hbehind : c ∈ m.owner :: after :=
      (List.mem_append.1 hc').resolve_left fun hmem => hbefore c hmem hdeclares
    have hagain := hfollowed.of_append_right.mem_of_transGen hbehind hderives
    exact (List.nodup_cons.1 hnodup.of_append_right).1 hagain

/-- **Inherited look-ups find the nearest member and miss none.**  If neither a cycle nor a
class too deep is reported, whatever the orders that contradict each other, a method, a
class attribute, an instance attribute, a property or a nested class of some name is
found just when the class or one that it reaches declares it; and what is found is the
first of its owner, overridden by no class that declares the name. -/
theorem inherited_members_nearest (v : View) (name : String)
    (hcyclic : ∀ names, .cyclic names ∉ v.diagnostics)
    (hdeep : ∀ name limit, .tooDeep name limit ∉ v.diagnostics) :
    FindsNearest v .methods name (v.method? name true) ∧
      FindsNearest v .classAttributes name (v.classAttribute? name true) ∧
      FindsNearest v .instanceAttributes name (v.instanceAttribute? name true) ∧
      FindsNearest v .properties name (v.property? name true) ∧
      ∃ found, v.nestedClass? name true = found.map (·.item.id) ∧
        FindsNearest v .nested name found := by
  have hsettled : v.graph.Settled v.context.maxDepth v.id v.id (v.chain true) :=
    BaseGraph.settled_linearize hcyclic hdeep
  have hnested : v.nestedClass? name true =
      (v.firstMember true (MemberKind.nested.first? name)).map (·.item.id) := by
    have hmap := firstMember_map v true (MemberKind.nested.first? name) (·.id)
    exact (congrArg (Option.map (·.item)) hmap).trans (Option.map_map ..)
  exact ⟨findsNearest_firstMember hsettled .methods name,
    findsNearest_firstMember hsettled .classAttributes name,
    findsNearest_firstMember hsettled .instanceAttributes name,
    findsNearest_firstMember hsettled .properties name,
    _, hnested, findsNearest_firstMember hsettled .nested name⟩

/-- The classes with crossed bases, where `A` and `Y` declare a method `f`, and `Y` does so
twice. -/
def overridingIndex : ClassIndex :=
  let f (doc : String) : Method := ⟨"f", .onInstance, [], [], none, some doc, false, ⟨0, 0, ""⟩⟩
  let index := ClassIndex.ofBases crossedBases
  { index with
    classes := index.classes.map fun d =>
      if d.name = "A" then { d with methods := [f "A"] }
      else if d.name = "Y" then { d with methods := [f "first", f "second"] }
      else d }

/-- The view of `W`, which reaches both. -/
def overridingView : View := ⟨overridingIndex, .ofBases crossedBases, .python3, ⟨5⟩, _, rfl⟩

/-- The bases of `Z` contradict each other, and nothing else is wrong. -/
theorem overridingView_diagnostics :
    overridingView.diagnostics = [.inconsistent "m.Z" ["m.X", "m.Y"]] := rfl

/-- The hypotheses of `inherited_members_nearest` are satisfiable: `W` finds a method `f`, it
is the first one of `Y`, and `A` does not derive from `Y`. -/
theorem inherited_members_nearest_crossed :
    ∃ m, overridingView.method? "f" true = some m ∧ m.owner = ⟨3⟩ ∧ m.item.doc = some "first" ∧
      MemberKind.methods.DeclaresFirst overridingIndex "f" ⟨3⟩ m.item ∧
      ¬ TransGen overridingView.graph.Edge ⟨0⟩ ⟨3⟩ := by
  have hcyclic : ∀ names, .cyclic names ∉ overridingView.diagnostics := fun names => by
    simp [overridingView_diagnostics]
  have hdeep : ∀ name limit, .tooDeep name limit ∉ overridingView.diagnostics :=
    fun name limit => by simp [overridingView_diagnostics]
  have hfound := (inherited_members_nearest overridingView "f" hcyclic hdeep).1
  have edge : overridingView.graph.Edge ⟨5⟩ ⟨0⟩ := by
    show ⟨0⟩ ∈ superClasses overridingView.index overridingView.resolver ⟨5⟩
    decide
  have hreached : overridingView.graph.Reaches overridingView.id ⟨0⟩ := .single edge
  have hdeclares : MemberKind.methods.Declares overridingView.index "f" ⟨0⟩ :=
    ⟨_, rfl, _, List.mem_cons_self, rfl⟩
  obtain ⟨m, hm⟩ := Option.isSome_iff_exists.1 (hfound.isSome_iff.2 ⟨_, hreached, hdeclares⟩)
  obtain rfl : m = ⟨⟨3⟩, _⟩ := (Option.some.inj hm).symm
  exact ⟨_, hm, rfl, rfl, hfound.first _ hm, hfound.notOverridden _ hm _ hreached hdeclares⟩

end Hierarchy
end Lineage
