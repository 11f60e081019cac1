/-
# What a class shares with its ancestors

If the longest chain followed is no shorter than the index, nothing is cut short: the class
and its ancestors are just the classes that it reaches (`mem_chain_iff_reaches`), whatever
cycles were cut and whatever orders contradict each other.  So the classes along the chain
of an ancestor are along that of the class as well.

What is asked about a class is asked of all the classes along its chain: that all of them
restrict their attributes, and then to which ones; that one of them makes the class
new-style; that one of them has a metaclass.  Hence an ancestor restricts its attributes if
the class does, to no others, and it hands down its style and that it has a metaclass
(`ancestors_hand_down`).
-/

import Lineage.Hierarchy.View
import Lineage.Proofs.Ancestry.Recomputation

namespace Lineage
namespace Hierarchy

variable {α β : Type} {v u : View} {c : ClassId} {d : ClassDecl} {n : String}
  {names more S : List String} {lists : List (List String)}

/-! ### The classes along the chain -/

namespace BaseGraph

variable {g : BaseGraph} {classes way : List ClassId} {a b : ClassId} {k : Nat}

/-- A clear path passes no more classes than there are. -/
theorem ClearPath.length_lt (h : g.ClearPath way k a b) (hclosed : g.ClosedUnder classes)
    (ha : a ∈ classes) (hway : way ⊆ classes) (hnodup : way.Nodup) :
    way.length + k < classes.length := by
  have hnext : ∀ {way a}, a ∈ classes → way ⊆ classes → way ++ [a] ⊆ classes :=
    fun ha hway => List.append_subset.2 ⟨hway, List.cons_subset.2 ⟨ha, List.nil_subset _⟩⟩
  have hfresh : ∀ {way : List ClassId} {a}, a ∉ way → way.Nodup → (way ++ [a]).Nodup :=
    fun ha hway => List.concat_eq_append ▸ hway.concat ha
  induction h with
  | here fresh =>
    have hle := (List.subperm_of_subset (hfresh fresh hnodup) (hnext ha hway)).length_le
    rwa [List.length_append, List.length_singleton] at hle
  | step fresh edge _ ih =>
    have hlt := ih (hclosed _ ha _ edge) (hnext ha hway) (hfresh fresh hnodup)
    rw [List.length_append, List.length_singleton] at hlt
    omega

end BaseGraph

/-- **The chain of a class is what the class reaches**, if chains as long as the index are
followed. -/
theorem mem_chain_iff_reaches (hdepth : v.index.size ≤ v.context.maxDepth) :
    c ∈ v.chain true ↔ v.graph.Reaches v.id c := by
  have hexplored := v.graph.explored_linearize v.context.maxDepth v.id
  refine ⟨hexplored.reaches c, fun h => ?_⟩
  obtain ⟨k, path⟩ := h.exists_clearPath
  refine (hexplored.complete k c path).resolve_right fun ⟨hlong, _⟩ => ?_
  have hid : v.id ∈ v.index.ids := mem_ids.2 (Option.isSome_of_eq_some v.isDeclared)
  have hlt := path.length_lt (fun _ _ _ hb => BaseGraph.mem_ids_of_edge hb) hid
    (List.nil_subset _) List.nodup_nil
  rw [length_ids, List.length_nil, Nat.zero_add] at hlt
  exact absurd (Nat.lt_of_lt_of_le hlt hdepth) (Nat.lt_asymm hlong)

/-- The classes along the chain are in the index. -/
theorem exists_get?_of_mem_chain (h : c ∈ v.chain true) : ∃ d, v.index.get? c = some d := by
  have hclosed : v.graph.ClosedUnder v.index.ids := fun _ _ _ hb => BaseGraph.mem_ids_of_edge hb
  have hid : v.id ∈ v.index.ids := mem_ids.2 (Option.isSome_of_eq_some v.isDeclared)
  have hreaches := (v.graph.explored_linearize v.context.maxDepth v.id).reaches c h
  exact Option.isSome_iff_exists.1 (mem_ids.1 (hclosed.mem_of_reaches hid hreaches))

/-- The declarations in question are those of the classes in the chain. -/
theorem mem_declared {inherited : Bool} :
    d ∈ v.declared inherited ↔ ∃ c ∈ v.chain inherited, v.index.get? c = some d :=
  List.mem_filterMap

/-! ### Slots -/

/-- A reading of every element gives the list of what each of them gives. -/
theorem mapM_eq_some_iff {f : α → Option β} {as : List α} {bs : List β} :
    as.mapM f = some bs ↔ List.Forall₂ (fun a b => f a = some b) as bs := by
  induction as generalizing bs with
  | nil => simp [eq_comm]
  | cons a as ih =>
    simp only [List.mapM_cons, Option.bind_eq_bind, Option.bind_eq_some_iff, ih,
      List.forall₂_cons_left_iff, Option.pure_def, Option.some.injEq]
    constructor
    · rintro ⟨b, hb, bs', hbs, rfl⟩
      exact ⟨b, bs', hb, hbs, rfl⟩
    · rintro ⟨b, bs', hb, hbs, rfl⟩
      exact ⟨b, hb, bs', hbs, rfl⟩

/-- All elements can be read just when each of them can. -/
theorem isSome_mapM_iff {f : α → Option β} {as : List α} :
    (as.mapM f).isSome ↔ ∀ a ∈ as, (f a).isSome := by
  induction as with
  | nil => simp
  | cons a as ih =>
    rw [List.forall_mem_cons, ← ih, List.mapM_cons]
    cases f a with
    | none => simp
    | some b => cases as.mapM f <;> simp

namespace View

/-- Adding new names to a list adds each of them. -/
theorem mem_addNew : n ∈ addNew names more ↔ n ∈ names ∨ n ∈ more := by
  unfold addNew
  induction more generalizing names with
  | nil => simp
  | cons m more ih =>
    rw [List.foldl_cons, ih, List.mem_cons]
    by_cases hm : m ∈ names
    · rw [if_pos (List.contains_iff_mem.2 hm)]
      constructor
      · exact fun h => h.imp_right .inr
      · rintro (h | rfl | h)
        exacts [.inl h, .inl hm, .inr h]
    · rw [if_neg (by simpa using hm), List.mem_append, List.mem_singleton, or_assoc]

/-- Adding new names to a list repeats none. -/
theorem nodup_addNew (h : names.Nodup) : (addNew names more).Nodup := by
  unfold addNew
  induction more generalizing names with
  | nil => exact h
  | cons m more ih =>
    rw [List.foldl_cons]
    refine ih ?_
    by_cases hm : m ∈ names
    · rwa [if_pos (List.contains_iff_mem.2 hm)]
    · rw [if_neg (by simpa using hm)]
      exact List.concat_eq_append ▸ h.concat hm

/-- Adding lists of names one after another adds each of their names. -/
theorem mem_foldl_addNew :
    n ∈ lists.foldl addNew names ↔ n ∈ names ∨ ∃ l ∈ lists, n ∈ l := by
  induction lists generalizing names with
  | nil => simp
  | cons l lists ih => simp [ih, mem_addNew, or_assoc]

/-- Adding lists of names one after another repeats none of them. -/
theorem nodup_foldl_addNew (h : names.Nodup) : (lists.foldl addNew names).Nodup := by
  induction lists generalizing names with
  | nil => exact h
  | cons l lists ih => exact ih (nodup_addNew h)

end View

/-- The slots are those of the class and its ancestors, each of them once. -/
structure GathersSlots (v : View) (S : List String) : Prop where
  nodup : S.Nodup
  mem_iff : ∀ n, n ∈ S ↔ ∃ d ∈ v.declared true, ∃ slots, View.slotsOf d = some slots ∧ n ∈ slots

/-- A class has slots just when every declaration that it inherits has. -/
theorem isSome_effectiveSlots_iff :
    v.effectiveSlots.isSome ↔ ∀ d ∈ v.declared true, (View.slotsOf d).isSome := by
  rw [View.effectiveSlots, Option.isSome_map, isSome_mapM_iff]

/-- The slots of a class are those that its declarations gather. -/
theorem gathersSlots_of_eq_some (h : v.effectiveSlots = some S) : GathersSlots v S := by
  obtain ⟨lists, hlists, rfl⟩ := Option.map_eq_some_iff.1 h
  have hall := mapM_eq_some_iff.1 hlists
  refine ⟨View.nodup_foldl_addNew List.nodup_nil, fun n => ?_⟩
  rw [View.mem_foldl_addNew]
  constructor
  · rintro (hn | ⟨l, hl, hn⟩)
    · cases hn
    · obtain ⟨d, hd, hslots⟩ := exists_mem_of_forall₂ hall.flip hl
      exact ⟨d, hd, l, hslots, hn⟩
  · rintro ⟨d, hd, slots, hslots, hn⟩
    obtain ⟨l, hl, heq⟩ := exists_mem_of_forall₂ hall hd
    obtain rfl := Option.some.inj (hslots.symm.trans heq)
    exact .inr ⟨slots, hl, hn⟩

/-! ### Ancestors -/

/-- A member is found just when some declaration in question has one. -/
theorem isSome_firstMember_iff {inherited : Bool} {pick : ClassDecl → Option α} :
    (v.firstMember inherited pick).isSome ↔ ∃ d ∈ v.declared inherited, (pick d).isSome := by
  rw [View.firstMember, List.findSome?_isSome_iff]
  constructor
  · rintro ⟨c, hc, hfound⟩
    obtain ⟨item, hitem⟩ := Option.isSome_iff_exists.1 (Option.isSome_map ▸ hfound)
    obtain ⟨d, hd, hpick⟩ := Option.bind_eq_some_iff.1 hitem
    exact ⟨d, mem_declared.2 ⟨c, hc, hd⟩, Option.isSome_of_eq_some hpick⟩
  · rintro ⟨d, hd, hpick⟩
    obtain ⟨c, hc, hget⟩ := mem_declared.1 hd
    exact ⟨c, hc, by rwa [Option.isSome_map, hget, Option.bind_some]⟩

/-- The chain of an ancestor is part of that of the class. -/
theorem declared_subset_of_mem_ancestors (hdepth : v.index.size ≤ v.context.maxDepth)
    (hindex : u.index = v.index) (hresolver : u.resolver = v.resolver)
    (hcontext : u.context = v.context) (hu : u.id ∈ v.ancestors) :
    u.declared true ⊆ v.declared true := by
  have hgraph : u.graph = v.graph := by rw [View.graph, View.graph, hindex, hresolver]
  intro d hd
  obtain ⟨c, hc, hget⟩ := mem_declared.1 hd
  rw [mem_chain_iff_reaches (hindex ▸ hcontext ▸ hdepth), hgraph] at hc
  have hreaches := (mem_chain_iff_reaches hdepth).1 (List.mem_cons_of_mem v.id hu)
  exact mem_declared.2 ⟨c, (mem_chain_iff_reaches hdepth).2 (hreaches.trans hc), hindex ▸ hget⟩

/-- **What a class has of its ancestors.**  In any hierarchy, cyclic or inconsistent, and if
chains as long as the index are followed: no slot of a class is repeated, and an ancestor of a
class with restricted attributes has no slots but slots of the class; what an ancestor is or
has, new-style or a metaclass, the class is or has too. -/
theorem ancestors_hand_down (v : View) (hdepth : v.index.size ≤ v.context.maxDepth) :
    (∀ S, v.effectiveSlots = some S → S.Nodup) ∧
      ∀ a ∈ v.ancestors, ∃ u, v.index.view? v.resolver v.context a = some u ∧
        (∀ S, v.effectiveSlots = some S → ∃ T, u.effectiveSlots = some T ∧ T ⊆ S) ∧
        (u.isNewStyle = true → v.isNewStyle = true) ∧
        (u.metaclass.isSome → v.metaclass.isSome) := by
  refine ⟨fun S hS => (gathersSlots_of_eq_some hS).nodup, fun a ha => ?_⟩
  obtain ⟨d, hd⟩ := exists_get?_of_mem_chain (List.mem_cons_of_mem v.id ha)
  obtain ⟨u, hu⟩ := ClassIndex.exists_view? hd v.resolver v.context
  obtain ⟨hindex, hresolver, hcontext, rfl⟩ := view?_eq_some hu
  have hsubset := declared_subset_of_mem_ancestors hdepth hindex hresolver hcontext ha
  refine ⟨u, hu, fun S hS => ?_, fun hstyle => ?_, fun hmetaclass => ?_⟩
  · have hall := isSome_effectiveSlots_iff.1 (Option.isSome_of_eq_some hS)
    obtain ⟨T, hT⟩ := Option.isSome_iff_exists.1
      (isSome_effectiveSlots_iff.2 fun d hd => hall d (hsubset hd))
    refine ⟨T, hT, fun n hn => ?_⟩
    obtain ⟨d, hd, hslots⟩ := ((gathersSlots_of_eq_some hT).mem_iff n).1 hn
    exact ((gathersSlots_of_eq_some hS).mem_iff n).2 ⟨d, hsubset hd, hslots⟩
  · unfold View.isNewStyle at hstyle ⊢
    rw [hcontext] at hstyle
    rw [Bool.or_eq_true, List.any_eq_true] at hstyle ⊢
    exact hstyle.imp_right fun ⟨d, hd, hmakes⟩ => ⟨d, hsubset hd, hmakes⟩
  · obtain ⟨d, hd, hpick⟩ := isSome_firstMember_iff.1 hmetaclass
    exact isSome_firstMember_iff.2 ⟨d, hsubset hd, hpick⟩

/-- The tangled classes with slots of their own and one that all of them have, and a metaclass
of `A`. -/
def slottedIndex : ClassIndex :=
  let index := ClassIndex.ofBases tangledBases
  { index with
    classes := index.classes.map fun d =>
      { d with
        slots := some ["shared", d.name]
        metaclass := if d.name = "A" then some (.name "M" ⟨0, 0, ""⟩) else none } }

/-- The view of `R` at the old level of the language. -/
def slottedView : View := ⟨slottedIndex, .ofBases tangledBases, ⟨.python2, 8⟩, ⟨7⟩, _, rfl⟩

/-- The view of `P`. -/
def slottedBaseView : View := ⟨slottedIndex, .ofBases tangledBases, ⟨.python2, 8⟩, ⟨5⟩, _, rfl⟩

/-- The hypothesis of `ancestors_hand_down` is satisfiable: `P` is on a cycle below `R`, where
the bases of `Z` contradict each other too, and `R` has its slots, its style and its
metaclass. -/
theorem ancestors_hand_down_slotted : slottedView.index.size ≤ slottedView.context.maxDepth ∧
    slottedBaseView.effectiveSlots = some ["shared", "P", "Q", "Z", "X", "Y", "B", "A"] ∧
    ∃ S, slottedView.effectiveSlots = some S ∧ S.Nodup ∧
      ["shared", "P", "Q", "Z", "X", "Y", "B", "A"] ⊆ S ∧
      slottedView.isNewStyle = true ∧ slottedView.metaclass.isSome := by
  have hdepth : slottedView.index.size ≤ slottedView.context.maxDepth := by decide
  have hslots : slottedBaseView.effectiveSlots =
      some ["shared", "P", "Q", "Z", "X", "Y", "B", "A"] := rfl
  obtain ⟨S, hS⟩ : ∃ S, slottedView.effectiveSlots = some S := ⟨_, rfl⟩
  obtain ⟨hnodup, hancestors⟩ := ancestors_hand_down slottedView hdepth
  obtain ⟨u, hu, hgathers, hstyle, hmetaclass⟩ := hancestors ⟨5⟩ (by decide)
  obtain rfl : slottedBaseView = u := Option.some.inj hu
  obtain ⟨T, hT, hsubset⟩ := hgathers S hS
  obtain rfl := Option.some.inj (hslots.symm.trans hT)
  exact ⟨hdepth, hslots, S, hS, hnodup S hS, hsubset, hstyle rfl, hmetaclass rfl⟩

end Hierarchy
end Lineage
