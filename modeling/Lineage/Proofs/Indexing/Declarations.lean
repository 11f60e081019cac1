/-
# Declarations in the order of the source

The declarations of a class come from three lists, and are sorted by where they start.  The
starts of nested classes are found in the index, which lists the classes of every body in
order (`listsBody_ofModules`).

A stable sort keeps each of the three lists, since each is in order by itself
(`filterMap_mergeSort`).  Between them the order is that of the statements: two declarations
are names that one statement binds, or the stretches of source that they have lie one behind the
other, and so do they in the list (`classDeclarations_inSourceOrder`).
-/

import Lineage.Hierarchy.View
import Lineage.Proofs.Indexing.Growth
import Lineage.Proofs.Outline.Statements

namespace Lineage
namespace Hierarchy

open Outline Source

/-! ### Bodies in an index -/

namespace ClassIndex

variable {index index' index'' : ClassIndex} {module scope : String}
  {container : Option ClassId} {d : ClassDecl} {id : ClassId}
  {nested nested' : List NestedClass} {c : ClassOutline} {cs cs' : List ClassOutline}
  {builtins : Bool} {modules : List (String × ModuleOutline)}

/-- The nested classes are those of a body, in order. -/
def ListsBody (index : ClassIndex) (module : String) :
    List NestedClass → List ClassOutline → Prop :=
  List.Forall₂ fun n c => n.name = c.name ∧ ∃ d, index.get? n.id = some d ∧ d.Describes module c

/-- Listed bodies stay listed as the index is extended. -/
theorem ListsBody.of_extends (h : index.ListsBody module nested cs)
    (hextends : Extends container index index') : index'.ListsBody module nested cs := by
  refine List.Forall₂.imp (fun n c ⟨hname, d, hd, hdescribes⟩ => ?_) h
  obtain ⟨more, hd', _⟩ := hextends n.id d hd
  exact ⟨hname, _, hd', hdescribes.withNested more⟩

/-- The classes of two bodies behind each other are listed so. -/
theorem ListsBody.append (h : index.ListsBody module nested cs)
    (h' : index.ListsBody module nested' cs') :
    index.ListsBody module (nested ++ nested') (cs ++ cs') :=
  List.rel_append h h'

/-- The classes side by side have been added to their container, and each of them and of those in
them lists the classes in its body. -/
structure AddsBodies (module : String) (container : Option ClassId) (cs : List ClassOutline)
    (index index' : ClassIndex) : Prop where
  old : ∀ {id d}, index.get? id = some d → ∃ nested, index'.get? id = some (d.withNested nested) ∧
    (container = some id → index'.ListsBody module nested cs) ∧
    (container ≠ some id → nested = [])
  new : ∀ {id d}, index'.get? id = some d → index.get? id = none →
    ∃ k ∈ preorderAll cs, d.Describes module k ∧ index'.ListsBody module d.nested k.classes

/-- Without classes nothing is added. -/
theorem AddsBodies.nil (module : String) (container : Option ClassId) (index : ClassIndex) :
    AddsBodies module container [] index index where
  old hd := ⟨[], by rw [ClassDecl.withNested_nil]; exact hd, fun _ => .nil, fun _ => rfl⟩
  new hd hnone := by
    rw [hnone] at hd
    cases hd

/-- An index to which bodies are added is extended. -/
theorem AddsBodies.extends (h : AddsBodies module container cs index index') :
    Extends container index index' := fun _ _ hd =>
  have ⟨nested, hd', _, hnested⟩ := h.old hd
  ⟨nested, hd', hnested⟩

/-- More classes side by side. -/
theorem AddsBodies.append (h : AddsBodies module container cs index index')
    (h' : AddsBodies module container cs' index' index'')
    (hcontainer : ∀ p, container = some p → ∃ d, index.get? p = some d) :
    AddsBodies module container (cs ++ cs') index index'' where
  old hd := by
    obtain ⟨nested, hd', hlists, hnested⟩ := h.old hd
    obtain ⟨nested', hd'', hlists', hnested'⟩ := h'.old hd'
    refine ⟨nested ++ nested', by rw [hd'', ClassDecl.withNested_withNested], fun heq => ?_,
      fun hne => by rw [hnested hne, hnested' hne, List.append_nil]⟩
    exact ((hlists heq).of_extends h'.extends).append (hlists' heq)
  new {id d} hd hnone := by
    cases he : index'.get? id with
    | none =>
      obtain ⟨k, hk, hadded⟩ := h'.new hd he
      exact ⟨k, preorderAll_append cs cs' ▸ List.mem_append_right _ hk, hadded⟩
    | some e =>
      obtain ⟨k, hk, hdescribes, hlists⟩ := h.new he hnone
      -- a class that has just been added is no container of the next one
      have hne : container ≠ some id := fun heq => by
        obtain ⟨_, hp⟩ := hcontainer id heq
        rw [hnone] at hp
        cases hp
      obtain rfl := Option.some.inj (hd.symm.trans (h'.extends.get?_of_ne he hne))
      exact ⟨k, preorderAll_append cs cs' ▸ List.mem_append_left _ hk, hdescribes,
        hlists.of_extends h'.extends⟩

/-- A class with those in its body. -/
theorem addsBodies_enter (h : index.IsScope module scope container) (c : ClassOutline)
    (hbody : AddsBodies module (some index.nextId) c.classes
      (index.enter (.ofOutline index.nextId module (dotted scope c.name) container c)) index') :
    AddsBodies module container [c] index index' := by
  have hadmits := admits_ofOutline h c
  obtain ⟨nested, hnew, hlists, _⟩ :=
    hbody.old ((get?_enter_eq_some_iff hadmits).2 (.inl ⟨rfl, rfl⟩))
  constructor
  · intro id d hd
    have hne : some index.nextId ≠ some id := fun heq =>
      Nat.lt_irrefl _ (Option.some.inj heq ▸ lt_size hd : index.nextId.val < index.size)
    have hd' := hbody.extends.get?_of_ne
      ((get?_enter_eq_some_iff hadmits).2 (.inr ⟨d, hd, rfl⟩)) hne
    refine ⟨_, hd', fun heq => ?_, fun hne => if_neg hne⟩
    have hone : index'.ListsBody module [⟨c.name, index.nextId⟩] [c] :=
      .cons ⟨rfl, _, hnew, (ClassDecl.describes_ofOutline ..).withNested nested⟩ .nil
    exact (if_pos heq).symm ▸ hone
  · intro id d hd hnone
    rw [preorderAll_singleton]
    cases he : (index.enter (.ofOutline index.nextId module (dotted scope c.name) container
        c)).get? id with
    | none =>
      obtain ⟨k, hk, hadded⟩ := hbody.new hd he
      exact ⟨k, mem_preorder.2 (.inr hk), hadded⟩
    | some e =>
      rcases (get?_enter_eq_some_iff hadmits).1 he with ⟨rfl, rfl⟩ | ⟨_, hold, _⟩
      · obtain rfl := Option.some.inj (hd.symm.trans hnew)
        exact ⟨c, mem_preorder.2 (.inl rfl), (ClassDecl.describes_ofOutline ..).withNested nested,
          hlists rfl⟩
      · rw [hnone] at hold
        cases hold

/-- Classes side by side are added with their bodies. -/
theorem addsBodies_addClasses (h : index.IsScope module scope container)
    (cs : List ClassOutline) :
    AddsBodies module container cs index (index.addClasses module scope container cs).1 := by
  refine (forest_induction
    (P := fun c => ∀ (index : ClassIndex) (scope : String) (container : Option ClassId),
      index.IsScope module scope container →
        AddsBodies module container [c] index (index.addClass module scope container c).1)
    (Q := fun cs => ∀ (index : ClassIndex) (scope : String) (container : Option ClassId),
      index.IsScope module scope container →
        AddsBodies module container cs index (index.addClasses module scope container cs).1)
    ?_ ?_ ?_).2 cs index scope container h
  · intro c ih index scope container h
    rw [addClass_eq]
    exact addsBodies_enter h c (ih _ _ _ (isScope_body h c))
  · intro index scope container _
    exact .nil module container index
  · intro c cs ihc ihcs index scope container h
    have hc := ihc index scope container h
    rw [addClasses_cons]
    refine hc.append (ihcs _ _ _ (h.of_extends hc.extends)) ?_
    rintro p rfl
    exact exists_get? h.lt_size

/-- A module is added with the bodies of its classes. -/
theorem addsBodies_addModule (index : ClassIndex) (module : String) (m : ModuleOutline) :
    AddsBodies module none m.classes index (index.addModule module m).1 := by
  have h := addsBodies_addClasses (isScope_top index module) m.classes
  rw [addModule_eq]
  constructor <;> simp only [ListsBody, get?_addModuleName]
  · exact h.old
  · exact h.new

/-- **Every class of the index lists the classes in its body**, in order: it is the builtin one,
which has none, or is declared by one of the modules. -/
theorem listsBody_ofModules (hd : (ofModules builtins modules).get? id = some d) :
    d = .synthetic ⟨0⟩ builtinsModule "object" ∨
      ∃ m ∈ modules, ∃ k ∈ preorderAll m.2.classes, d.Describes m.1 k ∧
        (ofModules builtins modules).ListsBody m.1 d.nested k.classes := by
  induction modules using List.reverseRecOn with
  | nil =>
    refine (declared_ofModules hd).imp_right ?_
    rintro ⟨m, hm, _⟩
    cases hm
  | append_singleton modules m ih =>
    have hadds := addsBodies_addModule (ofModules builtins modules) m.1 m.2
    rw [ofModules_concat] at hd ⊢
    cases he : (ofModules builtins modules).get? id with
    | none =>
      obtain ⟨k, hk, hadded⟩ := hadds.new hd he
      exact .inr ⟨m, List.mem_append_right _ List.mem_cons_self, k, hk, hadded⟩
    | some e =>
      obtain rfl := Option.some.inj (hd.symm.trans (hadds.extends.get?_of_ne he nofun))
      refine (ih he).imp_right fun ⟨m', hm', k, hk, hdescribes, hlists⟩ => ?_
      exact ⟨m', List.mem_append_left _ hm', k, hk, hdescribes, hlists.of_extends hadds.extends⟩

end ClassIndex

/-! ### Sorting -/

/-- A stable sort keeps the order of what is selected, if that is in order. -/
theorem filterMap_mergeSort {α β : Type} {key : α → Nat} {select : α → Option β} {l c : List α}
    (hsub : c.Sublist l) (hselect : l.filterMap select = c.filterMap select)
    (hsorted : c.Pairwise fun a b => key a ≤ key b) :
    (l.mergeSort fun a b => key a ≤ key b).filterMap select = l.filterMap select := by
  have hkept : c.Sublist (l.mergeSort fun a b => key a ≤ key b) := by
    refine List.sublist_mergeSort (fun a b c hab hbc => ?_) (fun a b => ?_) (hsorted.imp ?_) hsub
    · exact decide_eq_true (Nat.le_trans (of_decide_eq_true hab) (of_decide_eq_true hbc))
    · simpa using Nat.le_total (key a) (key b)
    · exact fun hab => decide_eq_true hab
  have hperm := (List.mergeSort_perm l fun a b => key a ≤ key b).filterMap select
  rw [hselect] at hperm ⊢
  exact ((hkept.filterMap select).eq_of_length hperm.length_eq.symm).symm

/-- A list that is sorted by a key has its keys in order. -/
theorem pairwise_mergeSort_key {α : Type} (key : α → Nat) (l : List α) :
    (l.mergeSort fun a b => key a ≤ key b).Pairwise fun a b => key a ≤ key b := by
  refine (List.pairwise_mergeSort (fun a b c hab hbc => ?_) (fun a b => ?_) l).imp ?_
  · exact decide_eq_true (Nat.le_trans (of_decide_eq_true hab) (of_decide_eq_true hbc))
  · simpa using Nat.le_total (key a) (key b)
  · exact fun hab => of_decide_eq_true hab

/-! ### Kinds and stretches -/

namespace Declaration

/-- The attribute that is declared. -/
def attribute? : Declaration → Option Binding
  | .attribute b => some b
  | _ => none

/-- The method that is declared. -/
def method? : Declaration → Option Method
  | .method m => some m
  | _ => none

/-- The nested class that is declared. -/
def nested? : Declaration → Option NestedClass
  | .nested n => some n
  | _ => none

/-- One statement binds both names. -/
inductive Together : Declaration → Declaration → Prop
  | attributes {b b' : Binding} (h : b.Together b') : Together (.attribute b) (.attribute b')

/-- One statement binds both names, whichever comes first. -/
theorem Together.symm {a b : Declaration} : a.Together b → b.Together a
  | .attributes h => .attributes ⟨h.1.symm, h.2.symm⟩

end Declaration

namespace View

variable {v : View} {a b : Declaration}

/-- The stretch of the source that a declaration has. -/
def spanOf (v : View) : Declaration → Span
  | .attribute b => b.span
  | .method m => m.span
  | .nested n => ((v.index.get? n.id).map (·.span)).getD ⟨0, 0, ""⟩

/-- A declaration starts where its span does. -/
theorem startOf_eq (v : View) : ∀ a, v.startOf a = (v.spanOf a).start
  | .attribute _ => rfl
  | .method _ => rfl
  | .nested n => by
    rw [startOf, spanOf]
    cases v.index.get? n.id <;> rfl

/-- The methods and nested classes of the class. -/
def definitions (v : View) : List Declaration :=
  v.decl.methods.map Declaration.method ++ v.decl.nested.map Declaration.nested

/-- The declarations of the class, before they are sorted. -/
def unsorted (v : View) : List Declaration :=
  v.decl.classAttributes.map Declaration.attribute ++ v.definitions

/-- The declarations are sorted by where they start. -/
theorem classDeclarations_eq (v : View) :
    v.classDeclarations = v.unsorted.mergeSort fun a b => v.startOf a ≤ v.startOf b := by
  rw [classDeclarations, unsorted, definitions, List.append_assoc]

/-- The declarations of one kind keep their order, if it is that of the source. -/
theorem filterMap_classDeclarations {α : Type} {kind : α → Declaration}
    {select : Declaration → Option α} {xs : List α} (hkind : ∀ x, select (kind x) = some x)
    (hsub : (xs.map kind).Sublist v.unsorted) (hselect : v.unsorted.filterMap select = xs)
    (hsorted : (xs.map kind).Pairwise fun a b => v.startOf a ≤ v.startOf b) :
    v.classDeclarations.filterMap select = xs := by
  have hxs : (xs.map kind).filterMap select = xs := by
    rw [List.filterMap_map, show select ∘ kind = some from funext hkind, List.filterMap_some]
  rw [classDeclarations_eq, filterMap_mergeSort hsub (hselect.trans hxs.symm) hsorted, hselect]

/-- The declarations are those of the class, each of them once, in the order of the source. -/
structure InSourceOrder (v : View) (declarations : List Declaration) : Prop where
  perm : declarations.Perm v.unsorted
  attributes : declarations.filterMap Declaration.attribute? = v.decl.classAttributes
  methods : declarations.filterMap Declaration.method? = v.decl.methods
  nested : declarations.filterMap Declaration.nested? = v.decl.nested
  sorted : declarations.Pairwise fun a b => v.startOf a ≤ v.startOf b
  /-- Of two declarations the first one ends before the other one starts, or one statement
  binds both. -/
  written : declarations.Pairwise fun a b => a.Together b ∨ (v.spanOf a).stop ≤ v.startOf b

/-! ### Declarations of a source -/

/-- The class is one of a source: what it declares is what the outline has, its bindings are in
the order of their statements, and its definitions are apart from them and from each other. -/
structure IsRead (v : View) (text : List Char) (k : ClassOutline) : Prop where
  attributes : v.decl.classAttributes = k.bindings
  methods : v.decl.methods = k.methods.map Method.ofOutline
  nested : (v.decl.nested.map Declaration.nested).map v.spanOf = k.classes.map (·.span)
  body : FaithfulBody text k.span.start k.span.stop k.methods k.bindings k.classes
  ordered : InStatements k.bindings

namespace IsRead

variable {text : List Char} {k : ClassOutline} (h : v.IsRead text k)

include h

/-- The methods of the class have the spans of those in the outline. -/
theorem map_methods :
    (v.decl.methods.map Declaration.method).map v.spanOf = k.methods.map (·.span) := by
  rw [h.methods, List.map_map, List.map_map]
  rfl

/-- The definitions of the class have the spans of those in the outline. -/
theorem map_definitions : v.definitions.map v.spanOf = definitionSpans k.methods k.classes := by
  rw [definitions, List.map_append, h.map_methods, h.nested]
  rfl

/-- Every declaration has a stretch of the source. -/
theorem start_lt (ha : a ∈ v.unsorted) : (v.spanOf a).start < (v.spanOf a).stop := by
  rcases List.mem_append.1 ha with ha | ha
  · obtain ⟨b, hb, rfl⟩ := List.mem_map.1 ha
    exact h.ordered.start_lt b (h.attributes ▸ hb)
  · have hspan := h.map_definitions ▸ List.mem_map_of_mem (f := v.spanOf) ha
    rcases List.mem_append.1 hspan with hspan | hspan
    · obtain ⟨f, hf, heq⟩ := List.mem_map.1 hspan
      exact heq ▸ (h.body.method f hf).start_lt
    · obtain ⟨j, hj, heq⟩ := List.mem_map.1 hspan
      exact heq ▸ (h.body.nested j hj).2

/-- One statement binds both, or their stretches of the source are apart. -/
theorem apart : v.unsorted.Pairwise fun a b =>
    a.Together b ∨ (v.spanOf a).Disjoint (v.spanOf b) := by
  refine List.pairwise_append.2 ⟨List.pairwise_map.2 ?_, ?_, fun a ha b hb => .inr ?_⟩
  · rw [h.attributes]
    exact h.ordered.ordered.imp fun hab => hab.imp .attributes .inl
  · exact (List.pairwise_map.1 (h.map_definitions ▸ h.body.disjoint)).imp .inr
  · obtain ⟨x, hx, rfl⟩ := List.mem_map.1 ha
    exact h.body.bindings_disjoint x (h.attributes ▸ hx) _
      (h.map_definitions ▸ List.mem_map_of_mem hb)

/-- The attributes are listed in the order of the source. -/
theorem attributes_sorted : (v.decl.classAttributes.map Declaration.attribute).Pairwise
    fun a b => v.startOf a ≤ v.startOf b := by
  rw [h.attributes]
  exact List.pairwise_map.2 h.body.bindings_sorted

/-- The methods are listed in the order of the source. -/
theorem methods_sorted : (v.decl.methods.map Declaration.method).Pairwise
    fun a b => v.startOf a ≤ v.startOf b := by
  rw [h.methods, List.map_map]
  exact List.pairwise_map.2 (h.body.methods_sorted.imp Nat.le_of_lt)

/-- The nested classes are listed in the order of the source. -/
theorem nested_sorted : (v.decl.nested.map Declaration.nested).Pairwise
    fun a b => v.startOf a ≤ v.startOf b := by
  have hspans : ((v.decl.nested.map Declaration.nested).map v.spanOf).Pairwise
      (·.start < ·.start) := h.nested ▸ List.pairwise_map.2 h.body.classes_sorted
  refine (List.pairwise_map.1 hspans).imp fun hab => ?_
  rw [startOf_eq, startOf_eq]
  exact Nat.le_of_lt hab

/-- **Sorted by where they start, the declarations are in the order of the source.** -/
theorem inSourceOrder : v.InSourceOrder v.classDeclarations := by
  have hperm : v.classDeclarations.Perm v.unsorted :=
    v.classDeclarations_eq ▸ List.mergeSort_perm ..
  have hsorted : v.classDeclarations.Pairwise fun a b => v.startOf a ≤ v.startOf b :=
    v.classDeclarations_eq ▸ pairwise_mergeSort_key v.startOf v.unsorted
  have hdefinitions := List.sublist_append_right
    (v.decl.classAttributes.map Declaration.attribute) v.definitions
  have hapart : v.classDeclarations.Pairwise fun a b =>
      a.Together b ∨ (v.spanOf a).Disjoint (v.spanOf b) :=
    (hperm.pairwise_iff fun hab => hab.imp Declaration.Together.symm Span.Disjoint.symm).2 h.apart
  refine ⟨hperm, ?_, ?_, ?_, hsorted, ?_⟩
  · exact filterMap_classDeclarations (fun _ => rfl) (List.sublist_append_left ..)
      (by simp [unsorted, definitions, Declaration.attribute?, Function.comp_def])
      h.attributes_sorted
  · exact filterMap_classDeclarations (fun _ => rfl)
      ((List.sublist_append_left ..).trans hdefinitions)
      (by simp [unsorted, definitions, Declaration.method?, Function.comp_def]) h.methods_sorted
  · exact filterMap_classDeclarations (fun _ => rfl)
      ((List.sublist_append_right ..).trans hdefinitions)
      (by simp [unsorted, definitions, Declaration.nested?, Function.comp_def]) h.nested_sorted
  · refine (hapart.and hsorted).imp_of_mem fun {a b} _ hb ⟨hab, hle⟩ => hab.imp_right fun hab => ?_
    -- the one that stops before the other one starts is the one that starts first
    have hstart := h.start_lt (hperm.mem_iff.1 hb)
    rw [startOf_eq, startOf_eq] at hle
    rw [startOf_eq]
    exact hab.resolve_right fun hstop => by omega

end IsRead

/-- Listed classes have the spans of those in the body. -/
theorem map_spanOf_nested {module : String} {nested : List NestedClass} {cs : List ClassOutline}
    (h : v.index.ListsBody module nested cs) :
    (nested.map Declaration.nested).map v.spanOf = cs.map (·.span) := by
  induction h with
  | nil => rfl
  | cons hn _ ih =>
    obtain ⟨_, d, hd, hdescribes⟩ := hn
    rw [List.map_cons, List.map_cons, List.map_cons, ih, spanOf, hd]
    exact congrArg (· :: _) (congrArg (·.span) hdescribes)

/-- A class that is declared by an outline is as that is read. -/
theorem isRead_of_parse {source path module : String} {m : ModuleOutline} {k : ClassOutline}
    (h : parse source path = .outline m) (hk : k ∈ preorderAll m.classes)
    (hdescribes : v.decl.Describes module k)
    (hlists : v.index.ListsBody module v.decl.nested k.classes) : v.IsRead source.toList k where
  attributes := congrArg (·.classAttributes) hdescribes
  methods := congrArg (·.methods) hdescribes
  nested := map_spanOf_nested hlists
  body := (faithful_class_of_parse h hk).body
  ordered := inStatements_of_parse h hk

/-- A class that declares nothing is in source order. -/
theorem inSourceOrder_of_unsorted_eq_nil (h : v.unsorted = []) :
    v.InSourceOrder v.classDeclarations := by
  obtain ⟨hdefined, hdefinitions⟩ := List.append_eq_nil_iff.1 h
  obtain ⟨hmethods, hnested⟩ := List.append_eq_nil_iff.1 hdefinitions
  rw [classDeclarations_eq, h, List.mergeSort_nil]
  exact ⟨h ▸ .nil, (List.map_eq_nil_iff.1 hdefined).symm, (List.map_eq_nil_iff.1 hmethods).symm,
    (List.map_eq_nil_iff.1 hnested).symm, .nil, .nil⟩

/-- **The declarations of a class are those of its body, each of them once, in the order of the
source.**  Attributes, methods and nested classes keep their order, the starts do not decrease,
and of two declarations of different statements the first one ends before the other one starts.
The class is the builtin one, which has no declarations, or a class of one of the modules, whose
nested classes are the classes of the index that stand for those in its body. -/
theorem classDeclarations_inSourceOrder {builtins : Bool}
    {modules : List (String × ModuleOutline)} {resolver : Resolver} {context : Context}
    {id : ClassId} (hmodules : ∀ m ∈ modules, IsParsed m.2)
    (hv : (ClassIndex.ofModules builtins modules).view? resolver context id = some v) :
    v.InSourceOrder v.classDeclarations ∧
      (v.decl = .synthetic ⟨0⟩ builtinsModule "object" ∨
        ∃ m ∈ modules, ∃ k ∈ preorderAll m.2.classes, v.decl.Describes m.1 k ∧
          v.index.ListsBody m.1 v.decl.nested k.classes) := by
  obtain ⟨hindex, _⟩ := view?_eq_some hv
  have hd := v.isDeclared
  rw [hindex] at hd
  rcases ClassIndex.listsBody_ofModules hd with hobject | ⟨m, hm, k, hk, hdescribes, hlists⟩
  · refine ⟨inSourceOrder_of_unsorted_eq_nil ?_, .inl hobject⟩
    rw [unsorted, definitions, hobject]
    rfl
  · obtain ⟨_, _, hparse⟩ := hmodules m hm
    rw [← hindex] at hlists
    exact ⟨(isRead_of_parse hparse hk hdescribes hlists).inSourceOrder,
      .inr ⟨m, hm, k, hk, hdescribes, hlists⟩⟩

end View

/-- A class whose attributes stand around its definitions, two of them bound by one statement. -/
def mixedBody : String := "class A:\n x = y = 1\n class K: 0\n @d\n def f(self): 0\n z = 2\n"

/-- The hypotheses of `classDeclarations_inSourceOrder` are satisfiable: all declarations of `A`
are there. -/
theorem classDeclarations_mixedBody : ∃ m, parse mixedBody "" = .outline m ∧
    ∃ v, (ClassIndex.ofModules true [("m", m)]).view? (.names false) .python3 ⟨1⟩ = some v ∧
      (v.classDeclarations.filterMap Declaration.attribute?).map (·.target) = ["x", "y", "z"] ∧
      (v.classDeclarations.filterMap Declaration.method?).map (·.name) = ["f"] ∧
      v.classDeclarations.filterMap Declaration.nested? = [⟨"K", ⟨2⟩⟩] := by
  obtain ⟨m, hm, hdecl⟩ := exists_outline mixedBody "" (fun m =>
    ((ClassIndex.ofModules true [("m", m)]).get? ⟨1⟩).any fun d =>
      d.classAttributes.map (·.target) == ["x", "y", "z"] && d.methods.map (·.name) == ["f"] &&
        d.nested == [⟨"K", ⟨2⟩⟩]) (by decide +kernel)
  obtain ⟨d, hd, hparts⟩ := (Option.any_eq_true ..).1 hdecl
  simp only [Bool.and_eq_true, beq_iff_eq] at hparts
  obtain ⟨v, hv⟩ := ClassIndex.exists_view? hd (.names false) .python3
  have hmodules : ∀ entry ∈ [("m", m)], IsParsed entry.2 :=
    fun entry hentry => List.mem_singleton.1 hentry ▸ ⟨mixedBody, "", hm⟩
  have horder := (View.classDeclarations_inSourceOrder hmodules hv).1
  obtain ⟨hindex, _, _, hid⟩ := view?_eq_some hv
  have heq : v.decl = d := Option.some.inj (v.isDeclared.symm.trans (hindex ▸ hid ▸ hd))
  rw [← heq] at hparts
  exact ⟨m, hm, v, hv, by rw [horder.attributes, hparts.1.1], by rw [horder.methods, hparts.1.2],
    by rw [horder.nested, hparts.2]⟩

end Hierarchy
end Lineage
