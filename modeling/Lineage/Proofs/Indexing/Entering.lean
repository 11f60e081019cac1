/-
# Classes enter an index one by one

A module is added class by class (`enter`): each goes to the end, under the next id,
and is linked from its container.  The classes that are there stay, but for the nested
ones of the container, and behind them come those of the module, in order
(`adds_addClasses`).  What entering one class keeps, adding a module keeps
(`addClasses_induction`).
-/

import Lineage.Hierarchy.Index
import Lineage.Proofs.Outline.ClassTree

namespace Lineage
namespace Hierarchy

open Outline

/-- The class with more nested ones. -/
def ClassDecl.withNested (d : ClassDecl) (nested : List NestedClass) : ClassDecl :=
  { d with nested := d.nested ++ nested }

/-- The class is declared in that module, by that outline. -/
def ClassDecl.Describes (d : ClassDecl) (module : String) (c : ClassOutline) : Prop :=
  { d with nested := [] } = ClassDecl.ofOutline d.id module d.qualifiedName d.container c

namespace ClassDecl

/-- Without more nested classes a declaration is as it was. -/
@[simp] theorem withNested_nil (d : ClassDecl) : d.withNested [] = d := by
  simp [withNested]

/-- Nested classes that are added twice are added behind each other. -/
@[simp] theorem withNested_withNested (d : ClassDecl) (nested nested' : List NestedClass) :
    (d.withNested nested).withNested nested' = d.withNested (nested ++ nested') := by
  simp [withNested]

/-- A declaration made from an outline describes it. -/
theorem describes_ofOutline (id : ClassId) (module qualifiedName : String)
    (container : Option ClassId) (c : ClassOutline) :
    (ofOutline id module qualifiedName container c).Describes module c := rfl

variable {d : ClassDecl} {module : String} {c : ClassOutline}

/-- A declaration still describes the outline once nested classes are listed in it. -/
theorem Describes.withNested (h : d.Describes module c) (nested : List NestedClass) :
    (d.withNested nested).Describes module c := h

/-- A declaration that describes a class has its name. -/
theorem Describes.name_eq (h : d.Describes module c) : d.name = c.name := congrArg (·.name) h

/-- A declaration that describes a class of a module belongs to that module. -/
theorem Describes.module_eq (h : d.Describes module c) : d.module = module :=
  congrArg (·.module) h

/-- A declaration that describes a class has its bases. -/
theorem Describes.bases_eq (h : d.Describes module c) : d.bases = c.bases := congrArg (·.bases) h

end ClassDecl

namespace ClassIndex

/-- The index with a class at the end, linked from its container. -/
def enter (index : ClassIndex) (d : ClassDecl) : ClassIndex :=
  (index.insert d).link d.container ⟨d.name, d.id⟩

/-- Classes of that module and scope may be entered into that container. -/
def IsScope (index : ClassIndex) (module scope : String) : Option ClassId → Prop
  | none => scope = module
  | some p => ∃ d, index.get? p = some d ∧ d.module = module ∧ d.qualifiedName = scope

/-- The class fits at the end of the index. -/
structure Admits (index : ClassIndex) (d : ClassDecl) : Prop where
  id_eq : d.id = index.nextId
  nested_eq : d.nested = []
  placed : ∃ scope, index.IsScope d.module scope d.container ∧
    d.qualifiedName = dotted scope d.name

/-- The classes stay, but for the nested ones of the container. -/
def Extends (container : Option ClassId) (index index' : ClassIndex) : Prop :=
  ∀ id d, index.get? id = some d →
    ∃ nested, index'.get? id = some (d.withNested nested) ∧ (container ≠ some id → nested = [])

/-- Exactly these classes of a module have been added, under these ids. -/
structure Adds (module : String) (container : Option ClassId) (cs : List ClassOutline)
    (index index' : ClassIndex) (ids : List ClassId) : Prop where
  extended : Extends container index index'
  ids_eq : ids = (List.range' index.size cs.length).map ClassId.mk
  size_eq : index'.size = index.size + cs.length
  described : ∀ n c, cs[n]? = some c →
    ∃ d, index'.get? ⟨index.size + n⟩ = some d ∧ d.Describes module c

variable {index index' index'' : ClassIndex} {module scope : String}
  {container container' : Option ClassId} {d e : ClassDecl} {id p : ClassId}
  {c : ClassOutline} {cs cs' : List ClassOutline} {ids ids' : List ClassId}

/-- A class has a place in the index. -/
theorem lt_size (h : index.get? id = some d) : id.val < index.size :=
  (List.getElem?_eq_some_iff.1 h).1

/-- Every place of the index has a class. -/
theorem exists_get? (h : id.val < index.size) : ∃ d, index.get? id = some d :=
  ⟨_, List.getElem?_eq_getElem h⟩

/-- The scope at the top of a module is the module itself. -/
theorem isScope_top (index : ClassIndex) (module : String) : index.IsScope module module none := rfl

/-- A container has a place in the index. -/
theorem IsScope.lt_size (h : index.IsScope module scope (some p)) : p.val < index.size := by
  obtain ⟨_, hp, _⟩ := h
  exact ClassIndex.lt_size hp

/-! ### One class -/

/-- To enter a class adds one. -/
@[simp] theorem size_enter (index : ClassIndex) (d : ClassDecl) :
    (index.enter d).size = index.size + 1 := by
  unfold enter link
  split <;> simp [insert, size]

/-- To enter a class binds its qualified name, if that is not bound yet. -/
@[simp] theorem byQualifiedName_enter (index : ClassIndex) (d : ClassDecl) :
    (index.enter d).byQualifiedName = bindFirst index.byQualifiedName d.qualifiedName d.id := by
  unfold enter link
  split <;> rfl

/-- To enter a class adds its id to those of its name. -/
@[simp] theorem byName_enter (index : ClassIndex) (d : ClassDecl) :
    (index.enter d).byName = bindMore d.name d.id index.byName := by
  unfold enter link
  split <;> rfl

/-- To enter a class adds no module. -/
@[simp] theorem modules_enter (index : ClassIndex) (d : ClassDecl) :
    (index.enter d).modules = index.modules := by
  unfold enter link
  split <;> rfl

/-- The class that is entered is the last one. -/
theorem get?_enter_nextId (h : ∀ p, d.container = some p → p.val < index.size) :
    (index.enter d).get? index.nextId = some d := by
  unfold enter link
  split
  · simp [insert, get?, nextId]
  · rename_i p hp
    have hne : p.val ≠ index.classes.length := Nat.ne_of_lt (h p hp)
    simp [insert, get?, nextId, hne]

/-- The others stay, the container with one more nested class. -/
theorem get?_enter_of_lt (h : id.val < index.size) :
    (index.enter d).get? id = (index.get? id).map fun e =>
      e.withNested (if d.container = some id then [⟨d.name, d.id⟩] else []) := by
  unfold enter link
  have hget : (index.insert d).get? id = index.get? id := List.getElem?_append_left h
  rcases hd : d.container with _ | p
  · simp [hget]
  · obtain ⟨n⟩ := p
    obtain ⟨m⟩ := id
    simp only [get?] at hget ⊢
    rw [List.getElem?_modify, hget]
    by_cases hnm : n = m
    · simp [hnm, ClassDecl.withNested]
    · simp [hnm]

/-- **What is in the index once a class has been entered.** -/
theorem get?_enter_eq_some_iff (h : index.Admits d) :
    (index.enter d).get? id = some e ↔
      id = index.nextId ∧ e = d ∨
        ∃ e', index.get? id = some e' ∧
          e = e'.withNested (if d.container = some id then [⟨d.name, d.id⟩] else []) := by
  have hcontainer : ∀ p, d.container = some p → p.val < index.size := by
    intro p hp
    obtain ⟨scope, hscope, _⟩ := h.placed
    exact (hp ▸ hscope).lt_size
  constructor
  · intro he
    have hle : id.val < index.size + 1 := size_enter index d ▸ lt_size he
    rcases Nat.lt_succ_iff_lt_or_eq.1 hle with hlt | heq
    · rw [get?_enter_of_lt hlt] at he
      obtain ⟨e', he', rfl⟩ := Option.map_eq_some_iff.1 he
      exact .inr ⟨e', he', rfl⟩
    · obtain rfl : id = index.nextId := congrArg ClassId.mk heq
      rw [get?_enter_nextId hcontainer] at he
      exact .inl ⟨rfl, (Option.some.inj he).symm⟩
  · rintro (⟨rfl, rfl⟩ | ⟨e', he', rfl⟩)
    · exact get?_enter_nextId hcontainer
    · rw [get?_enter_of_lt (lt_size he'), he']
      rfl

/-! ### Extensions -/

/-- An index extends itself. -/
theorem Extends.refl (container : Option ClassId) (index : ClassIndex) :
    Extends container index index :=
  fun _ d hd => ⟨[], by rw [d.withNested_nil]; exact hd, fun _ => rfl⟩

/-- What is added further goes into the same container, or into a new one. -/
theorem Extends.trans (h : Extends container index index')
    (h' : Extends container' index' index'')
    (hcontainer : ∀ p, container' = some p → p.val < index.size → container = some p) :
    Extends container index index'' := by
  intro id d hd
  obtain ⟨nested, hd', hnested⟩ := h id d hd
  obtain ⟨nested', hd'', hnested'⟩ := h' id _ hd'
  refine ⟨nested ++ nested', by rw [hd'', ClassDecl.withNested_withNested], fun hne => ?_⟩
  have hne' : container' ≠ some id := fun heq => hne (hcontainer id heq (lt_size hd))
  rw [hnested hne, hnested' hne', List.append_nil]

/-- A class other than the container stays as it was. -/
theorem Extends.get?_of_ne (h : Extends container index index') (hd : index.get? id = some d)
    (hne : container ≠ some id) : index'.get? id = some d := by
  obtain ⟨nested, hd', hnested⟩ := h id d hd
  rw [hd', hnested hne, ClassDecl.withNested_nil]

/-- A scope stays one as the index is extended. -/
theorem IsScope.of_extends (h : index.IsScope module scope container)
    (hextends : Extends container' index index') : index'.IsScope module scope container := by
  cases container with
  | none => exact h
  | some p =>
    obtain ⟨d, hp, hmodule, hscope⟩ := h
    obtain ⟨nested, hp', _⟩ := hextends p d hp
    exact ⟨d.withNested nested, hp', hmodule, hscope⟩

/-- To enter a class extends the index, in its container only. -/
theorem extends_enter (h : index.Admits d) : Extends d.container index (index.enter d) := by
  intro id e he
  refine ⟨_, (get?_enter_eq_some_iff h).2 (.inr ⟨e, he, rfl⟩), fun hne => ?_⟩
  rw [if_neg hne]

/-! ### Modules -/

/-- A class of an outline may be entered into its scope. -/
theorem admits_ofOutline (h : index.IsScope module scope container) (c : ClassOutline) :
    index.Admits (.ofOutline index.nextId module (dotted scope c.name) container c) :=
  ⟨rfl, rfl, scope, h, rfl⟩

/-- A class is entered, and then the classes in its body into it. -/
theorem addClass_eq (index : ClassIndex) (module scope : String) (container : Option ClassId)
    (c : ClassOutline) :
    index.addClass module scope container c =
      let added := (index.enter
        (.ofOutline index.nextId module (dotted scope c.name) container c)).addClasses module
          (dotted scope c.name) (some index.nextId) c.classes
      (added.1, index.nextId :: added.2) := by
  cases c
  rfl

/-- Classes side by side are added one after another. -/
theorem addClasses_cons (index : ClassIndex) (module scope : String)
    (container : Option ClassId) (c : ClassOutline) (cs : List ClassOutline) :
    index.addClasses module scope container (c :: cs) =
      let added := index.addClass module scope container c
      let more := added.1.addClasses module scope container cs
      (more.1, added.2 ++ more.2) := rfl

/-- In the body of a class that has been entered. -/
theorem isScope_body (h : index.IsScope module scope container) (c : ClassOutline) :
    (index.enter (.ofOutline index.nextId module (dotted scope c.name) container c)).IsScope
      module (dotted scope c.name) (some index.nextId) :=
  ⟨_, (get?_enter_eq_some_iff (admits_ofOutline h c)).2 (.inl ⟨rfl, rfl⟩), rfl, rfl⟩

/-- Without classes nothing is added. -/
theorem Adds.nil (module : String) (container : Option ClassId) (index : ClassIndex) :
    Adds module container [] index index [] :=
  ⟨.refl container index, rfl, rfl, fun _ _ h => nomatch h⟩

/-- To enter a class adds that class, under the next id. -/
theorem adds_enter (h : index.IsScope module scope container) (c : ClassOutline) :
    Adds module container [c] index
      (index.enter (.ofOutline index.nextId module (dotted scope c.name) container c))
      [index.nextId] := by
  have hadmits := admits_ofOutline h c
  refine ⟨extends_enter hadmits, rfl, size_enter _ _, ?_⟩
  intro n c' hc'
  obtain ⟨rfl, rfl⟩ : n = 0 ∧ c = c' := by simpa [List.getElem?_singleton] using hc'
  exact ⟨_, (get?_enter_eq_some_iff hadmits).2 (.inl ⟨rfl, rfl⟩), ClassDecl.describes_ofOutline ..⟩

/-- What is added in two steps is added at once, if the second container is new or the same. -/
theorem Adds.append (h : Adds module container cs index index' ids)
    (h' : Adds module container' cs' index' index'' ids')
    (hcontainer : ∀ p, container' = some p → p.val < index.size → container = some p) :
    Adds module container (cs ++ cs') index index'' (ids ++ ids') where
  extended := h.extended.trans h'.extended hcontainer
  ids_eq := by
    rw [h.ids_eq, h'.ids_eq, h.size_eq, ← List.map_append, List.length_append,
      ← List.range'_append_1]
  size_eq := by rw [h'.size_eq, h.size_eq, List.length_append, Nat.add_assoc]
  described n c hc := by
    rcases Nat.lt_or_ge n cs.length with hlt | hge
    · rw [List.getElem?_append_left hlt] at hc
      obtain ⟨d, hd, hdescribes⟩ := h.described n c hc
      obtain ⟨nested, hd', _⟩ := h'.extended _ d hd
      exact ⟨_, hd', hdescribes.withNested nested⟩
    · rw [List.getElem?_append_right hge] at hc
      obtain ⟨d, hd, hdescribes⟩ := h'.described _ c hc
      refine ⟨d, ?_, hdescribes⟩
      rwa [h.size_eq, Nat.add_assoc, Nat.add_sub_cancel' hge] at hd

/-- What is in the index was there, or is one of the classes that have been added. -/
theorem Adds.old_or_new (h : Adds module none cs index index' ids)
    (hd : index'.get? id = some d) :
    index.get? id = some d ∨ index.get? id = none ∧ ∃ c ∈ cs, d.Describes module c := by
  rcases Nat.lt_or_ge id.val index.size with hlt | hge
  · obtain ⟨e, he⟩ := exists_get? hlt
    rw [h.extended.get?_of_ne he nofun] at hd
    exact .inl (hd ▸ he)
  · have hlt : id.val < index.size + cs.length := h.size_eq ▸ lt_size hd
    have hn : id.val - index.size < cs.length := by omega
    obtain ⟨e, he, hdescribes⟩ := h.described _ _ (List.getElem?_eq_getElem hn)
    rw [Nat.add_sub_cancel' hge, hd] at he
    obtain rfl := Option.some.inj he
    exact .inr ⟨List.getElem?_eq_none hge, _, List.getElem_mem hn, hdescribes⟩

/-- A class adds itself and those in it, and so do classes side by side. -/
private theorem adds_both :
    (∀ (c : ClassOutline) (index : ClassIndex) (scope : String) (container : Option ClassId),
      index.IsScope module scope container →
        Adds module container c.preorder index (index.addClass module scope container c).1
          (index.addClass module scope container c).2) ∧
    ∀ (cs : List ClassOutline) (index : ClassIndex) (scope : String) (container : Option ClassId),
      index.IsScope module scope container →
        Adds module container (preorderAll cs) index
          (index.addClasses module scope container cs).1
          (index.addClasses module scope container cs).2 := by
  refine forest_induction ?_ ?_ ?_
  · intro c ih index scope container h
    rw [preorder_eq, addClass_eq]
    refine (adds_enter h c).append (ih _ _ _ (isScope_body h c)) ?_
    -- the class that is entered is no container of an earlier one
    rintro p hp hlt
    obtain rfl := Option.some.inj hp
    exact absurd hlt (Nat.lt_irrefl _)
  · intro index scope container _
    exact .nil module container index
  · intro c cs ihc ihcs index scope container h
    have hc := ihc index scope container h
    rw [preorderAll_cons, addClasses_cons]
    exact hc.append (ihcs _ _ _ (h.of_extends hc.extended)) fun _ hp _ => hp

/-- **Adding classes adds those of their class trees, in order.** -/
theorem adds_addClasses (h : index.IsScope module scope container) (cs : List ClassOutline) :
    Adds module container (preorderAll cs) index
      (index.addClasses module scope container cs).1
      (index.addClasses module scope container cs).2 :=
  adds_both.2 cs index scope container h

/-- **What entering one class keeps, adding classes keeps.** -/
theorem addClasses_induction {P : ClassIndex → Prop}
    (step : ∀ index d, index.Admits d → P index → P (index.enter d))
    (h : index.IsScope module scope container) (hindex : P index) (cs : List ClassOutline) :
    P (index.addClasses module scope container cs).1 := by
  refine (forest_induction
    (P := fun c => ∀ (index : ClassIndex) (scope : String) (container : Option ClassId),
      index.IsScope module scope container → P index →
        P (index.addClass module scope container c).1)
    (Q := fun cs => ∀ (index : ClassIndex) (scope : String) (container : Option ClassId),
      index.IsScope module scope container → P index →
        P (index.addClasses module scope container cs).1) ?_ ?_ ?_).2 cs index scope container h
    hindex
  · intro c ih index scope container h hindex
    rw [addClass_eq]
    exact ih _ _ _ (isScope_body h c) (step index _ (admits_ofOutline h c) hindex)
  · intro index scope container _ hindex
    exact hindex
  · intro c cs ihc ihcs index scope container h hindex
    rw [addClasses_cons]
    exact ihcs _ _ _ (h.of_extends (adds_both.1 c index scope container h).extended)
      (ihc index scope container h hindex)

end ClassIndex
end Hierarchy
end Lineage
