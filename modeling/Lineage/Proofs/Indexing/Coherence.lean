/-
# An index agrees with its classes

The maps of an index, the links between its classes and the classes themselves are
updated at different moments of adding a module.  In between, and so in every index made
by adding modules, they all tell the same (`Coherent`, `coherent_ofModules`).
-/

import Lineage.Proofs.Indexing.Entering
import Mathlib.Data.List.Induction
import Mathlib.Data.List.Nodup
import Mathlib.Data.Nat.Find

namespace Lineage
namespace Hierarchy
namespace ClassIndex

open Outline

variable {index : ClassIndex} {d e : ClassDecl} {id p : ClassId} {ids : List ClassId}
  {name module key k : String}

/-! ### Maps -/

/-- The first entry of a map answers for its key, and the others for all other keys. -/
private theorem lookup_cons_ite {α : Type} (k key : String) (a : α) (rest : List (String × α)) :
    ((key, a) :: rest).lookup k = if k = key then some a else rest.lookup k := by
  rw [List.lookup_cons]
  by_cases hk : k = key
  · simp [hk]
  · simp [hk, beq_false_of_ne hk]

/-- Binding a key for the first time leaves all keys that are bound as they are. -/
theorem lookup_bindFirst (map : List (String × ClassId)) (key k : String) (id : ClassId) :
    (bindFirst map key id).lookup k =
      (map.lookup k).or (if k = key then some id else none) := by
  unfold bindFirst
  split
  · rename_i hbound
    by_cases hk : k = key
    · obtain ⟨first, hfirst⟩ := Option.isSome_iff_exists.1 hbound
      rw [hk, hfirst, Option.some_or]
    · rw [if_neg hk, Option.or_none]
  · rw [List.lookup_append, lookup_cons_ite]
    rfl

/-- No key gets a second entry when one is bound for the first time. -/
theorem nodup_keys_bindFirst {map : List (String × ClassId)} (h : (map.map Prod.fst).Nodup)
    (key : String) (id : ClassId) : ((bindFirst map key id).map Prod.fst).Nodup := by
  unfold bindFirst
  split
  · exact h
  · rename_i hbound
    have hkey : key ∉ map.map Prod.fst := by
      rw [Option.not_isSome_iff_eq_none, List.lookup_eq_none_iff] at hbound
      rintro hmem
      obtain ⟨entry, hentry, rfl⟩ := List.mem_map.1 hmem
      simpa using hbound entry hentry
    rw [List.map_append, List.map_singleton, List.nodup_append_comm]
    exact List.nodup_cons.2 ⟨hkey, h⟩

/-- Binding one more id puts it behind those that the key has. -/
theorem lookup_bindMore (map : List (String × List ClassId)) (key k : String) (id : ClassId) :
    (bindMore key id map).lookup k =
      if k = key then some ((map.lookup k).getD [] ++ [id]) else map.lookup k := by
  induction map with
  | nil =>
    rw [bindMore, lookup_cons_ite]
    rfl
  | cons entry rest ih =>
    obtain ⟨first, ids⟩ := entry
    rw [bindMore]
    split
    · rename_i hfirst
      rw [lookup_cons_ite, lookup_cons_ite, hfirst]
      split <;> rfl
    · rename_i hfirst
      rw [lookup_cons_ite, lookup_cons_ite, ih]
      by_cases hk : k = first
      · rw [if_pos hk, if_neg (hk ▸ hfirst), if_pos hk]
      · rw [if_neg hk, if_neg hk]

/-- A key gets an entry with its first id, behind all other entries. -/
theorem keys_bindMore (map : List (String × List ClassId)) (key : String) (id : ClassId) :
    (bindMore key id map).map Prod.fst =
      if key ∈ map.map Prod.fst then map.map Prod.fst else map.map Prod.fst ++ [key] := by
  induction map with
  | nil => rfl
  | cons entry rest ih =>
    rw [bindMore]
    split
    · rename_i hentry
      simp [hentry]
    · rename_i hentry
      have hne : key ≠ entry.1 := Ne.symm hentry
      simp only [List.map_cons, ih, List.mem_cons, hne, false_or]
      split <;> rfl

/-- No key gets a second entry when one more id is bound. -/
theorem nodup_keys_bindMore {map : List (String × List ClassId)}
    (h : (map.map Prod.fst).Nodup) (key : String) (id : ClassId) :
    ((bindMore key id map).map Prod.fst).Nodup := by
  rw [keys_bindMore]
  split
  · exact h
  · rename_i hkey
    rw [List.nodup_append_comm]
    exact List.nodup_cons.2 ⟨hkey, h⟩

/-! ### Coherence -/

/-- The class of that id has that value of a field. -/
def Shows {α : Type} (index : ClassIndex) (field : ClassDecl → α) (value : α) (id : ClassId) :
    Prop :=
  ∃ d, index.get? id = some d ∧ field d = value

/-- The ids, the maps and the links agree with the classes. -/
structure Coherent (index : ClassIndex) : Prop where
  /-- A class is at the place that its id names. -/
  id_eq : ∀ {id d}, index.get? id = some d → d.id = id
  /-- No qualified name has two entries. -/
  qualifiedNames_nodup : (index.byQualifiedName.map Prod.fst).Nodup
  /-- The qualified names in use lead to the smallest id that has them. -/
  lookup_iff : ∀ {name id}, index.byQualifiedName.lookup name = some id ↔
    index.Shows (·.qualifiedName) name id ∧
      ∀ other, index.Shows (·.qualifiedName) name other → id.val ≤ other.val
  /-- No simple name has two entries. -/
  names_nodup : (index.byName.map Prod.fst).Nodup
  /-- The simple names with an entry are those in use. -/
  isSome_byName_iff : ∀ {name}, (index.byName.lookup name).isSome ↔
    ∃ id, index.Shows (·.name) name id
  /-- An entry lists all ids with the name. -/
  mem_byName_iff : ∀ {name ids}, index.byName.lookup name = some ids →
    ∀ id, id ∈ ids ↔ index.Shows (·.name) name id
  byName_sorted : ∀ {name ids}, index.byName.lookup name = some ids →
    ids.Pairwise (·.val < ·.val)
  /-- The classes listed in a class are those whose container it is, under their names. -/
  mem_nested_iff : ∀ {p e}, index.get? p = some e → ∀ n : NestedClass, n ∈ e.nested ↔
    ∃ d, index.get? n.id = some d ∧ d.container = some p ∧ n.name = d.name
  nested_sorted : ∀ {p e}, index.get? p = some e → e.nested.Pairwise (·.id.val < ·.id.val)
  /-- A container is an earlier class of the module, and qualifies the name. -/
  contained : ∀ {id d p}, index.get? id = some d → d.container = some p →
    p.val < id.val ∧ ∃ e, index.get? p = some e ∧ d.module = e.module ∧
      d.qualifiedName = dotted e.qualifiedName d.name
  /-- Without a container, the module qualifies the name. -/
  uncontained : ∀ {id d}, index.get? id = some d → d.container = none →
    d.qualifiedName = dotted d.module d.name

/-- A class that has a field has a place in the index. -/
theorem Shows.lt_size {α : Type} {field : ClassDecl → α} {value : α}
    (h : index.Shows field value id) : id.val < index.size := by
  obtain ⟨_, hd, _⟩ := h
  exact ClassIndex.lt_size hd

/-- A field other than the nested classes shows what it did, and for the new class. -/
theorem shows_enter {α : Type} {f : ClassDecl → α} {value : α}
    (hf : ∀ d nested, f (d.withNested nested) = f d) (hadmits : index.Admits d) :
    (index.enter d).Shows f value id ↔
      index.Shows f value id ∨ id = index.nextId ∧ f d = value := by
  simp only [Shows, get?_enter_eq_some_iff hadmits]
  constructor
  · rintro ⟨e, ⟨rfl, rfl⟩ | ⟨e', he', rfl⟩, hvalue⟩
    · exact .inr ⟨rfl, hvalue⟩
    · exact .inl ⟨e', he', hf e' _ ▸ hvalue⟩
  · rintro (⟨e, he, hvalue⟩ | ⟨rfl, hvalue⟩)
    · exact ⟨_, .inr ⟨e, he, rfl⟩, (hf e _).trans hvalue⟩
    · exact ⟨d, .inl ⟨rfl, rfl⟩, hvalue⟩

/-- The empty index is coherent. -/
theorem coherent_empty : empty.Coherent where
  id_eq h := nomatch h
  qualifiedNames_nodup := List.nodup_nil
  lookup_iff := ⟨(nomatch ·), fun ⟨⟨_, h, _⟩, _⟩ => nomatch h⟩
  names_nodup := List.nodup_nil
  isSome_byName_iff := ⟨(nomatch ·), fun ⟨_, _, h, _⟩ => nomatch h⟩
  mem_byName_iff h := nomatch h
  byName_sorted h := nomatch h
  mem_nested_iff h := nomatch h
  nested_sorted h := nomatch h
  contained h := nomatch h
  uncontained h := nomatch h

/-- A qualified name that leads nowhere is that of no class. -/
theorem Coherent.not_shows_of_lookup_eq_none (h : index.Coherent)
    (hnone : index.byQualifiedName.lookup name = none) (id : ClassId) :
    ¬index.Shows (·.qualifiedName) name id := by
  intro hid
  classical
  have hused : ∃ n, index.Shows (·.qualifiedName) name ⟨n⟩ := ⟨id.val, hid⟩
  have hbound := h.lookup_iff.2
    ⟨Nat.find_spec hused, fun other hother => Nat.find_min' hused hother⟩
  rw [hnone] at hbound
  cases hbound

namespace Coherent

variable (h : index.Coherent) (hadmits : index.Admits d)

include h hadmits

/-- After a class is entered a qualified name leads to the smallest id that has it. -/
theorem lookup_enter_iff :
    (index.enter d).byQualifiedName.lookup name = some id ↔
      (index.enter d).Shows (·.qualifiedName) name id ∧
        ∀ other, (index.enter d).Shows (·.qualifiedName) name other → id.val ≤ other.val := by
  have hshows : ∀ other, (index.enter d).Shows (·.qualifiedName) name other ↔
      index.Shows (·.qualifiedName) name other ∨ other = index.nextId ∧ d.qualifiedName = name :=
    fun _ => shows_enter (fun _ _ => rfl) hadmits
  have hnext : ∀ {other}, index.Shows (·.qualifiedName) name other →
      other.val < index.nextId.val := fun hother => hother.lt_size
  rw [byQualifiedName_enter, lookup_bindFirst, hadmits.id_eq]
  simp only [hshows]
  cases hlookup : index.byQualifiedName.lookup name with
  | some first =>
    obtain ⟨hfirst, hleast⟩ := h.lookup_iff.1 hlookup
    rw [Option.some_or, Option.some.injEq]
    constructor
    · rintro rfl
      refine ⟨.inl hfirst, ?_⟩
      rintro other (hother | ⟨rfl, _⟩)
      · exact hleast other hother
      · exact Nat.le_of_lt (hnext hfirst)
    · rintro ⟨hid | ⟨rfl, _⟩, hsmallest⟩
      · have hle := hsmallest first (.inl hfirst)
        have hge := hleast id hid
        obtain ⟨n⟩ := first
        obtain ⟨m⟩ := id
        exact congrArg ClassId.mk (Nat.le_antisymm hge hle)
      · exact absurd (hsmallest first (.inl hfirst)) (Nat.not_le_of_lt (hnext hfirst))
  | none =>
    -- no class had the name, so the new one is the first
    have hunused := h.not_shows_of_lookup_eq_none hlookup
    simp only [Option.none_or, hunused, false_or, Option.ite_none_right_eq_some,
      Option.some.injEq]
    constructor
    · rintro ⟨rfl, rfl⟩
      refine ⟨⟨rfl, rfl⟩, ?_⟩
      rintro other ⟨rfl, _⟩
      exact Nat.le_refl _
    · rintro ⟨⟨rfl, rfl⟩, _⟩
      exact ⟨rfl, rfl⟩

/-- What the map of simple names holds under a name, entry or not. -/
theorem mem_findByName_enter_iff :
    id ∈ ((index.enter d).byName.lookup name).getD [] ↔
      (index.enter d).Shows (·.name) name id := by
  have hold : ∀ other, other ∈ (index.byName.lookup name).getD [] ↔
      index.Shows (·.name) name other := by
    intro other
    cases hlookup : index.byName.lookup name with
    | some ids => exact h.mem_byName_iff hlookup other
    | none =>
      have hunused := mt h.isSome_byName_iff.2 (by rw [hlookup]; exact Bool.false_ne_true)
      exact ⟨(nomatch ·), fun hother => absurd ⟨other, hother⟩ hunused⟩
  rw [shows_enter (fun _ _ => rfl) hadmits, byName_enter, lookup_bindMore, hadmits.id_eq]
  split
  · rename_i hname
    rw [Option.getD_some, List.mem_append, List.mem_singleton, hold]
    simp [hname]
  · rename_i hname
    rw [hold]
    simp [Ne.symm hname]

/-- After a class is entered the names in use are those of the classes. -/
theorem isSome_byName_enter_iff :
    ((index.enter d).byName.lookup name).isSome ↔
      ∃ id, (index.enter d).Shows (·.name) name id := by
  simp only [shows_enter (f := (·.name)) (fun _ _ => rfl) hadmits, byName_enter,
    lookup_bindMore, exists_or, ← h.isSome_byName_iff]
  split
  · rename_i hname
    simp [hname]
  · rename_i hname
    simp [Ne.symm hname]

/-- After a class is entered the ids of a name are in order. -/
theorem byName_enter_sorted (hids : (index.enter d).byName.lookup name = some ids) :
    ids.Pairwise (·.val < ·.val) := by
  rw [byName_enter, lookup_bindMore, hadmits.id_eq] at hids
  split at hids
  · obtain rfl := Option.some.inj hids
    cases hlookup : index.byName.lookup name with
    | none => exact List.pairwise_singleton _ _
    | some old =>
      refine List.pairwise_append.2 ⟨h.byName_sorted hlookup, List.pairwise_singleton _ _, ?_⟩
      intro a ha b hb
      obtain rfl := List.mem_singleton.1 hb
      exact ((h.mem_byName_iff hlookup a).1 ha).lt_size
  · exact h.byName_sorted hids

/-- After a class is entered a container lists the classes that it contains. -/
theorem mem_nested_enter_iff (he : (index.enter d).get? p = some e) (n : NestedClass) :
    n ∈ e.nested ↔ ∃ d', (index.enter d).get? n.id = some d' ∧ d'.container = some p ∧
      n.name = d'.name := by
  have hlt : ∀ {id d' p}, index.get? id = some d' → d'.container = some p → p.val < id.val :=
    fun hd' hp => (h.contained hd' hp).1
  have hscope : ∀ {p}, d.container = some p → p.val < index.size := by
    intro p hp
    obtain ⟨scope, hscope, _⟩ := hadmits.placed
    exact (hp ▸ hscope).lt_size
  have hnew : (∃ d', (index.enter d).get? n.id = some d' ∧ d'.container = some p ∧
      n.name = d'.name) ↔ (n.id = index.nextId ∧ d.container = some p ∧ n.name = d.name) ∨
        ∃ d', index.get? n.id = some d' ∧ d'.container = some p ∧ n.name = d'.name := by
    simp only [get?_enter_eq_some_iff hadmits]
    constructor
    · rintro ⟨d', ⟨hid, rfl⟩ | ⟨e', he', rfl⟩, hcontainer, hname⟩
      · exact .inl ⟨hid, hcontainer, hname⟩
      · exact .inr ⟨e', he', hcontainer, hname⟩
    · rintro (⟨hid, hcontainer, hname⟩ | ⟨d', hd', hcontainer, hname⟩)
      · exact ⟨d, .inl ⟨hid, rfl⟩, hcontainer, hname⟩
      · exact ⟨_, .inr ⟨d', hd', rfl⟩, hcontainer, hname⟩
  rw [hnew]
  rcases (get?_enter_eq_some_iff hadmits).1 he with ⟨rfl, rfl⟩ | ⟨e', he', rfl⟩
  · -- the new class has none, and is the container of none
    rw [hadmits.nested_eq]
    refine ⟨(nomatch ·), ?_⟩
    rintro (⟨_, hcontainer, _⟩ | ⟨d', hd', hcontainer, _⟩)
    · exact absurd (hscope hcontainer) (Nat.lt_irrefl _)
    · exact absurd (Nat.lt_trans (hlt hd' hcontainer) (lt_size hd')) (Nat.lt_irrefl _)
  · rw [ClassDecl.withNested, List.mem_append, h.mem_nested_iff he', or_comm]
    refine or_congr_left ?_
    obtain ⟨name, id⟩ := n
    rw [hadmits.id_eq]
    split
    · rename_i hcontainer
      simp [hcontainer, and_comm]
    · rename_i hcontainer
      simp [hcontainer]

/-- After a class is entered a container lists its classes in order. -/
theorem nested_enter_sorted (he : (index.enter d).get? p = some e) :
    e.nested.Pairwise (·.id.val < ·.id.val) := by
  rcases (get?_enter_eq_some_iff hadmits).1 he with ⟨rfl, rfl⟩ | ⟨e', he', rfl⟩
  · rw [hadmits.nested_eq]
    exact List.Pairwise.nil
  · refine List.pairwise_append.2 ⟨h.nested_sorted he', by split <;> simp, ?_⟩
    intro n hn n' hn'
    split at hn'
    · obtain rfl := List.mem_singleton.1 hn'
      obtain ⟨d', hd', _⟩ := (h.mem_nested_iff he' n).1 hn
      rw [hadmits.id_eq]
      exact lt_size hd'
    · cases hn'

/-- After a class is entered a contained class stands behind its container, and is named for it. -/
theorem contained_enter {d' : ClassDecl} (hd' : (index.enter d).get? id = some d')
    (hp : d'.container = some p) :
    p.val < id.val ∧ ∃ e, (index.enter d).get? p = some e ∧ d'.module = e.module ∧
      d'.qualifiedName = dotted e.qualifiedName d'.name := by
  rcases (get?_enter_eq_some_iff hadmits).1 hd' with ⟨rfl, rfl⟩ | ⟨e', he', rfl⟩
  · obtain ⟨scope, hscope, hname⟩ := hadmits.placed
    rw [hp] at hscope
    obtain ⟨e, he, hmodule, rfl⟩ := hscope
    exact ⟨lt_size he, _, (get?_enter_eq_some_iff hadmits).2 (.inr ⟨e, he, rfl⟩),
      hmodule.symm, hname⟩
  · obtain ⟨hlt, e, he, hmodule, hname⟩ := h.contained he' hp
    exact ⟨hlt, _, (get?_enter_eq_some_iff hadmits).2 (.inr ⟨e, he, rfl⟩), hmodule, hname⟩

/-- **Entering a class keeps an index coherent.** -/
theorem enter : (index.enter d).Coherent where
  id_eq he := by
    rcases (get?_enter_eq_some_iff hadmits).1 he with ⟨rfl, rfl⟩ | ⟨e', he', rfl⟩
    · exact hadmits.id_eq
    · exact h.id_eq (d := e') he'
  qualifiedNames_nodup := by
    rw [byQualifiedName_enter]
    exact nodup_keys_bindFirst h.qualifiedNames_nodup _ _
  lookup_iff := h.lookup_enter_iff hadmits
  names_nodup := by
    rw [byName_enter]
    exact nodup_keys_bindMore h.names_nodup _ _
  isSome_byName_iff := h.isSome_byName_enter_iff hadmits
  mem_byName_iff hids id := by
    rw [← h.mem_findByName_enter_iff hadmits, hids]
    rfl
  byName_sorted := h.byName_enter_sorted hadmits
  mem_nested_iff := h.mem_nested_enter_iff hadmits
  nested_sorted := h.nested_enter_sorted hadmits
  contained := h.contained_enter hadmits
  uncontained he hcontainer := by
    rcases (get?_enter_eq_some_iff hadmits).1 he with ⟨rfl, rfl⟩ | ⟨e', he', rfl⟩
    · obtain ⟨scope, hscope, hname⟩ := hadmits.placed
      rw [hcontainer] at hscope
      rw [hname, show scope = _ from hscope]
    · exact h.uncontained (d := e') he' hcontainer

end Coherent

/-! ### Listings -/

/-- A class is listed in its container, once and under its name, and nowhere else. -/
def ListsOnce (index : ClassIndex) : Prop :=
  ∀ {id d p e}, index.get? id = some d → index.get? p = some e →
    e.nested.filter (·.id = id) = if d.container = some p then [⟨d.name, id⟩] else []

/-- In a list in order an id stands once. -/
private theorem filter_id_eq {nested : List NestedClass} {n : NestedClass}
    (hsorted : nested.Pairwise (·.id.val < ·.id.val)) (hn : n ∈ nested) :
    nested.filter (·.id = n.id) = [n] := by
  induction nested with
  | nil => cases hn
  | cons first rest ih =>
    obtain ⟨hfirst, hrest⟩ := List.pairwise_cons.1 hsorted
    rcases List.mem_cons.1 hn with rfl | hn
    · rw [List.filter_cons_of_pos (by simp), List.filter_eq_nil_iff.2]
      intro n' hn' heq
      have hlt := hfirst n' hn'
      rw [of_decide_eq_true heq] at hlt
      exact Nat.lt_irrefl _ hlt
    · have hne : first.id ≠ n.id := fun heq => Nat.ne_of_lt (hfirst n hn) (heq ▸ rfl)
      rw [List.filter_cons_of_neg (by simpa using hne), ih hrest hn]

/-- In a coherent index every class is listed once, in its container. -/
theorem Coherent.listsOnce (h : index.Coherent) : index.ListsOnce := by
  intro id d p e hd he
  split
  · rename_i hcontainer
    have hn : ⟨d.name, id⟩ ∈ e.nested := (h.mem_nested_iff he _).2 ⟨d, hd, hcontainer, rfl⟩
    exact filter_id_eq (h.nested_sorted he) hn
  · rename_i hcontainer
    refine List.filter_eq_nil_iff.2 fun n hn heq => hcontainer ?_
    obtain ⟨d', hd', hcontainer', _⟩ := (h.mem_nested_iff he n).1 hn
    rw [of_decide_eq_true heq, hd] at hd'
    rw [Option.some.inj hd']
    exact hcontainer'

/-! ### Modules -/

section Modules

variable (index : ClassIndex) (module : String) (m : ModuleOutline)

/-- Adding the name of a module changes no class. -/
@[simp] theorem get?_addModuleName (id : ClassId) :
    (index.addModuleName module).get? id = index.get? id := by
  unfold addModuleName
  split <;> rfl

/-- Adding the name of a module adds no class. -/
@[simp] theorem size_addModuleName : (index.addModuleName module).size = index.size := by
  unfold addModuleName
  split <;> rfl

/-- Adding the name of a module binds no qualified name. -/
@[simp] theorem byQualifiedName_addModuleName :
    (index.addModuleName module).byQualifiedName = index.byQualifiedName := by
  unfold addModuleName
  split <;> rfl

/-- Adding the name of a module binds no name of a class. -/
@[simp] theorem byName_addModuleName : (index.addModuleName module).byName = index.byName := by
  unfold addModuleName
  split <;> rfl

/-- A module is added by its classes, then by its name. -/
theorem addModule_eq :
    index.addModule module m =
      ((index.addClasses module module none m.classes).1.addModuleName module,
        (index.addClasses module module none m.classes).2) := rfl

/-- **Adding a module adds the classes of its class trees, in order.** -/
theorem adds_addModule :
    Adds module none (preorderAll m.classes) index (index.addModule module m).1
      (index.addModule module m).2 := by
  have h := adds_addClasses (isScope_top index module) m.classes
  rw [addModule_eq]
  refine ⟨fun id d hd => ?_, h.ids_eq, ?_, fun n c hc => ?_⟩
  · rw [get?_addModuleName]
    exact h.extended id d hd
  · rw [size_addModuleName]
    exact h.size_eq
  · simp only [get?_addModuleName]
    exact h.described n c hc

variable {index}

/-- **Adding a module keeps an index coherent.** -/
theorem Coherent.addModule (h : index.Coherent) : (index.addModule module m).1.Coherent := by
  have hclasses : (index.addClasses module module none m.classes).1.Coherent :=
    addClasses_induction (fun _ _ hadmits h => h.enter hadmits) (isScope_top ..) h m.classes
  rw [addModule_eq]
  constructor <;>
    simp only [Shows, get?_addModuleName, byQualifiedName_addModuleName, byName_addModuleName]
  · exact hclasses.id_eq
  · exact hclasses.qualifiedNames_nodup
  · exact hclasses.lookup_iff
  · exact hclasses.names_nodup
  · exact hclasses.isSome_byName_iff
  · exact hclasses.mem_byName_iff
  · exact hclasses.byName_sorted
  · exact hclasses.mem_nested_iff
  · exact hclasses.nested_sorted
  · exact hclasses.contained
  · exact hclasses.uncontained

variable (index)

/-- A module has its name in the list once, where it was first added. -/
theorem modules_addModule :
    (index.addModule module m).1.modules =
      if module ∈ index.modules then index.modules else index.modules ++ [module] := by
  have hmodules : (index.addClasses module module none m.classes).1.modules = index.modules :=
    addClasses_induction (P := fun index' => index'.modules = index.modules)
      (fun index' d _ h => (modules_enter index' d).trans h) (isScope_top ..) rfl m.classes
  rw [addModule_eq]
  unfold addModuleName
  rw [hmodules]
  simp only [List.contains_iff_mem]
  split
  · exact hmodules
  · rfl

end Modules

/-- The index of modules with their names, with the builtins or without. -/
def ofModules (builtins : Bool) (modules : List (String × ModuleOutline)) : ClassIndex :=
  modules.foldl (fun index m => (index.addModule m.1 m.2).1)
    (if builtins then withBuiltins else empty)

/-- The last module is added to the index of the others. -/
theorem ofModules_concat (builtins : Bool) (modules : List (String × ModuleOutline))
    (m : String × ModuleOutline) :
    ofModules builtins (modules ++ [m]) = ((ofModules builtins modules).addModule m.1 m.2).1 := by
  rw [ofModules, List.foldl_append]
  rfl

/-- What holds without modules and is kept when one is added holds of all indexes. -/
theorem ofModules_induction {P : ClassIndex → Prop} (start : ∀ builtins, P (ofModules builtins []))
    (step : ∀ index module m, P index → P (index.addModule module m).1) (builtins : Bool)
    (modules : List (String × ModuleOutline)) : P (ofModules builtins modules) := by
  induction modules using List.reverseRecOn with
  | nil => exact start builtins
  | append_singleton modules m ih =>
    rw [ofModules_concat]
    exact step _ m.1 m.2 ih

/-- The index of any modules is coherent. -/
theorem Coherent.ofModules (builtins : Bool) (modules : List (String × ModuleOutline)) :
    (ofModules builtins modules).Coherent := by
  refine ofModules_induction ?_ (fun _ module m h => h.addModule module m) builtins modules
  rintro (_ | _)
  · exact coherent_empty
  · exact coherent_empty.enter (d := .synthetic empty.nextId builtinsModule "object")
      ⟨rfl, rfl, _, isScope_top .., rfl⟩

/-- The modules of an index are those that were added, each at its first place. -/
theorem modules_ofModules (builtins : Bool) (modules : List (String × ModuleOutline)) :
    (ofModules builtins modules).modules = (modules.map Prod.fst).eraseDups := by
  induction modules using List.reverseRecOn with
  | nil => cases builtins <;> rfl
  | append_singleton modules m ih =>
    rw [ofModules_concat, modules_addModule, ih, List.map_append, List.eraseDups_append]
    simp only [List.mem_eraseDups]
    split
    · rename_i hmem
      simp [List.removeAll, hmem]
    · rename_i hmem
      simp [List.removeAll, hmem, List.eraseDups_cons]

/-- **Every index made by adding modules agrees with its classes.**  Its maps, its ids and
its links are those of the classes that it has, each class is listed once in its container
and nowhere else, the modules stand in the order of their first addition, and one more
module adds the classes of its class trees in order, under the next ids. -/
theorem coherent_ofModules (builtins : Bool) (modules : List (String × ModuleOutline)) :
    let index := ofModules builtins modules
    index.Coherent ∧ index.ListsOnce ∧
      index.modules = (modules.map Prod.fst).eraseDups ∧
        ∀ module m, Adds module none (preorderAll m.classes) index
          (index.addModule module m).1 (index.addModule module m).2 :=
  have h := Coherent.ofModules builtins modules
  ⟨h, h.listsOnce, modules_ofModules builtins modules, fun module m => adds_addModule _ module m⟩

end ClassIndex
end Hierarchy
end Lineage
