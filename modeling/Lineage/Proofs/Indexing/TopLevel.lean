/-
# Classes at the top of a module

The class at the top of a module is looked up by its qualified name, in a map that nested
classes share.  The first class of a qualified name has it there.  Is that class a nested one,
the lookup ends with nothing, and a class of the module behind it is hidden
(`moduleClass?_eq_first_unless_hidden`).

A nested class has the qualified name of a class at the top of the module just when the
classes around it, with their module, spell the name of the module (`Inside.exists_path`).  So
nothing is hidden in a module whose name goes on from no other one, and in particular
nothing in a module without dots in its name.
-/

import Lineage.Proofs.Indexing.Growth

namespace Lineage
namespace Hierarchy
namespace ClassIndex

open Outline

variable {index : ClassIndex} {d : ClassDecl} {id other : ClassId} {module name q : String}
  {builtins : Bool} {modules : List (String × ModuleOutline)}

/-- The class stands at the top of that module, under that name. -/
def AtTop (index : ClassIndex) (module name : String) (id : ClassId) : Prop :=
  ∃ d, index.get? id = some d ∧ d.module = module ∧ d.name = name ∧ d.container = none

/-- The class stands in another one and has that qualified name. -/
def Inside (index : ClassIndex) (q : String) (id : ClassId) : Prop :=
  ∃ d, index.get? id = some d ∧ d.container.isSome ∧ d.qualifiedName = q

/-! ### Qualified names -/

/-- It does not matter in which order three names are joined. -/
theorem dotted_assoc (a b c : String) : dotted (dotted a b) c = dotted a (dotted b c) := by
  simp only [dotted, String.append_assoc]

/-- A qualified name begins with the module. -/
theorem Coherent.exists_path (h : index.Coherent) (hd : index.get? id = some d) :
    ∃ path, d.qualifiedName = dotted d.module path := by
  obtain ⟨n, hn⟩ : ∃ n, id.val = n := ⟨_, rfl⟩
  induction n using Nat.strongRecOn generalizing id d with
  | ind n ih =>
    cases hcontainer : d.container with
    | none => exact ⟨d.name, h.uncontained hd hcontainer⟩
    | some p =>
      obtain ⟨hlt, e, he, hmodule, hname⟩ := h.contained hd hcontainer
      obtain ⟨path, hpath⟩ := ih p.val (hn ▸ hlt) he rfl
      exact ⟨dotted path d.name, by rw [hname, hpath, hmodule, dotted_assoc]⟩

/-- No class of parsed modules has a dot in its name. -/
theorem not_mem_dot_of_ofModules (hmodules : ∀ m ∈ modules, IsParsed m.2)
    (hd : (ofModules builtins modules).get? id = some d) : '.' ∉ d.name.toList := by
  rcases declared_ofModules hd with rfl | ⟨m, hm, k, hk, hdescribes⟩
  · show '.' ∉ "object".toList
    decide
  · exact hdescribes.name_eq ▸ not_mem_dot_name (hmodules m hm) hk

/-! ### Classes of one qualified name -/

/-- A class at the top of a module is not one that stands in another. -/
theorem AtTop.ne_of_inside (h : index.AtTop module name id) (hother : index.Inside q other) :
    id.val ≠ other.val := by
  intro heq
  obtain rfl : id = other := congrArg ClassId.mk heq
  obtain ⟨d, hd, _, _, hcontainer⟩ := h
  obtain ⟨e, he, hinside, _⟩ := hother
  obtain rfl := Option.some.inj (hd.symm.trans he)
  rw [hcontainer] at hinside
  cases hinside

section Parsed

variable (hmodules : ∀ m ∈ modules, IsParsed m.2) (hname : '.' ∉ name.toList)

include hmodules hname

/-- A nested class of that qualified name stands in a class that has the name of the module. -/
theorem Inside.exists_path (h : (ofModules builtins modules).Inside (dotted module name) id) :
    ∃ d path, (ofModules builtins modules).get? id = some d ∧ module = dotted d.module path := by
  have hcoherent := Coherent.ofModules builtins modules
  obtain ⟨d, hd, hinside, hq⟩ := h
  obtain ⟨p, hp⟩ := Option.isSome_iff_exists.1 hinside
  obtain ⟨_, e, he, hmodule, hqualified⟩ := hcoherent.contained hd hp
  obtain ⟨rfl, _⟩ := dotted_inj (hq.symm.trans hqualified) hname
    (not_mem_dot_of_ofModules hmodules hd)
  obtain ⟨path, hpath⟩ := hcoherent.exists_path he
  exact ⟨d, path, hd, hmodule ▸ hpath⟩

/-- The classes of that qualified name are those at the top of the module and nested ones. -/
theorem shows_dotted_iff :
    (ofModules builtins modules).Shows (·.qualifiedName) (dotted module name) id ↔
      (ofModules builtins modules).AtTop module name id ∨
        (ofModules builtins modules).Inside (dotted module name) id := by
  have hcoherent := Coherent.ofModules builtins modules
  constructor
  · rintro ⟨d, hd, hq⟩
    cases hcontainer : d.container with
    | none =>
      have htop := hcoherent.uncontained hd hcontainer
      obtain ⟨hmodule, hsame⟩ := dotted_inj (hq.symm.trans htop) hname
        (not_mem_dot_of_ofModules hmodules hd)
      exact .inl ⟨d, hd, hmodule.symm, hsame.symm, hcontainer⟩
    | some p => exact .inr ⟨d, hd, by rw [hcontainer]; rfl, hq⟩
  · rintro (⟨d, hd, rfl, rfl, hcontainer⟩ | ⟨d, hd, _, hq⟩)
    · exact ⟨d, hd, hcoherent.uncontained hd hcontainer⟩
    · exact ⟨d, hd, hq⟩

/-- What the qualified name leads to is found if it stands at the top of the module. -/
theorem moduleClass?_eq_some_iff_lookup? :
    (ofModules builtins modules).moduleClass? module name = some id ↔
      (ofModules builtins modules).lookup? (dotted module name) = some id ∧
        (ofModules builtins modules).AtTop module name id := by
  rw [moduleClass?, Option.filter_eq_some_iff]
  refine and_congr_right fun hlookup => ?_
  have hshown := ((Coherent.ofModules builtins modules).lookup_iff.1 hlookup).1
  constructor
  · intro hnone
    refine ((shows_dotted_iff hmodules hname).1 hshown).resolve_right fun ⟨d, hd, hinside, _⟩ => ?_
    rw [hd] at hnone
    rw [Option.isNone_iff_eq_none.1 hnone] at hinside
    cases hinside
  · rintro ⟨d, hd, _, _, hcontainer⟩
    rw [hd]
    exact Option.isNone_iff_eq_none.2 hcontainer

/-- The class that is found is the first one at the top of the module, and before the nested
ones. -/
theorem moduleClass?_eq_some_iff :
    (ofModules builtins modules).moduleClass? module name = some id ↔
      (ofModules builtins modules).AtTop module name id ∧
        (∀ other, (ofModules builtins modules).AtTop module name other → id.val ≤ other.val) ∧
          ∀ other, (ofModules builtins modules).Inside (dotted module name) other →
            id.val < other.val := by
  rw [moduleClass?_eq_some_iff_lookup? hmodules hname, lookup?,
    (Coherent.ofModules builtins modules).lookup_iff]
  simp only [shows_dotted_iff hmodules hname]
  constructor
  · rintro ⟨⟨_, hleast⟩, htop⟩
    refine ⟨htop, fun other hother => hleast other (.inl hother), fun other hother => ?_⟩
    exact Nat.lt_of_le_of_ne (hleast other (.inr hother)) (htop.ne_of_inside hother)
  · rintro ⟨htop, hleast, hahead⟩
    refine ⟨⟨.inl htop, fun other hother => ?_⟩, htop⟩
    exact hother.elim (hleast other) fun hother => Nat.le_of_lt (hahead other hother)

/-- Nothing is found if every class at the top of the module has a nested one before it. -/
theorem moduleClass?_eq_none_iff :
    (ofModules builtins modules).moduleClass? module name = none ↔
      ∀ id, (ofModules builtins modules).AtTop module name id →
        ∃ other, (ofModules builtins modules).Inside (dotted module name) other ∧
          other.val < id.val := by
  have hcoherent := Coherent.ofModules builtins modules
  constructor
  · intro hnone id hid
    have hshown := (shows_dotted_iff hmodules hname).2 (.inl hid)
    cases hlookup : (ofModules builtins modules).lookup? (dotted module name) with
    | none => exact absurd hshown (hcoherent.not_shows_of_lookup_eq_none hlookup id)
    | some first =>
      obtain ⟨hfirst, hleast⟩ := hcoherent.lookup_iff.1 hlookup
      rcases (shows_dotted_iff hmodules hname).1 hfirst with htop | hinside
      · rw [(moduleClass?_eq_some_iff_lookup? hmodules hname).2 ⟨hlookup, htop⟩] at hnone
        cases hnone
      · exact ⟨first, hinside, Nat.lt_of_le_of_ne (hleast id hshown)
          (hid.ne_of_inside hinside).symm⟩
  · intro hhidden
    refine Option.eq_none_iff_forall_ne_some.2 fun id hid => ?_
    obtain ⟨htop, _, hahead⟩ := (moduleClass?_eq_some_iff hmodules hname).1 hid
    obtain ⟨other, hother, hlt⟩ := hhidden id htop
    exact Nat.lt_asymm hlt (hahead other hother)

end Parsed

/-! ### Lookups -/

/-- **The first class at the top of a module is found, unless it is hidden** by a nested class
of the same qualified name that was added before; and nothing is found only if all classes at
the top that have the name, should there be any, are hidden.  Classes are hidden only in a
module whose name goes on from that of the module of a nested class. -/
theorem moduleClass?_eq_first_unless_hidden (hmodules : ∀ m ∈ modules, IsParsed m.2)
    (hname : '.' ∉ name.toList) :
    let index := ofModules builtins modules
    (∀ id, index.moduleClass? module name = some id ↔ index.AtTop module name id ∧
        (∀ other, index.AtTop module name other → id.val ≤ other.val) ∧
          ∀ other, index.Inside (dotted module name) other → id.val < other.val) ∧
      (index.moduleClass? module name = none ↔ ∀ id, index.AtTop module name id →
        ∃ other, index.Inside (dotted module name) other ∧ other.val < id.val) ∧
      ∀ other, index.Inside (dotted module name) other →
        ∃ d path, index.get? other = some d ∧ module = dotted d.module path :=
  ⟨fun _ => moduleClass?_eq_some_iff hmodules hname, moduleClass?_eq_none_iff hmodules hname,
    fun _ hother => hother.exists_path hmodules hname⟩

/-- A class that is declared twice at the top of its module, and once in another class there. -/
def declaredTwice : String := "class B:\n class C: 0\nclass C: 0\nclass C: 1\n"

/-- The hypotheses of `moduleClass?_eq_first_unless_hidden` are satisfiable: the first of both
declarations at the top is found. -/
theorem moduleClass?_eq_first_declaredTwice : ∃ m, parse declaredTwice "" = .outline m ∧
    '.' ∉ "C".toList ∧
    let index := ofModules true [("m", m)]
    index.moduleClass? "m" "C" = some ⟨3⟩ ∧ index.AtTop "m" "C" ⟨3⟩ ∧
      ∀ other, index.AtTop "m" "C" other → 3 ≤ other.val := by
  obtain ⟨m, hm, hfound⟩ := exists_outline declaredTwice ""
    (fun m => (ofModules true [("m", m)]).moduleClass? "m" "C" == some ⟨3⟩) (by decide +kernel)
  have hmodules : ∀ entry ∈ [("m", m)], IsParsed entry.2 :=
    fun entry hentry => List.mem_singleton.1 hentry ▸ ⟨declaredTwice, "", hm⟩
  have hname : '.' ∉ "C".toList := by decide
  obtain ⟨hfirst, _⟩ := moduleClass?_eq_first_unless_hidden hmodules hname
  obtain ⟨htop, hleast, _⟩ := (hfirst ⟨3⟩).1 (beq_iff_eq.1 hfound)
  exact ⟨m, hm, hname, beq_iff_eq.1 hfound, htop, hleast⟩

/-- A class in a class. -/
def classInClass : String := "class B:\n class C: 0\n"

/-- Under the class `C` at the top of the module `a.B`, nothing is found behind this module `a`. -/
def hidesTop (m : ModuleOutline) : Bool :=
  match parse "class C: 0\n" "" with
  | .outline m' =>
    let index := ofModules false [("a", m), ("a.B", m')]
    (index.moduleClass? "a.B" "C").isNone && (index.get? ⟨2⟩).any fun d =>
      d.module == "a.B" && d.name == "C" && d.container.isNone
  | _ => false

/-- In the module `a` the class `C` of `classInClass` is `a.B.C`, and so is the class at the top
of a module `a.B`, which is not found then. -/
theorem moduleClass?_hidden : ∃ m m', parse classInClass "" = .outline m ∧
    parse "class C: 0\n" "" = .outline m' ∧
    let index := ofModules false [("a", m), ("a.B", m')]
    index.AtTop "a.B" "C" ⟨2⟩ ∧ index.moduleClass? "a.B" "C" = none := by
  obtain ⟨m, hm, hboth⟩ := exists_outline classInClass "" hidesTop (by decide +kernel)
  unfold hidesTop at hboth
  split at hboth
  · rename_i m' hm'
    simp only [Bool.and_eq_true, Option.isNone_iff_eq_none] at hboth
    obtain ⟨hnone, htop⟩ := hboth
    obtain ⟨d, hd, hplace⟩ := (Option.any_eq_true ..).1 htop
    simp only [Bool.and_eq_true, beq_iff_eq, Option.isNone_iff_eq_none] at hplace
    exact ⟨m, m', hm, hm', ⟨d, hd, hplace.1.1, hplace.1.2, hplace.2⟩, hnone⟩
  · cases hboth

end ClassIndex
end Hierarchy
end Lineage
