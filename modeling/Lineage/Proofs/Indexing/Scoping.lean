/-
# Simple bases in their scopes

A simple base is looked up in the body around its class, at the top of the module and among
the builtins.  What the nearest of these scopes says counts, and a class is no base of itself:
where the nearest scope answers with the class, the scopes behind it are not asked
(`names_eq_filter`).

A scope answers with the class just when the base has its name and the class is the first to
have that name where it stands (`head?_inScopes_eq_some_iff`).  Any other base means the
nearest class of its name that is not the class itself (`simpleBase_resolves`).
-/

import Lineage.Proofs.Indexing.Growth

namespace Lineage
namespace Hierarchy

open Outline

namespace Resolver

/-- The classes that a simple name means in the scopes around a class, the nearest scope first. -/
def inScopes (index : ClassIndex) (d : ClassDecl) (name : String) : List ClassId :=
  [inEnclosingBody? index d name, index.moduleClass? d.module name,
    index.builtin? name].reduceOption

/-- A simple name means the first class that the scopes have for it. -/
theorem simpleName?_eq_head? (index : ClassIndex) (d : ClassDecl) (name : String) :
    simpleName? false index d name = (inScopes index d name).head? := by
  unfold simpleName? inScopes
  cases inEnclosingBody? index d name with
  | some b => rfl
  | none =>
    cases index.moduleClass? d.module name with
    | some b => rfl
    | none => cases index.builtin? name <;> rfl

end Resolver

namespace ClassIndex

open Resolver (inScopes inEnclosingBody?)

variable {index : ClassIndex} {d e other : ClassDecl} {id b p : ClassId} {name : String}
  {base : Expression}

/-- The nearest scope counts, unless it answers with the class itself. -/
theorem names_eq_filter (hname : (Resolver.origin base).dottedName? = some name)
    (hdot : '.' ∉ name.toList) :
    Resolver.names false index d base = (inScopes index d name).head?.filter (· ≠ d.id) := by
  rw [names_of_simpleName hname hdot, Resolver.simpleName?_eq_head?]

/-! ### The first class of a name -/

/-- The other class has the name of the class where that stands: in the body of its container,
or among all qualified names. -/
def SharesName (d other : ClassDecl) : Prop :=
  match d.container with
  | some p => other.container = some p ∧ other.name = d.name
  | none => other.qualifiedName = d.qualifiedName

/-- Whether two classes share a name can be seen from their fields. -/
instance (d other : ClassDecl) : Decidable (SharesName d other) := by
  unfold SharesName
  cases d.container <;> infer_instance

/-- No class that shares the name was added before. -/
def IsFirstOfName (index : ClassIndex) (d : ClassDecl) : Prop :=
  ∀ other ∈ index.classes, SharesName d other → d.id.val ≤ other.id.val

/-- Whether a class is the first of its name can be seen from the index. -/
instance (index : ClassIndex) (d : ClassDecl) : Decidable (index.IsFirstOfName d) :=
  inferInstanceAs (Decidable (∀ other ∈ index.classes, SharesName d other → _))

/-- The classes of an index are those that have an id in it. -/
theorem mem_classes_iff : other ∈ index.classes ↔ ∃ id, index.get? id = some other := by
  rw [List.mem_iff_getElem?]
  exact ⟨fun ⟨n, hn⟩ => ⟨⟨n⟩, hn⟩, fun ⟨id, hid⟩ => ⟨id.val, hid⟩⟩

namespace Coherent

variable (h : index.Coherent)

include h

/-- The class has that container and that name, and no class before it has both. -/
theorem of_nestedClass? (he : index.get? p = some e) (hb : e.nestedClass? name = some b) :
    (∃ d, index.get? b = some d ∧ d.container = some p ∧ d.name = name) ∧
      ∀ c d, index.get? c = some d → d.container = some p → d.name = name → b.val ≤ c.val := by
  obtain ⟨n, hn, rfl⟩ := Option.map_eq_some_iff.1 hb
  obtain ⟨hname, before, after, hsplit, hbefore⟩ := List.find?_eq_some_iff_append.1 hn
  have hname : n.name = name := by simpa using hname
  have hmem : n ∈ e.nested := hsplit ▸ List.mem_append_right _ List.mem_cons_self
  obtain ⟨d, hd, hcontainer, hnd⟩ := (h.mem_nested_iff he n).1 hmem
  refine ⟨⟨d, hd, hcontainer, hnd.symm.trans hname⟩, fun c d' hd' hcontainer' hname' => ?_⟩
  have hmem' : (⟨name, c⟩ : NestedClass) ∈ e.nested :=
    (h.mem_nested_iff he _).2 ⟨d', hd', hcontainer', hname'.symm⟩
  have hsorted := h.nested_sorted he
  rw [hsplit] at hsorted hmem'
  rcases List.mem_append.1 hmem' with hearlier | hlater
  · simpa using hbefore _ hearlier
  · rcases List.mem_cons.1 hlater with heq | hlater
    · rw [← heq]
    · have hrest := (List.pairwise_cons.1 (List.pairwise_append.1 hsorted).2.1).1
      exact Nat.le_of_lt (hrest _ hlater)

/-- The nested class found under a name is the first of the container with that name. -/
theorem nestedClass?_eq_some_iff (he : index.get? p = some e) :
    e.nestedClass? name = some b ↔
      (∃ d, index.get? b = some d ∧ d.container = some p ∧ d.name = name) ∧
        ∀ c d, index.get? c = some d → d.container = some p → d.name = name → b.val ≤ c.val := by
  refine ⟨h.of_nestedClass? he, ?_⟩
  rintro ⟨⟨d, hd, hcontainer, hname⟩, hleast⟩
  cases hfound : e.nestedClass? name with
  | none =>
    have hnone : e.nested.find? (·.name == name) = none := Option.map_eq_none_iff.1 hfound
    have hmem : (⟨name, b⟩ : NestedClass) ∈ e.nested :=
      (h.mem_nested_iff he _).2 ⟨d, hd, hcontainer, hname.symm⟩
    exact absurd (beq_self_eq_true name) (List.find?_eq_none.1 hnone _ hmem)
  | some b' =>
    obtain ⟨⟨d', hd', hcontainer', hname'⟩, hleast'⟩ := h.of_nestedClass? he hfound
    have hval : b'.val = b.val :=
      Nat.le_antisymm (hleast' b d hd hcontainer hname) (hleast b' d' hd' hcontainer' hname')
    exact congrArg (some <| ClassId.mk ·) hval

/-- A nested class is found where its container lists it, and in no other scope. -/
theorem head?_inScopes_of_nested (hd : index.get? id = some d) (hcontainer : d.container = some p)
    (hname : '.' ∉ name.toList) (hdname : '.' ∉ d.name.toList) :
    (inScopes index d name).head? = some id ↔ d.name = name ∧ index.IsFirstOfName d := by
  obtain ⟨_, e, he, _, hqualified⟩ := h.contained hd hcontainer
  have hbody : inEnclosingBody? index d name = e.nestedClass? name := by
    rw [inEnclosingBody?, hcontainer, Option.bind_some, he, Option.bind_some]
  rw [← Resolver.simpleName?_eq_head?]
  constructor
  · intro hhead
    rcases Option.or_eq_some_iff.1 hhead with hhead | ⟨_, hhead⟩
    · obtain ⟨⟨d', hd', _, hname'⟩, hleast⟩ := h.of_nestedClass? he (hbody ▸ hhead)
      obtain rfl : d = d' := Option.some.inj (hd.symm.trans hd')
      refine ⟨hname', fun other hother hshares => ?_⟩
      obtain ⟨c, hc⟩ := mem_classes_iff.1 hother
      rw [SharesName, hcontainer] at hshares
      rw [h.id_eq hd, h.id_eq hc]
      exact hleast c other hc hshares.1 (hshares.2.trans hname')
    · rcases Option.or_eq_some_iff.1 hhead with hhead | ⟨_, hhead⟩
      · -- what stands at the top of a module has no container
        obtain ⟨_, htop⟩ := Option.filter_eq_some_iff.1 hhead
        rw [hd] at htop
        simp [hcontainer] at htop
      · rcases Option.or_eq_some_iff.1 hhead with hhead | ⟨_, hhead⟩
        · obtain ⟨⟨d', hd', hq⟩, _⟩ := h.lookup_iff.1 hhead
          obtain rfl : d = d' := Option.some.inj (hd.symm.trans hd')
          obtain ⟨hscope, _⟩ := dotted_inj (hqualified.symm.trans hq) hdname hname
          exact absurd (hscope ▸ h.mem_dot_qualifiedName he) (by decide)
        · cases hhead
  · rintro ⟨rfl, hfirst⟩
    refine Option.or_eq_some_iff.2 (.inl (hbody.trans ?_))
    refine (h.nestedClass?_eq_some_iff he).2 ⟨⟨d, hd, hcontainer, rfl⟩, ?_⟩
    intro c other hc hcontainer' hname'
    have hle := hfirst other (mem_classes_iff.2 ⟨c, hc⟩) (by
      rw [SharesName, hcontainer]
      exact ⟨hcontainer', hname'⟩)
    rwa [h.id_eq hd, h.id_eq hc] at hle

/-- A class without a container is found under its qualified name. -/
theorem head?_inScopes_of_top (hd : index.get? id = some d) (hcontainer : d.container = none)
    (hname : '.' ∉ name.toList) (hdname : '.' ∉ d.name.toList) :
    (inScopes index d name).head? = some id ↔ d.name = name ∧ index.IsFirstOfName d := by
  have hqualified := h.uncontained hd hcontainer
  have hbody : inEnclosingBody? index d name = none := by
    rw [inEnclosingBody?, hcontainer, Option.bind_none, Option.bind_none]
  have hfound : ∀ {scope}, index.lookup? (dotted scope name) = some id →
      d.name = name ∧ index.IsFirstOfName d := by
    intro scope hlookup
    obtain ⟨⟨d', hd', hq⟩, hleast⟩ := h.lookup_iff.1 hlookup
    obtain rfl : d = d' := Option.some.inj (hd.symm.trans hd')
    refine ⟨(dotted_inj (hqualified.symm.trans hq) hdname hname).2, fun other hother hshares => ?_⟩
    obtain ⟨c, hc⟩ := mem_classes_iff.1 hother
    rw [SharesName, hcontainer] at hshares
    rw [h.id_eq hd, h.id_eq hc]
    exact hleast c ⟨other, hc, hshares.trans hq⟩
  rw [← Resolver.simpleName?_eq_head?, Resolver.simpleName?, hbody, Option.none_or]
  constructor
  · intro hhead
    rcases Option.or_eq_some_iff.1 hhead with hhead | ⟨_, hhead⟩
    · exact hfound (Option.filter_eq_some_iff.1 hhead).1
    · rcases Option.or_eq_some_iff.1 hhead with hhead | ⟨_, hhead⟩
      · exact hfound hhead
      · cases hhead
  · rintro ⟨rfl, hfirst⟩
    have hlookup : index.lookup? (dotted d.module d.name) = some id := by
      refine h.lookup_iff.2 ⟨⟨d, hd, hqualified⟩, ?_⟩
      rintro c ⟨other, hc, hq⟩
      have hle := hfirst other (mem_classes_iff.2 ⟨c, hc⟩) (by
        rw [SharesName, hcontainer]
        exact hq.trans hqualified.symm)
      rwa [h.id_eq hd, h.id_eq hc] at hle
    refine Option.or_eq_some_iff.2 (.inl (Option.filter_eq_some_iff.2 ⟨hlookup, ?_⟩))
    simp [hd, hcontainer]

/-- **A class is what its name means only if it is the first of that name**: the nearest scope
that knows a simple name answers with the class just when the class has that name and no class
before it shares it. -/
theorem head?_inScopes_eq_some_iff (hd : index.get? id = some d) (hname : '.' ∉ name.toList)
    (hdname : '.' ∉ d.name.toList) :
    (inScopes index d name).head? = some id ↔ d.name = name ∧ index.IsFirstOfName d := by
  cases hcontainer : d.container with
  | none => exact h.head?_inScopes_of_top hd hcontainer hname hdname
  | some p => exact h.head?_inScopes_of_nested hd hcontainer hname hdname

end Coherent

/-- No class of the index has a dot in its name. -/
theorem not_mem_dot_name_ofModules {builtins : Bool} {modules : List (String × ModuleOutline)}
    (hmodules : ∀ m ∈ modules, IsParsed m.2) (hd : (ofModules builtins modules).get? id = some d) :
    '.' ∉ d.name.toList := by
  induction modules using List.reverseRecOn with
  | nil =>
    cases builtins with
    | false => cases hd
    | true =>
      obtain rfl := List.mem_singleton.1 (List.mem_of_getElem? hd)
      decide
  | append_singleton modules m ih =>
    rw [ofModules_concat] at hd
    rcases (adds_addModule _ m.1 m.2).old_or_new hd with hd | ⟨_, k, hk, hdescribes⟩
    · exact ih (fun m' hm' => hmodules m' (List.mem_append_left _ hm')) hd
    · have hm := hmodules m (List.mem_append_right _ (List.mem_singleton_self m))
      exact hdescribes.name_eq ▸ not_mem_dot_name hm hk

/-- **What a simple base resolves to**, in an index made of parsed modules.  A base that has the
name of its class resolves to nothing, where the class is the first of that name.  Any other
simple base resolves to the first class that its name means in the scopes around the class, the
nearest scope first and the class itself left out, and to nothing if there is none. -/
theorem simpleBase_resolves (builtins : Bool) (modules : List (String × ModuleOutline))
    (hmodules : ∀ m ∈ modules, IsParsed m.2)
    (hd : (ofModules builtins modules).get? id = some d)
    (hname : (Resolver.origin base).dottedName? = some name) (hdot : '.' ∉ name.toList) :
    let index := ofModules builtins modules
    Resolver.names false index d base =
      if d.name = name ∧ index.IsFirstOfName d then none
      else (inScopes index d name).find? (· ≠ id) := by
  intro index
  have h : index.Coherent := .ofModules builtins modules
  have hhead := h.head?_inScopes_eq_some_iff hd hdot (not_mem_dot_name_ofModules hmodules hd)
  rw [names_eq_filter hname hdot, h.id_eq hd]
  by_cases hself : d.name = name ∧ index.IsFirstOfName d
  · rw [if_pos hself, hhead.2 hself, Option.filter_some, if_neg (by simp)]
  · rw [if_neg hself]
    cases hscopes : inScopes index d name with
    | nil => rfl
    | cons b rest =>
      have hne : b ≠ id := fun heq => hself (hhead.1 (by rw [hscopes, heq]; rfl))
      rw [List.head?_cons, Option.filter_some, List.find?_cons_of_pos (by simpa using hne),
        if_pos (by simpa using hne)]

/-- A class in a class, by the name of one at the top of the module, and two classes that have
this name as their base: the nested one itself and its neighbour. -/
def shadowed : String := "class M: 0\nclass Outer:\n class M(M): 0\n class Other(M): 0\n"

/-- Around the nested classes, the name means the nested class first and that of the module
next. -/
theorem shadowed_scopes :
    ∃ m, parse shadowed "" = .outline m ∧
      let index := ofModules true [("m", m)]
      (∃ d e, index.get? ⟨3⟩ = some d ∧ d.name = "M" ∧ index.IsFirstOfName d ∧ e ∈ d.bases ∧
        (Resolver.origin e).dottedName? = some "M" ∧ inScopes index d "M" = [⟨3⟩, ⟨1⟩]) ∧
      ∃ d e, index.get? ⟨4⟩ = some d ∧ d.name = "Other" ∧ e ∈ d.bases ∧
        (Resolver.origin e).dottedName? = some "M" ∧ inScopes index d "M" = [⟨3⟩, ⟨1⟩] := by
  obtain ⟨m, hm, hclasses⟩ := exists_outline shadowed "" (fun m =>
      let index := ofModules true [("m", m)]
      ((index.get? ⟨3⟩).any fun d => d.name == "M" && decide (index.IsFirstOfName d) &&
          inScopes index d "M" == [⟨3⟩, ⟨1⟩] &&
            d.bases.any fun e => (Resolver.origin e).dottedName? == some "M") &&
        (index.get? ⟨4⟩).any fun d => d.name == "Other" && inScopes index d "M" == [⟨3⟩, ⟨1⟩] &&
          d.bases.any fun e => (Resolver.origin e).dottedName? == some "M")
    (by decide +kernel)
  simp only [Bool.and_eq_true, beq_iff_eq, decide_eq_true_eq, Option.any_eq_true,
    List.any_eq_true] at hclasses
  obtain ⟨⟨d, hd, ⟨⟨hname, hfirst⟩, hscopes⟩, e, he, hbase⟩,
    d', hd', ⟨hname', hscopes'⟩, e', he', hbase'⟩ := hclasses
  exact ⟨m, hm, ⟨d, e, hd, hname, hfirst, he, hbase, hscopes⟩,
    d', e', hd', hname', he', hbase', hscopes'⟩

/-- The hypotheses of `simpleBase_resolves` are satisfiable: of two nested classes with the base
`M`, the one that is not `M` itself has the nested `M` for its base. -/
theorem simpleBase_resolves_shadowed :
    ∃ m, parse shadowed "" = .outline m ∧
      let index := ofModules true [("m", m)]
      ∃ d e, index.get? ⟨4⟩ = some d ∧ e ∈ d.bases ∧
        Resolver.names false index d e = some ⟨3⟩ := by
  obtain ⟨m, hm, -, d, e, hd, hname, he, hbase, hscopes⟩ := shadowed_scopes
  have hmodules : ∀ entry ∈ [("m", m)], IsParsed entry.2 :=
    fun entry hentry => List.mem_singleton.1 hentry ▸ ⟨shadowed, "", hm⟩
  refine ⟨m, hm, d, e, hd, he, ?_⟩
  rw [simpleBase_resolves true [("m", m)] hmodules hd hbase (by decide), hscopes, hname,
    if_neg fun hself => absurd hself.1 (by decide)]
  rfl

/-- The nested class `M` with the base `M` gets no base, though the next scope around it has
another class of that name. -/
theorem simpleBase_skips_outer :
    ∃ m, parse shadowed "" = .outline m ∧
      let index := ofModules true [("m", m)]
      ∃ d e, index.get? ⟨3⟩ = some d ∧ e ∈ d.bases ∧
        (Resolver.origin e).dottedName? = some "M" ∧
          Resolver.names false index d e = none ∧
            (inScopes index d "M").find? (· ≠ ⟨3⟩) = some ⟨1⟩ := by
  obtain ⟨m, hm, ⟨d, e, hd, -, -, he, hbase, hscopes⟩, -⟩ := shadowed_scopes
  have hid : d.id = ⟨3⟩ := (Coherent.ofModules true [("m", m)]).id_eq hd
  refine ⟨m, hm, d, e, hd, he, hbase, ?_, by rw [hscopes]; rfl⟩
  rw [names_eq_filter hbase (by decide), hscopes, hid]
  rfl

end ClassIndex
end Hierarchy
end Lineage
