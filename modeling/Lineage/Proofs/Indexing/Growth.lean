/-
# An index grows

A further module leaves what is in an index: its classes, what its names lead to, and the
order in which classes of one name are listed.  The maps are shared by all modules, though,
and the classes that are there look their bases up in them at any time.

What the new classes can take from them is little (`GrowsBy`).  Their names have no dots, so
a qualified name tells the scope from the simple name (`dotted_inj`), and the scope of a
class has no dots of its own only if the class stands at the top of its module.  A base without
dots is looked up at the top of a module and among the builtins, so it means what it did
unless the module that is added is one of these (`names_eq`).
-/

import Lineage.Proofs.Ancestry.Agreement
import Lineage.Proofs.Ancestry.Subclass
import Lineage.Proofs.Indexing.Coherence
import Lineage.Proofs.Outline.Faithfulness
import Lineage.Proofs.Outline.Tree

namespace Lineage
namespace Hierarchy

open Outline Source

/-! ### Dotted names -/

/-- A dotted name has its two parts with a dot between them. -/
theorem toList_dotted (scope name : String) :
    (dotted scope name).toList = scope.toList ++ '.' :: name.toList := by
  simp [dotted]

/-- The last dot of a dotted name is where the simple name starts. -/
theorem dotted_inj {scope scope' name name' : String} (h : dotted scope name = dotted scope' name')
    (hname : '.' ∉ name.toList) (hname' : '.' ∉ name'.toList) : scope = scope' ∧ name = name' := by
  have hnil : ∀ {more r r' : List Char}, '.' ∉ r → '.' :: r = more ++ '.' :: r' → more = [] := by
    intro more r r' hr heq
    cases more with
    | nil => rfl
    | cons c more =>
      rw [List.cons_append, List.cons.injEq] at heq
      exact absurd (heq.2 ▸ List.mem_append_right more List.mem_cons_self) hr
  have hlist := congrArg String.toList h
  rw [toList_dotted, toList_dotted] at hlist
  rcases List.append_eq_append_iff.1 hlist with ⟨more, hscope, hrest⟩ | ⟨more, hscope, hrest⟩
  · obtain rfl := hnil hname hrest
    rw [List.append_nil] at hscope
    exact ⟨String.toList_inj.1 hscope.symm, String.toList_inj.1 (List.cons.inj hrest).2⟩
  · obtain rfl := hnil hname' hrest
    rw [List.append_nil] at hscope
    exact ⟨String.toList_inj.1 hscope, String.toList_inj.1 (List.cons.inj hrest).2.symm⟩

/-! ### Names of classes and bases -/

/-- The base is a simple name, a subscript of one, or nothing that goes by a dotted name. -/
def isSimpleBase (e : Expression) : Bool :=
  match Resolver.origin e with
  | .name _ _ => true
  | other => other.dottedName?.isNone

/-- The outline is that of a source. -/
def IsParsed (m : ModuleOutline) : Prop := ∃ source path, parse source path = .outline m

variable {module name : String} {m : ModuleOutline} {k : ClassOutline} {e : Expression}

/-- No class of a source has a dot in its name. -/
theorem not_mem_dot_name (hm : IsParsed m) (hk : k ∈ preorderAll m.classes) :
    '.' ∉ k.name.toList := by
  obtain ⟨_, _, hparse⟩ := hm
  exact (faithful_class_of_parse hparse hk).name.not_mem_dot

/-- The origin of an expression is part of it. -/
theorem origin_mem_nodes (e : Expression) : Resolver.origin e ∈ e.nodes := by
  cases e with
  | subscript value slice s =>
    exact List.mem_cons_of_mem _ (Expression.mem_nodes_self value)
  | _ => exact Expression.mem_nodes_self _

/-- A simple name as a base names what the resolver finds for it, but not the class itself. -/
theorem names_of_simpleName {index : ClassIndex} {d : ClassDecl} {anywhere : Bool}
    (hname : (Resolver.origin e).dottedName? = some name) (hdot : '.' ∉ name.toList) :
    Resolver.names anywhere index d e =
      (Resolver.simpleName? anywhere index d name).filter (· ≠ d.id) := by
  have hsimple : name.contains '.' = false := by
    rw [String.contains_char_eq]
    exact decide_eq_false hdot
  rw [Resolver.names, hname, Option.bind_some, hsimple]
  rfl

/-- A simple base of a class of a source goes by a name without dots, if by any. -/
theorem not_mem_dot_base (hm : IsParsed m) (hk : k ∈ preorderAll m.classes) (he : e ∈ k.bases)
    (hsimple : isSimpleBase e = true) (hname : (Resolver.origin e).dottedName? = some name) :
    '.' ∉ name.toList := by
  obtain ⟨source, path, hparse⟩ := hm
  rcases (faithful_class_of_parse hparse hk).bases e he with hfaithful | ⟨value, _, rfl⟩
  · have horigin := (hfaithful _ (origin_mem_nodes e)).2
    unfold isSimpleBase at hsimple
    split at hsimple
    · rename_i id s heq
      rw [heq] at horigin hname
      obtain rfl : id = name := Option.some.inj hname
      exact horigin.2.not_mem_dot
    · rw [hname] at hsimple
      cases hsimple
  · cases hname

namespace ClassIndex

variable {index grown : ClassIndex} {d : ClassDecl} {id b : ClassId} {q : String}

/-! ### What stays -/

/-- A class that is there stays as it is when a module is added. -/
theorem get?_addModule (hd : index.get? id = some d) (module : String) (m : ModuleOutline) :
    (index.addModule module m).1.get? id = some d :=
  (adds_addModule index module m).extended.get?_of_ne hd nofun

/-- A qualified name that leads to a class leads there when a module is added. -/
theorem lookup?_addModule (hid : index.lookup? q = some id) (module : String)
    (m : ModuleOutline) : (index.addModule module m).1.lookup? q = some id := by
  rw [addModule_eq, lookup?, byQualifiedName_addModuleName]
  refine addClasses_induction (P := fun index' => index'.lookup? q = some id) ?_
    (isScope_top ..) hid m.classes
  intro index' d _ hid
  rw [lookup?] at hid
  rw [lookup?, byQualifiedName_enter, lookup_bindFirst, hid, Option.some_or]

/-- The classes of a name stay in front when a module is added. -/
theorem findByName_addModule (index : ClassIndex) (name module : String) (m : ModuleOutline) :
    index.findByName name <+: (index.addModule module m).1.findByName name := by
  rw [addModule_eq, findByName, findByName, byName_addModuleName]
  refine addClasses_induction
    (P := fun index' => index.findByName name <+: index'.findByName name) ?_
    (isScope_top ..) (List.prefix_refl _) m.classes
  intro index' d _ hprefix
  refine hprefix.trans ?_
  rw [findByName, findByName, byName_enter, lookup_bindMore]
  split
  · exact List.prefix_append _ _
  · exact List.prefix_refl _

/-- Every class of the index is the builtin one, or is declared by one of the modules. -/
theorem declared_ofModules {builtins : Bool} {modules : List (String × ModuleOutline)}
    (hd : (ofModules builtins modules).get? id = some d) :
    d = .synthetic ⟨0⟩ builtinsModule "object" ∨
      ∃ m ∈ modules, ∃ k ∈ preorderAll m.2.classes, d.Describes m.1 k := by
  induction modules using List.reverseRecOn with
  | nil =>
    left
    cases builtins with
    | false => cases hd
    | true => exact List.mem_singleton.1 (List.mem_of_getElem? hd)
  | append_singleton modules m ih =>
    rw [ofModules_concat] at hd
    rcases (adds_addModule _ m.1 m.2).old_or_new hd with hd | ⟨_, k, hk, hdescribes⟩
    · refine (ih hd).imp_right fun ⟨m', hm', hdeclared⟩ => ?_
      exact ⟨m', List.mem_append_left _ hm', hdeclared⟩
    · exact .inr ⟨m, List.mem_append_right _ (List.mem_singleton_self m), k, hk, hdescribes⟩

/-! ### What is new -/

/-- Qualified names have a scope. -/
theorem Coherent.mem_dot_qualifiedName (h : index.Coherent) (hd : index.get? id = some d) :
    '.' ∈ d.qualifiedName.toList := by
  obtain ⟨scope, hscope⟩ : ∃ scope, d.qualifiedName = dotted scope d.name := by
    cases hcontainer : d.container with
    | none => exact ⟨_, h.uncontained hd hcontainer⟩
    | some p =>
      obtain ⟨_, e, _, _, hnested⟩ := h.contained hd hcontainer
      exact ⟨_, hnested⟩
  rw [hscope, toList_dotted]
  exact List.mem_append_right _ List.mem_cons_self

/-- The index has grown by classes of a module, none of which has a dot in its name. -/
structure GrowsBy (module : String) (index grown : ClassIndex) : Prop where
  before : index.Coherent
  after : grown.Coherent
  get? : ∀ {id d}, index.get? id = some d → grown.get? id = some d
  lookup? : ∀ {q id}, index.lookup? q = some id → grown.lookup? q = some id
  added : ∀ {id d}, grown.get? id = some d →
    index.get? id = some d ∨ index.get? id = none ∧ d.module = module ∧ '.' ∉ d.name.toList

/-- To add a module of a source lets the index grow by classes of it. -/
theorem growsBy_addModule (h : index.Coherent) (module : String) (hm : IsParsed m) :
    GrowsBy module index (index.addModule module m).1 where
  before := h
  after := h.addModule module m
  get? hd := get?_addModule hd module m
  lookup? hid := lookup?_addModule hid module m
  added hd := by
    refine ((adds_addModule index module m).old_or_new hd).imp_right ?_
    rintro ⟨hnew, k, hk, hdescribes⟩
    exact ⟨hnew, hdescribes.module_eq, hdescribes.name_eq ▸ not_mem_dot_name hm hk⟩

namespace GrowsBy

variable (h : GrowsBy module index grown)

include h

/-- A new class that a dotted name leads to stands at the top of the module and has the
module for its scope, or the scope has a dot. -/
theorem scope_of_new {scope : String} (hd : grown.get? id = some d) (hnew : index.get? id = none)
    (hname : '.' ∉ name.toList) (hq : d.qualifiedName = dotted scope name) :
    d.container = none ∧ scope = module ∨ d.container.isSome ∧ '.' ∈ scope.toList := by
  obtain hold | ⟨_, hmodule, hdot⟩ := h.added hd
  · rw [hnew] at hold
    cases hold
  · cases hcontainer : d.container with
    | none =>
      have htop := h.after.uncontained hd hcontainer
      obtain ⟨rfl, _⟩ := dotted_inj (hq.symm.trans htop) hname hdot
      exact .inl ⟨rfl, hmodule⟩
    | some p =>
      obtain ⟨_, e, he, _, hnested⟩ := h.after.contained hd hcontainer
      obtain ⟨rfl, _⟩ := dotted_inj (hq.symm.trans hnested) hname hdot
      exact .inr ⟨rfl, h.after.mem_dot_qualifiedName he⟩

/-- A lookup that changes finds a new class. -/
theorem lookup?_eq_or (q : String) :
    grown.lookup? q = index.lookup? q ∨ index.lookup? q = none ∧
      ∃ id d, grown.lookup? q = some id ∧ grown.get? id = some d ∧ index.get? id = none ∧
        d.qualifiedName = q := by
  cases hbefore : index.lookup? q with
  | some id => exact .inl (h.lookup? hbefore)
  | none =>
    cases hafter : grown.lookup? q with
    | none => exact .inl rfl
    | some id =>
      obtain ⟨⟨d, hd, hq⟩, _⟩ := h.after.lookup_iff.1 hafter
      obtain hold | ⟨hnew, _⟩ := h.added hd
      · exact absurd ⟨d, hold, hq⟩ (h.before.not_shows_of_lookup_eq_none hbefore id)
      · exact .inr ⟨rfl, id, d, rfl, hd, hnew, hq⟩

/-- Another module keeps its classes: a new one of that qualified name is a nested one. -/
theorem moduleClass?_eq {scope : String} (hscope : scope ≠ module) (hname : '.' ∉ name.toList) :
    grown.moduleClass? scope name = index.moduleClass? scope name := by
  unfold moduleClass?
  rcases h.lookup?_eq_or (dotted scope name) with heq | ⟨hnone, id, d, hafter, hd, hnew, hq⟩
  · rw [heq]
    cases hbefore : index.lookup? (dotted scope name) with
    | none => rfl
    | some id =>
      obtain ⟨⟨d, hd, _⟩, _⟩ := h.before.lookup_iff.1 hbefore
      simp only [Option.filter_some, hd, h.get? hd]
  · rcases h.scope_of_new hd hnew hname hq with ⟨_, rfl⟩ | ⟨hcontainer, _⟩
    · exact absurd rfl hscope
    · rw [hnone, hafter]
      simp [hd, hcontainer]

/-- The builtins keep theirs: their scope has no dot. -/
theorem builtin?_eq (hbuiltins : module ≠ builtinsModule) (hname : '.' ∉ name.toList) :
    grown.builtin? name = index.builtin? name := by
  unfold builtin?
  rcases h.lookup?_eq_or (dotted builtinsModule name) with heq | ⟨_, id, d, _, hd, hnew, hq⟩
  · exact heq
  · rcases h.scope_of_new hd hnew hname hq with ⟨_, rfl⟩ | ⟨_, hdot⟩
    · exact absurd rfl hbuiltins
    · exact absurd hdot (by decide)

/-- What a name means in the enclosing body stays the same. -/
theorem inEnclosingBody?_eq (hd : index.get? id = some d) (name : String) :
    Resolver.inEnclosingBody? grown d name = Resolver.inEnclosingBody? index d name := by
  unfold Resolver.inEnclosingBody?
  cases hcontainer : d.container with
  | none => rfl
  | some p =>
    obtain ⟨_, e, he, _⟩ := h.before.contained hd hcontainer
    rw [Option.bind_some, Option.bind_some, he, h.get? he]

/-- **A base without dots means what it did**, unless the module is that of the class or
that of the builtins. -/
theorem names_eq (hbuiltins : module ≠ builtinsModule) (hd : index.get? id = some d)
    (hmodule : d.module ≠ module)
    (he : ∀ name, (Resolver.origin e).dottedName? = some name → '.' ∉ name.toList) :
    Resolver.names false grown d e = Resolver.names false index d e := by
  cases hname : (Resolver.origin e).dottedName? with
  | none => rw [Resolver.names, Resolver.names, hname, Option.bind_none, Option.bind_none]
  | some name =>
    have hdot := he name hname
    rw [names_of_simpleName hname hdot, names_of_simpleName hname hdot, Resolver.simpleName?,
      Resolver.simpleName?, h.inEnclosingBody?_eq hd, h.moduleClass?_eq hmodule hdot,
      h.builtin?_eq hbuiltins hdot]
    rfl

end GrowsBy

/-- A qualified name of a coherent index leads to a class that is there. -/
theorem Coherent.exists_get?_of_lookup? (h : index.Coherent) (hb : index.lookup? q = some b) :
    ∃ d, index.get? b = some d := by
  obtain ⟨⟨d, hd, _⟩, _⟩ := h.lookup_iff.1 hb
  exact ⟨d, hd⟩

/-- What a base resolves to is in the index. -/
theorem Coherent.exists_get?_of_names (h : index.Coherent)
    (hb : Resolver.names false index d e = some b) : ∃ d', index.get? b = some d' := by
  obtain ⟨hb, _⟩ := Option.filter_eq_some_iff.1 hb
  obtain ⟨name, _, hb⟩ := Option.bind_eq_some_iff.1 hb
  split at hb
  · simp only [Resolver.dottedName?, Option.or_eq_some_iff] at hb
    rcases hb with hb | ⟨_, hb | ⟨_, hb⟩⟩
    · exact h.exists_get?_of_lookup? hb
    · exact h.exists_get?_of_lookup? hb
    · obtain ⟨_, _, hb⟩ := Option.bind_eq_some_iff.1 hb
      split at hb
      · exact h.exists_get?_of_lookup? hb
      · cases hb
  · simp only [Resolver.simpleName?, Option.or_eq_some_iff] at hb
    rcases hb with hb | ⟨_, hb | ⟨_, hb | ⟨_, hb⟩⟩⟩
    · obtain ⟨e, he, hb⟩ := Option.bind_eq_some_iff.1 hb
      obtain ⟨p, _, hp⟩ := Option.bind_eq_some_iff.1 he
      obtain ⟨n, hn, rfl⟩ := Option.map_eq_some_iff.1 hb
      obtain ⟨d', hd', _⟩ := (h.mem_nested_iff hp n).1 (List.mem_of_find?_eq_some hn)
      exact ⟨d', hd'⟩
    · obtain ⟨hb, _⟩ := Option.filter_eq_some_iff.1 hb
      exact h.exists_get?_of_lookup? hb
    · exact h.exists_get?_of_lookup? hb
    · cases hb

namespace GrowsBy

variable (h : GrowsBy module index grown)

include h

/-- **The bases of a class stay**, if they go by names without dots. -/
theorem superClasses_eq (hbuiltins : module ≠ builtinsModule) (hd : index.get? id = some d)
    (hmodule : d.module ≠ module)
    (he : ∀ e ∈ d.bases, ∀ name, (Resolver.origin e).dottedName? = some name →
      '.' ∉ name.toList) :
    superClasses grown (.names false) id = superClasses index (.names false) id := by
  unfold superClasses
  rw [hd, h.get? hd]
  dsimp only
  rw [List.filterMap_congr fun e hmem => h.names_eq hbuiltins hd hmodule (he e hmem)]
  refine List.foldl_ext _ _ _ fun found b hb => ?_
  obtain ⟨e, _, hresolved⟩ := List.mem_filterMap.1 hb
  obtain ⟨d', hd'⟩ := h.before.exists_get?_of_names hresolved
  rw [hd', h.get? hd']

/-- **All that a class reaches stays**, if the module is new to it and its bases go by names
without dots. -/
theorem agreesFrom (hbuiltins : module ≠ builtinsModule) (hd : index.get? id = some d)
    (hreached : ∀ c d, (index.graph (.names false)).Reaches id c → index.get? c = some d →
      d.module ≠ module ∧ ∀ e ∈ d.bases, ∀ name, (Resolver.origin e).dottedName? = some name →
        '.' ∉ name.toList) :
    (index.graph (.names false)).AgreesFrom (grown.graph (.names false)) id := by
  intro c hc
  have hdeclared : ∃ d', index.get? c = some d' := by
    cases hc with
    | refl => exact ⟨d, hd⟩
    | tail _ edge => exact Option.isSome_iff_exists.1 (mem_ids.1 (BaseGraph.mem_ids_of_edge edge))
  obtain ⟨d', hd'⟩ := hdeclared
  obtain ⟨hmodule, he⟩ := hreached c d' hc hd'
  refine ⟨h.superClasses_eq hbuiltins hd' hmodule he, ?_⟩
  show ((grown.get? c).map _).getD _ = ((index.get? c).map _).getD _
  rw [hd', h.get? hd']

end GrowsBy

/-- A view of a class has its declaration, and the graph and the context that it was made with. -/
theorem of_view?_eq_some {resolver : Resolver} {context : Context} {v : View}
    (hv : index.view? resolver context id = some v) :
    index.get? v.id = some v.decl ∧ v.graph = index.graph resolver ∧ v.context = context ∧
      v.id = id := by
  obtain ⟨rfl, rfl, rfl, rfl⟩ := view?_eq_some hv
  exact ⟨v.isDeclared, rfl, rfl, rfl⟩

/-- **A further module leaves what is in an index.**  The index is made of parsed modules, and
the module is one.  Every class stays as it is declared, every qualified name leads to the
class that it led to, and new classes of a simple name come behind the others.

The ancestry of a class stays too, with its diagnostics, if the module is not the builtins and
no class that it reaches is of that module, and if the bases of these classes are simple names,
subscripts of simple names, or nothing that goes by a dotted name. -/
theorem addModule_leaves (builtins : Bool) (modules : List (String × ModuleOutline))
    (module : String) (m : ModuleOutline) (hmodules : ∀ m ∈ modules, IsParsed m.2)
    (hm : IsParsed m) :
    let index := ofModules builtins modules
    let grown := (index.addModule module m).1
    (∀ id d, index.get? id = some d → grown.get? id = some d) ∧
      (∀ q id, index.lookup? q = some id → grown.lookup? q = some id) ∧
      (∀ name, index.findByName name <+: grown.findByName name) ∧
      ∀ context id v, index.view? (.names false) context id = some v →
        module ≠ builtinsModule →
        (∀ c d, v.graph.Reaches id c → index.get? c = some d →
          d.module ≠ module ∧ ∀ e ∈ d.bases, isSimpleBase e = true) →
        ∃ v', grown.view? (.names false) context id = some v' ∧
          v'.linearization = v.linearization ∧
            ∀ other, v'.isSubclass other = v.isSubclass other := by
  intro index grown
  have hgrows : GrowsBy module index grown :=
    growsBy_addModule (.ofModules builtins modules) module hm
  refine ⟨fun _ _ => hgrows.get?, fun _ _ => hgrows.lookup?,
    fun name => findByName_addModule index name module m, ?_⟩
  intro context id v hv hbuiltins hreached
  obtain ⟨hd, hgraph, hcontext, rfl⟩ := of_view?_eq_some hv
  have hdotless : ∀ c d, (index.graph (.names false)).Reaches v.id c → index.get? c = some d →
      d.module ≠ module ∧ ∀ e ∈ d.bases, ∀ name,
        (Resolver.origin e).dottedName? = some name → '.' ∉ name.toList := by
    intro c d hc hd
    obtain ⟨hmodule, hsimple⟩ := hreached c d (hgraph ▸ hc) hd
    refine ⟨hmodule, fun e he name hname => ?_⟩
    rcases declared_ofModules hd with rfl | ⟨m, hm, k, hk, hdescribes⟩
    · cases he
    · exact not_mem_dot_base (hmodules m hm) hk (hdescribes.bases_eq ▸ he) (hsimple e he) hname
  have hagrees := hgrows.agreesFrom hbuiltins hd hdotless
  obtain ⟨v', hv'⟩ := exists_view? (hgrows.get? hd) (.names false) context
  obtain ⟨_, hgraph', hcontext', hid'⟩ := of_view?_eq_some hv'
  refine ⟨v', hv', ?_, fun other => ?_⟩
  · rw [View.linearization, View.linearization, hgraph, hgraph', hcontext, hcontext', hid',
      BaseGraph.linearize_congr hagrees]
  · rw [Bool.eq_iff_iff, isSubclass_eq_true_iff, isSubclass_eq_true_iff, hgraph, hgraph', hid',
      BaseGraph.reaches_congr hagrees]

/-- A class and one that derives from it. -/
def kin : String := "class A: 0\nclass B(A): 0\n"

/-- Two classes that derive from each other. -/
def knot : String := "class A(B): 0\nclass B(A): 0\n"

/-- The hypotheses of `addModule_leaves` are satisfiable: `B` of the module `a` still derives
from `A` of that module once a module `b` with a cycle between its own `A` and `B` is added. -/
theorem addModule_leaves_kin :
    ∃ m m', parse kin "" = .outline m ∧ parse knot "" = .outline m' ∧
      let index := ofModules true [("a", m)]
      ∃ v v', index.view? (.names false) .python3 ⟨2⟩ = some v ∧
        (index.addModule "b" m').1.view? (.names false) .python3 ⟨2⟩ = some v' ∧
          v.isSubclass ⟨1⟩ = true ∧ v'.isSubclass ⟨1⟩ = true ∧
            v'.linearization = v.linearization := by
  obtain ⟨m, hm, hclasses⟩ := exists_outline kin "" (fun m =>
      let index := ofModules true [("a", m)]
      index.classes.all (fun d => d.module ≠ "b" && d.bases.all isSimpleBase) &&
        (index.get? ⟨1⟩).isSome && (index.get? ⟨2⟩).any fun d => d.bases.any fun e =>
          (Resolver.origin e).dottedName? == some "A" &&
            (Resolver.simpleName? false index d "A").filter (· ≠ d.id) == some ⟨1⟩)
    (by decide +kernel)
  obtain ⟨m', hm', -⟩ := exists_outline knot "" (fun _ => true) (by decide +kernel)
  refine ⟨m, m', hm, hm', ?_⟩
  intro index
  simp only [Bool.and_eq_true, List.all_eq_true, decide_eq_true_eq] at hclasses
  obtain ⟨⟨hall, hA⟩, hB⟩ := hclasses
  obtain ⟨d, hd, hbases⟩ := (Option.any_eq_true ..).1 hB
  obtain ⟨e, he, hbase⟩ := List.any_eq_true.1 hbases
  simp only [Bool.and_eq_true, beq_iff_eq] at hbase
  obtain ⟨v, hv⟩ := exists_view? hd (.names false) .python3
  have hmodules : ∀ entry ∈ [("a", m)], IsParsed entry.2 :=
    fun entry hentry => List.mem_singleton.1 hentry ▸ ⟨kin, "", hm⟩
  have hreached : ∀ c d, v.graph.Reaches ⟨2⟩ c → index.get? c = some d →
      d.module ≠ "b" ∧ ∀ e ∈ d.bases, isSimpleBase e = true :=
    fun c d _ hd => hall d (List.mem_of_getElem? hd)
  obtain ⟨v', hv', hlinearization, hsubclass⟩ :=
    (addModule_leaves true [("a", m)] "b" m' hmodules ⟨knot, "", hm'⟩).2.2.2 .python3 ⟨2⟩ v hv
      (by decide) hreached
  have hedge : (⟨1⟩ : ClassId) ∈ superClasses index (.names false) ⟨2⟩ := by
    have hresolved := (names_of_simpleName hbase.1 (by decide)).trans hbase.2
    exact mem_superClasses.2 ⟨d, hd, ⟨e, he, hresolved⟩, hA⟩
  have hsub : v.isSubclass ⟨1⟩ = true := by
    obtain ⟨_, hgraph, _, hid⟩ := of_view?_eq_some hv
    rw [isSubclass_eq_true_iff, hid, hgraph]
    exact .single hedge
  exact ⟨v, v', hv, hv', hsub, (hsubclass ⟨1⟩).trans hsub, hlinearization⟩

end ClassIndex
end Hierarchy
end Lineage
