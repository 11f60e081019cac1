/-
# Methods are told apart by their spans

A property is found by one of its accessors: the query compares the span ids of methods, and
neither the class nor the place of the method.  In the classes of one module that comes to the
same, since no two definitions of a source share an id (`span_id_eq_iff`).  So a method finds
the first property of its own class that it is an accessor of, and nothing in another class of
the module (`spanIds_identify`).
-/

import Lineage.Proofs.Indexing.Growth
import Lineage.Proofs.Outline.Identities

namespace Lineage
namespace Hierarchy

open Outline

variable {module : String} {m : ModuleOutline} {c d : ClassOutline} {f g : FunctionOutline}
  {a b i j lo hi : Nat}

/-- What holds between any two items of a list holds between two of its places. -/
theorem rel_of_getElem?_of_ne {α : Type} {R : α → α → Prop} {l : List α} {x y : α}
    (h : l.Pairwise R) (hsymm : ∀ {x y}, R x y → R y x) (hx : l[i]? = some x)
    (hy : l[j]? = some y) (hne : i ≠ j) : R x y := by
  obtain ⟨hi, rfl⟩ := List.getElem?_eq_some_iff.1 hx
  obtain ⟨hj, rfl⟩ := List.getElem?_eq_some_iff.1 hy
  rcases Nat.lt_or_gt_of_ne hne with hlt | hgt
  · exact List.pairwise_iff_getElem.1 h i j hi hj hlt
  · exact hsymm (List.pairwise_iff_getElem.1 h j i hj hi hgt)

/-! ### Ids of methods -/

/-- No definition of the first part has the id of one of the second. -/
def IdsApart (S T : Spans) : Prop := ∀ s ∈ S.definitions, ∀ t ∈ T.definitions, s.id ≠ t.id

/-- Parts are apart from each other in both directions. -/
theorem IdsApart.symm {S T : Spans} (h : IdsApart S T) : IdsApart T S :=
  fun t ht s hs => (h s hs t ht).symm

/-- The parts of an outline have ids apart, and each of them has. -/
theorem pairwise_idsApart {α : Type} {parts : α → Spans} {as : List α}
    (h : (Spans.each parts as).definitions.Pairwise (·.id ≠ ·.id)) :
    (∀ a ∈ as, (parts a).definitions.Pairwise (·.id ≠ ·.id)) ∧
      as.Pairwise fun a b => IdsApart (parts a) (parts b) :=
  List.pairwise_flatMap.1 h

/-- The span of a method is one of the definitions of its class. -/
theorem span_mem_definitions_of_mem_methods (hf : f ∈ c.methods) :
    f.span ∈ c.spans.definitions :=
  c.methods_sublist_definitions.subset (List.mem_flatMap.2 ⟨f, hf, f.span_mem_definitions⟩)

/-- **The id of a method says where it stands**: in which class of the module, and where among
the methods of that class. -/
theorem span_id_eq_iff (h : Numbered module lo hi m.spans)
    (hc : (preorderAll m.classes)[a]? = some c) (hd : (preorderAll m.classes)[b]? = some d)
    (hf : c.methods[i]? = some f) (hg : d.methods[j]? = some g) :
    f.span.id = g.span.id ↔ a = b ∧ i = j := by
  have hall : m.spans.definitions.Pairwise (·.id ≠ ·.id) := List.pairwise_map.1 h.apart
  obtain ⟨hwithin, hbetween⟩ := pairwise_idsApart (hall.sublist m.classes_sublist_definitions)
  constructor
  · intro hid
    obtain rfl : a = b := by
      refine Decidable.byContradiction fun hab => ?_
      exact rel_of_getElem?_of_ne hbetween .symm hc hd hab
        _ (span_mem_definitions_of_mem_methods (List.mem_of_getElem? hf))
        _ (span_mem_definitions_of_mem_methods (List.mem_of_getElem? hg)) hid
    obtain rfl : c = d := Option.some.inj (hc.symm.trans hd)
    have hclass := hwithin c (List.mem_of_getElem? hc)
    have hmethods := (pairwise_idsApart (hclass.sublist c.methods_sublist_definitions)).2
    refine ⟨rfl, Decidable.byContradiction fun hij => ?_⟩
    exact rel_of_getElem?_of_ne hmethods .symm hf hg hij
      _ f.span_mem_definitions _ g.span_mem_definitions hid
  · rintro ⟨rfl, rfl⟩
    obtain rfl : c = d := Option.some.inj (hc.symm.trans hd)
    obtain rfl : f = g := Option.some.inj (hf.symm.trans hg)
    rfl

/-! ### The query -/

/-- The methods of a class that is declared are those of its outline. -/
theorem ClassDecl.Describes.exists_method {d : ClassDecl} {f : Method}
    (h : d.Describes module c) (hf : d.methods[i]? = some f) :
    ∃ g, c.methods[i]? = some g ∧ g.span = f.span := by
  have hmethods : d.methods = c.methods.map Method.ofOutline := congrArg (·.methods) h
  rw [hmethods, List.getElem?_map] at hf
  obtain ⟨g, hg, rfl⟩ := Option.map_eq_some_iff.1 hf
  exact ⟨g, hg, rfl⟩

/-- The property of a method is the first one with an accessor of the same span id. -/
theorem propertyByCallable?_eq_find? {v : View} {f : Method} :
    v.propertyByCallable? f = v.decl.properties.find? fun p =>
      p.methodIndices.any fun j => v.decl.methods[j]?.any (·.span.id == f.span.id) := by
  unfold View.propertyByCallable?
  refine congrArg (List.find? · v.decl.properties) (funext fun p => ?_)
  refine congrArg p.methodIndices.any (funext fun j => ?_)
  cases v.decl.methods[j]? <;> rfl

/-- If the id of a method tells its place in the class, or that it is of another class, the
query compares places. -/
theorem propertyByCallable?_eq_ite {v : View} {f : Method} {own : Prop} [Decidable own]
    (hid : ∀ j g, v.decl.methods[j]? = some g → (g.span.id = f.span.id ↔ own ∧ j = i))
    (hown : own → v.decl.methods[i]? = some f) :
    v.propertyByCallable? f =
      if own then v.decl.properties.find? (·.methodIndices.contains i) else none := by
  have hplace : ∀ j, v.decl.methods[j]?.any (·.span.id == f.span.id) = true ↔ own ∧ j = i := by
    intro j
    cases hj : v.decl.methods[j]? with
    | some g => simpa using hid j g hj
    | none =>
      constructor
      · intro h
        cases h
      · rintro ⟨h, rfl⟩
        cases hj.symm.trans (hown h)
  rw [propertyByCallable?_eq_find?]
  split
  · rename_i h
    refine congrArg (List.find? · v.decl.properties) (funext fun p => ?_)
    rw [Bool.eq_iff_iff, List.any_eq_true, List.contains_iff_mem]
    constructor
    · rintro ⟨j, hj, heq⟩
      exact ((hplace j).1 heq).2 ▸ hj
    · exact fun hi => ⟨i, hi, (hplace i).2 ⟨h, rfl⟩⟩
  · rename_i h
    refine List.find?_eq_none.2 fun p _ hp => ?_
    obtain ⟨j, _, heq⟩ := List.any_eq_true.1 hp
    exact h ((hplace j).1 heq).1

namespace ClassIndex

variable {index : ClassIndex} {id : ClassId}

/-- The classes that are added are those of the module, at their places. -/
theorem exists_view?_of_mem_addModule (h : id ∈ (index.addModule module m).2)
    (resolver : Resolver) (context : Context) :
    ∃ n c v, id = ⟨index.size + n⟩ ∧ (preorderAll m.classes)[n]? = some c ∧
      (index.addModule module m).1.view? resolver context id = some v ∧
        v.decl.Describes module c := by
  have hadds := adds_addModule index module m
  rw [hadds.ids_eq] at h
  obtain ⟨k, hk, rfl⟩ := List.mem_map.1 h
  obtain ⟨n, hn, rfl⟩ := List.mem_range'.1 hk
  rw [Nat.one_mul]
  have hc := List.getElem?_eq_getElem hn
  obtain ⟨d, hd, hdescribes⟩ := hadds.described n _ hc
  obtain ⟨v, hv⟩ := exists_view? hd resolver context
  obtain ⟨hdecl, _, _, hid⟩ := of_view?_eq_some hv
  rw [hid, hd] at hdecl
  exact ⟨n, _, v, rfl, hc, hv, Option.some.inj hdecl ▸ hdescribes⟩

/-- **Span ids identify definitions.**  The definitions of a source, at any depth, have ids of
their own, and spans with the same id are the same stretch of the source.  So once its outline
has been added to an index, a method finds the first property of its own class that it is an
accessor of, by its own place, and nothing in another class of the outline.  (The numbers in
ids have no bound here; a counter of 32 bits gives the same ones to fewer than `2 ^ 32` spans.) -/
theorem spanIds_identify {source path : String} {m : ModuleOutline}
    (h : parse source path = .outline m) :
    (m.spans.definitions.map (·.id)).Nodup ∧
    (∀ s ∈ m.spans.all, ∀ t ∈ m.spans.all, s.id = t.id → s.start = t.start ∧ s.stop = t.stop) ∧
    ∀ (index : ClassIndex) (module : String) (resolver : Resolver) (context : Context),
      ∀ a ∈ (index.addModule module m).2, ∀ b ∈ (index.addModule module m).2,
        ∃ v w, (index.addModule module m).1.view? resolver context a = some v ∧
          (index.addModule module m).1.view? resolver context b = some w ∧
          ∀ i f, w.decl.methods[i]? = some f →
            v.propertyByCallable? f =
              if a = b then v.decl.properties.find? (·.methodIndices.contains i) else none := by
  obtain ⟨n, hnumbered⟩ := numbered_of_parse h
  refine ⟨hnumbered.apart, fun s hs t ht hid => ?_, ?_⟩
  · rw [hnumbered.same s hs t ht hid]
    exact ⟨rfl, rfl⟩
  · intro index module resolver context a ha b hb
    obtain ⟨na, c, v, hna, hc, hv, hvc⟩ := exists_view?_of_mem_addModule ha resolver context
    obtain ⟨nb, d, w, hnb, hd, hw, hwd⟩ := exists_view?_of_mem_addModule hb resolver context
    refine ⟨v, w, hv, hw, fun i f hf => propertyByCallable?_eq_ite (fun j g hg => ?_) ?_⟩
    · obtain ⟨g', hg', hgspan⟩ := hvc.exists_method hg
      obtain ⟨f', hf', hfspan⟩ := hwd.exists_method hf
      rw [← hgspan, ← hfspan, span_id_eq_iff hnumbered hc hd hg' hf', hna, hnb, ClassId.mk.injEq,
        Nat.add_left_cancel_iff]
    · rintro rfl
      rw [Option.some.inj (hv.symm.trans hw)]
      exact hf

/-- A value that is shared, an attempt at a binding that is given up, and a class in another. -/
def sharedParts : String :=
  "class A:\n @property\n def p(self): self.x = (1: 2); self.y = self.z = 0\n"
    ++ " x, y = z = 1, 2\n class B:\n  def m(self): 0\n"

/-- `sharedParts` has that many definitions and expressions, and two classes with a method. -/
def hasSharedParts (m : ModuleOutline) : Bool :=
  let added := empty.addModule "a" m
  decide (m.spans.definitions.length = 11 ∧ m.spans.expressions.length = 8 ∧
    added.2 = [⟨0⟩, ⟨1⟩] ∧ ∀ id ∈ added.2, (added.1.get? id).map (·.methods.length) = some 1)

/-- The method of `A` finds a property of `A`, and the method of `B` none. -/
theorem spanIds_identify_sharedParts :
    ∃ m, parse sharedParts "" = .outline m ∧ m.spans.definitions.length = 11 ∧
      (m.spans.definitions.map (·.id)).Nodup ∧
      let index := (empty.addModule "a" m).1
      ∃ v w f g, index.view? (.names false) .python3 ⟨0⟩ = some v ∧
        index.view? (.names false) .python3 ⟨1⟩ = some w ∧ v.decl.methods[0]? = some f ∧
        w.decl.methods[0]? = some g ∧
        v.propertyByCallable? f = v.decl.properties.find? (·.methodIndices.contains 0) ∧
        v.propertyByCallable? g = none := by
  obtain ⟨m, hm, hparts⟩ := exists_outline sharedParts "" hasSharedParts (by decide +kernel)
  obtain ⟨hlength, _, hids, hmethods⟩ := of_decide_eq_true hparts
  obtain ⟨hnodup, _, hquery⟩ := spanIds_identify hm
  have hquery := hquery .empty "a" (.names false) .python3
  rw [hids] at hquery hmethods
  obtain ⟨v, w, hv, hw, hother⟩ := hquery ⟨0⟩ (by simp) ⟨1⟩ (by simp)
  obtain ⟨v', v'', hv', hv'', hown⟩ := hquery ⟨0⟩ (by simp) ⟨0⟩ (by simp)
  obtain rfl := Option.some.inj (hv'.symm.trans hv)
  obtain rfl := Option.some.inj (hv''.symm.trans hv)
  have hfirst : ∀ {id u}, id ∈ [(⟨0⟩ : ClassId), ⟨1⟩] →
      (empty.addModule "a" m).1.view? (.names false) .python3 id = some u →
        ∃ f, u.decl.methods[0]? = some f := by
    intro id u hmem hu
    obtain ⟨hdecl, _, _, rfl⟩ := of_view?_eq_some hu
    have hone := hmethods u.id hmem
    rw [hdecl, Option.map_some, Option.some.injEq] at hone
    exact ⟨_, List.getElem?_eq_getElem (hone ▸ Nat.zero_lt_one)⟩
  obtain ⟨f, hf⟩ := hfirst (by simp) hv
  obtain ⟨g, hg⟩ := hfirst (by simp) hw
  exact ⟨m, hm, hlength, hnodup, _, w, f, g, hv, hw, hf, hg, hown 0 f hf, hother 0 g hg⟩

end ClassIndex
end Hierarchy
end Lineage
