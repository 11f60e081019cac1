/-
# The first word on a property counts

A contribution to a property that exists fills what is empty in it, so what is known after
some contributions is the first word on each matter (`sums_foldl`).  As they come in the order
of their places, the names of a class's properties are distinct and in the order in which they
are first spoken of, and each role and the documentation is what is said of it at the first
place (`firstWins_addModule`).
-/

import Lineage.Proofs.Indexing.Contributions

namespace Lineage
namespace Hierarchy

open Outline

variable {methods : List Method} {attributes : List Binding} {c e : Contribution}
  {cs : List Contribution} {p q : Property} {ps : List Property} {name : String} {role : Role}
  {a : Accessor} {i : Nat} {x y : Place}

/-! ### What is known after some contributions -/

/-- The accessor that a contribution is, in that role of that property. -/
def accessorFor? (name : String) (role : Role) : Contribution → Option Accessor
  | .accessor n r a => if n = name ∧ r = role then some a else none
  | _ => none

/-- The documentation of that property that a contribution is. -/
def docFor? (name : String) : Contribution → Option String
  | .doc n text => if n = name then some text else none
  | _ => none

/-- A contribution is an accessor in a role of a property just when it says so. -/
theorem accessorFor?_eq_some_iff :
    accessorFor? name role c = some a ↔ c = .accessor name role a := by
  cases c <;> simp [accessorFor?, and_assoc]

/-- A contribution documents a property just when it says so. -/
theorem docFor?_eq_some_iff {text : String} :
    docFor? name c = some text ↔ c = .doc name text := by
  cases c <;> simp [docFor?]

/-- A contribution to another property is no accessor of this one. -/
theorem accessorFor?_eq_none (h : c.name ≠ name) : accessorFor? name role c = none := by
  refine Option.eq_none_iff_forall_ne_some.2 fun a ha => h ?_
  rw [accessorFor?_eq_some_iff.1 ha]
  rfl

/-- A contribution to another property does not document this one. -/
theorem docFor?_eq_none (h : c.name ≠ name) : docFor? name c = none := by
  refine Option.eq_none_iff_forall_ne_some.2 fun text htext => h ?_
  rw [docFor?_eq_some_iff.1 htext]
  rfl

/-- In each role the accessor that is first given stays. -/
theorem Property.accessor_contribute (p : Property) (c : Contribution) (h : p.name = c.name)
    (role : Role) :
    (p.contribute c).accessor role = (p.accessor role).or (accessorFor? p.name role c) := by
  cases c with
  | accessor n r a =>
    obtain rfl : p.name = n := h
    cases r <;> cases role <;> simp [contribute, accessor, accessorFor?]
  | declared n => simp [contribute, accessorFor?]
  | doc n text => cases role <;> simp [contribute, accessor, accessorFor?]

/-- The documentation that is first given stays. -/
theorem Property.doc_contribute (p : Property) (c : Contribution) (h : p.name = c.name) :
    (p.contribute c).doc = p.doc.or (docFor? p.name c) := by
  cases c with
  | accessor n r a => cases r <;> simp [contribute, docFor?]
  | declared n => simp [contribute, docFor?]
  | doc n text =>
    obtain rfl : p.name = n := h
    simp [contribute, docFor?]

/-- The property has the first accessor in each role and the first documentation among the
contributions. -/
structure HasFirst (cs : List Contribution) (p : Property) : Prop where
  spoken : ∃ c ∈ cs, c.name = p.name
  accessor : ∀ role, p.accessor role = cs.findSome? (accessorFor? p.name role)
  doc : p.doc = cs.findSome? (docFor? p.name)

/-- The first name is spoken of before the second one. -/
def SpokenBefore (cs : List Contribution) (u w : String) : Prop :=
  ∃ l r, cs = l ++ r ∧ (∃ c ∈ l, c.name = u) ∧ ∀ c ∈ l, c.name ≠ w

/-- The properties are those that the contributions are about, in the order in which they
are first spoken of, and each has what is said of it first. -/
structure Sums (cs : List Contribution) (ps : List Property) : Prop where
  nodup : (ps.map (·.name)).Nodup
  complete : ∀ c ∈ cs, ∃ p ∈ ps, p.name = c.name
  first : ∀ p ∈ ps, HasFirst cs p
  ordered : (ps.map (·.name)).Pairwise (SpokenBefore cs)

/-- Nothing that is said later changes what was spoken of before. -/
theorem SpokenBefore.append {u w : String} (h : SpokenBefore cs u w)
    (more : List Contribution) : SpokenBefore (cs ++ more) u w := by
  obtain ⟨l, r, rfl, hu, hw⟩ := h
  exact ⟨l, r ++ more, List.append_assoc l r more, hu, hw⟩

/-- One more contribution, about another property. -/
theorem HasFirst.append_other (h : HasFirst cs p) (hne : c.name ≠ p.name) :
    HasFirst (cs ++ [c]) p where
  spoken := by
    obtain ⟨e, he, hname⟩ := h.spoken
    exact ⟨e, List.mem_append_left _ he, hname⟩
  accessor role := by
    rw [h.accessor role, List.findSome?_append, List.findSome?_singleton,
      accessorFor?_eq_none hne, Option.or_none]
  doc := by
    rw [h.doc, List.findSome?_append, List.findSome?_singleton, docFor?_eq_none hne,
      Option.or_none]

/-- One more contribution, to the property. -/
theorem HasFirst.append_self (h : HasFirst cs p) (heq : p.name = c.name) :
    HasFirst (cs ++ [c]) (p.contribute c) where
  spoken := ⟨c, List.mem_append_right _ List.mem_cons_self, by
    rw [Property.name_contribute, heq]⟩
  accessor role := by
    rw [p.accessor_contribute c heq, h.accessor role, Property.name_contribute,
      List.findSome?_append, List.findSome?_singleton]
  doc := by
    rw [p.doc_contribute c heq, h.doc, Property.name_contribute, List.findSome?_append,
      List.findSome?_singleton]

/-- The first contribution to a property. -/
theorem hasFirst_new (hnew : ∀ e ∈ cs, e.name ≠ c.name) :
    HasFirst (cs ++ [c]) ((Property.named c.name).contribute c) where
  spoken := ⟨c, List.mem_append_right _ List.mem_cons_self, by
    rw [Property.name_contribute, Property.named]⟩
  accessor role := by
    have hbefore : cs.findSome? (accessorFor? c.name role) = none :=
      List.findSome?_eq_none_iff.2 fun e he => accessorFor?_eq_none (hnew e he)
    rw [Property.accessor_contribute _ c rfl, Property.name_contribute, List.findSome?_append,
      List.findSome?_singleton]
    change _ = (cs.findSome? (accessorFor? c.name role)).or _
    rw [hbefore]
    cases role <;> rfl
  doc := by
    have hbefore : cs.findSome? (docFor? c.name) = none :=
      List.findSome?_eq_none_iff.2 fun e he => docFor?_eq_none (hnew e he)
    rw [Property.doc_contribute _ c rfl, Property.name_contribute, List.findSome?_append,
      List.findSome?_singleton]
    change _ = (cs.findSome? (docFor? c.name)).or _
    rw [hbefore]
    rfl

/-- A contribution goes to the property of its name, or makes a new one at the end. -/
theorem addContribution_cases (ps : List Property) (c : Contribution) :
    (∃ l p r, ps = l ++ p :: r ∧ p.name = c.name ∧
        addContribution ps c = l ++ p.contribute c :: r) ∨
      (∀ p ∈ ps, p.name ≠ c.name) ∧
        addContribution ps c = ps ++ [(Property.named c.name).contribute c] := by
  induction ps with
  | nil => exact .inr ⟨nofun, rfl⟩
  | cons p ps ih =>
    unfold addContribution
    split
    · rename_i heq
      exact .inl ⟨[], p, ps, rfl, heq, rfl⟩
    · rename_i hne
      rcases ih with ⟨l, q, r, rfl, heq, hadd⟩ | ⟨hnone, hadd⟩
      · exact .inl ⟨p :: l, q, r, rfl, heq, by rw [hadd, List.cons_append]⟩
      · exact .inr ⟨List.forall_mem_cons.2 ⟨hne, hnone⟩, by rw [hadd, List.cons_append]⟩

/-- One more contribution, to a property that there is. -/
theorem Sums.contribute {l r : List Property} (h : Sums cs (l ++ p :: r)) (heq : p.name = c.name) :
    Sums (cs ++ [c]) (l ++ p.contribute c :: r) := by
  have hnames : ((l ++ p.contribute c :: r).map (·.name)) = (l ++ p :: r).map (·.name) := by
    simp
  have hother : ∀ q ∈ l ++ r, c.name ≠ q.name := by
    intro q hq hname
    have hnodup := h.nodup
    rw [List.map_append, List.map_cons, List.nodup_middle, List.nodup_cons,
      ← List.map_append] at hnodup
    exact hnodup.1 (List.mem_map.2 ⟨q, hq, by rw [heq, hname]⟩)
  refine ⟨hnames ▸ h.nodup, fun e he => ?_, fun q hq => ?_,
    hnames ▸ h.ordered.imp fun hpq => hpq.append [c]⟩
  · have hmem : e.name ∈ (l ++ p :: r).map (·.name) := by
      rcases List.mem_append.1 he with he | he
      · obtain ⟨q, hq, hname⟩ := h.complete e he
        exact hname ▸ List.mem_map_of_mem hq
      · rw [List.mem_singleton.1 he, ← heq]
        exact List.mem_map_of_mem (List.mem_append_right l List.mem_cons_self)
    rw [← hnames] at hmem
    exact List.mem_map.1 hmem
  · rcases List.mem_append.1 hq with hq | hq
    · exact (h.first q (List.mem_append_left _ hq)).append_other
        (hother q (List.mem_append_left _ hq))
    · rcases List.mem_cons.1 hq with rfl | hq
      · exact (h.first p (List.mem_append_right l List.mem_cons_self)).append_self heq
      · exact (h.first q (List.mem_append_right l (List.mem_cons_of_mem _ hq))).append_other
          (hother q (List.mem_append_right l hq))

/-- One more contribution, to a property that there is not yet. -/
theorem Sums.declare (h : Sums cs ps) (hnone : ∀ p ∈ ps, p.name ≠ c.name) :
    Sums (cs ++ [c]) (ps ++ [(Property.named c.name).contribute c]) := by
  have hnew : ∀ e ∈ cs, e.name ≠ c.name := fun e he hname => by
    obtain ⟨q, hq, hqname⟩ := h.complete e he
    exact hnone q hq (hqname.trans hname)
  refine ⟨?_, fun e he => ?_, fun q hq => ?_, ?_⟩
  · rw [List.map_append, List.map_singleton, Property.name_contribute]
    refine List.nodup_append.2 ⟨h.nodup, List.nodup_singleton _, fun u hu w hw => ?_⟩
    obtain ⟨q, hq, rfl⟩ := List.mem_map.1 hu
    rw [List.mem_singleton.1 hw]
    exact hnone q hq
  · rcases List.mem_append.1 he with he | he
    · obtain ⟨q, hq, hname⟩ := h.complete e he
      exact ⟨q, List.mem_append_left _ hq, hname⟩
    · rw [List.mem_singleton.1 he]
      exact ⟨_, List.mem_append_right _ List.mem_cons_self, Property.name_contribute _ _⟩
  · rcases List.mem_append.1 hq with hq | hq
    · exact (h.first q hq).append_other (hnone q hq).symm
    · rw [List.mem_singleton.1 hq]
      exact hasFirst_new hnew
  · rw [List.map_append, List.map_singleton, Property.name_contribute]
    refine List.pairwise_append.2 ⟨h.ordered.imp fun hpq => hpq.append [c],
      List.pairwise_singleton _ _, fun u hu w hw => ?_⟩
    obtain ⟨p, hp, rfl⟩ := List.mem_map.1 hu
    rw [List.mem_singleton.1 hw]
    exact ⟨cs, [c], rfl, (h.first p hp).spoken, hnew⟩

/-- One more contribution keeps what is known, and adds what is new. -/
theorem Sums.add (h : Sums cs ps) (c : Contribution) : Sums (cs ++ [c]) (addContribution ps c) := by
  rcases addContribution_cases ps c with ⟨l, p, r, rfl, heq, hadd⟩ | ⟨hnone, hadd⟩
  · rw [hadd]
    exact h.contribute heq
  · rw [hadd]
    exact h.declare hnone

/-- **What is known after contributions is the first word on each matter.** -/
theorem sums_foldl (cs : List Contribution) : Sums cs (cs.foldl addContribution []) := by
  induction cs using List.reverseRecOn with
  | nil =>
    exact ⟨List.nodup_nil, nofun, nofun, .nil⟩
  | append_singleton cs c ih =>
    rw [List.foldl_append, List.foldl_cons, List.foldl_nil]
    exact ih.add c

/-! ### The properties of a class -/

/-- Of two places one stands before the other, or they are the same. -/
theorem Place.before_or (x y : Place) : x.Before y ∨ x = y ∨ y.Before x := by
  obtain ⟨start, rank, part⟩ := x
  obtain ⟨start', rank', part'⟩ := y
  unfold Before
  rw [Place.mk.injEq]
  dsimp only
  omega

/-- No place stands before itself. -/
theorem Place.not_before_self (x : Place) : ¬ x.Before x := by
  unfold Before
  omega

/-- The list has what is said at each place, in the order of the places. -/
structure ListsSaid (methods : List Method) (attributes : List Binding)
    (said : List (Place × Contribution)) : Prop where
  mem_iff : ∀ x c, (x, c) ∈ said ↔ Says methods attributes x c
  places : said.Pairwise fun u w => ¬ w.1.Before u.1

namespace ListsSaid

variable {said : List (Place × Contribution)} {α : Type} {f : Contribution → Option α}
  {K : α → Contribution} {v : α}

/-- The contributions are what is said at some place. -/
theorem mem_contributions (h : ListsSaid methods attributes said) :
    c ∈ said.map (·.2) ↔ ∃ x, Says methods attributes x c := by
  rw [List.mem_map]
  constructor
  · rintro ⟨⟨x, c⟩, hmem, rfl⟩
    exact ⟨x, (h.mem_iff x c).1 hmem⟩
  · rintro ⟨x, hx⟩
    exact ⟨(x, c), (h.mem_iff x c).2 hx, rfl⟩

/-- What is found in the list is said, and not said before. -/
theorem said_of_findSome? (h : ListsSaid methods attributes said)
    (hf : ∀ c v, f c = some v ↔ c = K v) (hfound : (said.map (·.2)).findSome? f = some v) :
    ∃ x, Says methods attributes x (K v) ∧
      ∀ y w, Says methods attributes y (K w) → ¬ y.Before x := by
  rw [List.findSome?_map] at hfound
  obtain ⟨l, ⟨x, c⟩, r, rfl, hc, hnone⟩ := List.findSome?_eq_some_iff.1 hfound
  obtain rfl := (hf c v).1 hc
  refine ⟨x, (h.mem_iff x _).1 (List.mem_append_right l List.mem_cons_self), fun y w hy => ?_⟩
  rcases List.mem_append.1 ((h.mem_iff y _).2 hy) with hl | hr
  · have hlate := hnone _ hl
    rw [Function.comp_apply, (hf _ w).2 rfl] at hlate
    cases hlate
  · rcases List.mem_cons.1 hr with heq | hr
    · rw [(Prod.mk.inj heq).1]
      exact x.not_before_self
    · exact (List.pairwise_cons.1 (List.pairwise_append.1 h.places).2.1).1 _ hr

/-- What is found first in the list is what is said first. -/
theorem findSome?_eq_some_iff (h : ListsSaid methods attributes said)
    (hf : ∀ c v, f c = some v ↔ c = K v) (hkind : ∀ v w, (K v).isDoc = (K w).isDoc) :
    (said.map (·.2)).findSome? f = some v ↔
      ∃ x, Says methods attributes x (K v) ∧
        ∀ y w, Says methods attributes y (K w) → ¬ y.Before x := by
  refine ⟨h.said_of_findSome? hf, fun ⟨x, hx, hleast⟩ => ?_⟩
  have hsome : ((said.map (·.2)).findSome? f).isSome := by
    rw [List.findSome?_isSome_iff]
    exact ⟨K v, h.mem_contributions.2 ⟨x, hx⟩, by rw [(hf _ v).2 rfl]; rfl⟩
  obtain ⟨w, hw⟩ := Option.isSome_iff_exists.1 hsome
  obtain ⟨y, hy, hleast'⟩ := h.said_of_findSome? hf hw
  -- both places are the first one
  obtain rfl : x = y := by
    rcases x.before_or y with hlt | heq | hlt
    · exact absurd hlt (hleast' x v hx)
    · exact heq
    · exact absurd hlt (hleast y w hy)
  have hsame : K v = K w := (hx.agree hy).2 (hkind v w)
  rw [hw]
  exact congrArg some (Option.some.inj (((hf _ w).2 hsame).symm.trans ((hf _ v).2 rfl)))

/-- Nothing is found if nothing is said. -/
theorem findSome?_eq_none_iff (h : ListsSaid methods attributes said)
    (hf : ∀ c v, f c = some v ↔ c = K v) :
    (said.map (·.2)).findSome? f = none ↔ ∀ x v, ¬ Says methods attributes x (K v) := by
  rw [List.findSome?_eq_none_iff]
  constructor
  · intro hnone x v hx
    have hfound := hnone _ (h.mem_contributions.2 ⟨x, hx⟩)
    rw [(hf _ v).2 rfl] at hfound
    cases hfound
  · intro hnot c hc
    refine Option.eq_none_iff_forall_ne_some.2 fun v hv => ?_
    obtain ⟨x, hx⟩ := h.mem_contributions.1 hc
    exact hnot x v ((hf c v).1 hv ▸ hx)

/-- A name that the list speaks of first is spoken of at an earlier place. -/
theorem exists_before {u w : String} (h : ListsSaid methods attributes said)
    (hbefore : SpokenBefore (said.map (·.2)) u w) :
    ∃ x c, Says methods attributes x c ∧ c.name = u ∧
      ∀ y e, Says methods attributes y e → e.name = w → x.Before y := by
  obtain ⟨l, r, hsplit, ⟨c, hc, hu⟩, hw⟩ := hbefore
  obtain ⟨l', r', rfl, rfl, rfl⟩ := List.map_eq_append_iff.1 hsplit
  obtain ⟨⟨x, c⟩, hx, rfl⟩ := List.mem_map.1 hc
  have hhere := (h.mem_iff x c).1 (List.mem_append_left r' hx)
  refine ⟨x, c, hhere, hu, fun y e hy hname => ?_⟩
  have hbehind : (y, e) ∈ r' := by
    rcases List.mem_append.1 ((h.mem_iff y e).2 hy) with hl | hr
    · exact absurd hname (hw e (List.mem_map_of_mem hl))
    · exact hr
  rcases x.before_or y with hlt | rfl | hlt
  · exact hlt
  · exact absurd ((hhere.agree hy).1.trans hname) (hw c hc)
  · exact absurd hlt ((List.pairwise_append.1 h.places).2.2 _ hx _ hbehind)

end ListsSaid

namespace ClassDecl

/-- What the methods and attributes of the class say about its properties. -/
def Says (d : ClassDecl) (x : Place) (c : Contribution) : Prop :=
  Hierarchy.Says d.methods d.classAttributes x c

/-- The properties of the class are those that its methods and attributes speak of.  Their
names are distinct, in the order in which they are first spoken of.  A role has the accessor
that is first given for it, if there is one, and the documentation is the first that is given.
An accessor that is a method is one that is decorated as it, or the first method of the name
that an argument of a property call has. -/
structure FirstWins (d : ClassDecl) : Prop where
  nodup : (d.properties.map (·.name)).Nodup
  mem_iff : ∀ name, name ∈ d.properties.map (·.name) ↔ ∃ x c, d.Says x c ∧ c.name = name
  ordered : (d.properties.map (·.name)).Pairwise fun u w =>
    ∃ x c, d.Says x c ∧ c.name = u ∧ ∀ y e, d.Says y e → e.name = w → x.Before y
  accessor_iff : ∀ p ∈ d.properties, ∀ role a, p.accessor role = some a ↔
    ∃ x, d.Says x (.accessor p.name role a) ∧
      ∀ y b, d.Says y (.accessor p.name role b) → ¬ y.Before x
  accessor_none_iff : ∀ p ∈ d.properties, ∀ role, p.accessor role = none ↔
    ∀ x a, ¬ d.Says x (.accessor p.name role a)
  doc_iff : ∀ p ∈ d.properties, ∀ text, p.doc = some text ↔
    ∃ x, d.Says x (.doc p.name text) ∧ ∀ y other, d.Says y (.doc p.name other) → ¬ y.Before x
  doc_none_iff : ∀ p ∈ d.properties, p.doc = none ↔ ∀ x text, ¬ d.Says x (.doc p.name text)
  method : ∀ p ∈ d.properties, ∀ role i, p.accessor role = some (.method i) →
    i < d.methods.length ∧
      ((∃ m dec, d.methods[i]? = some m ∧ dec ∈ m.decorators ∧ Decorates m dec p.name role) ∨
        ∃ b arguments v id, b ∈ d.classAttributes ∧ b.target = p.name ∧
          CallsProperty b arguments ∧ v ∈ arguments ∧ v.value.isName id = true ∧
          IsFirstNamed d.methods id i)

end ClassDecl

/-- A method that is said to be an accessor is one that is decorated, or the first one of its
name. -/
theorem Says.method_cases (h : Says methods attributes x (.accessor name role (.method i))) :
    i < methods.length ∧
      ((∃ m dec, methods[i]? = some m ∧ dec ∈ m.decorators ∧ Decorates m dec name role) ∨
        ∃ b arguments v id, b ∈ attributes ∧ b.target = name ∧
          CallsProperty b arguments ∧ v ∈ arguments ∧ v.value.isName id = true ∧
          IsFirstNamed methods id i) := by
  rcases h with ⟨m, hm, _, h⟩ | ⟨j, b, _, hb, _, h⟩
  · cases h with
    | accessor hd h =>
      exact ⟨(List.getElem?_eq_some_iff.1 hm).1,
        .inl ⟨m, _, hm, List.mem_of_getElem? hd, h⟩⟩
  · generalize x.part = part at h
    cases h with
    | accessor hcall hv _ _ ha =>
      cases ha with
      | method hid _ hfirst =>
        obtain ⟨m, hm, _⟩ := hfirst.1
        exact ⟨(List.getElem?_eq_some_iff.1 hm).1, .inr ⟨b, _, _, _, List.mem_of_getElem? hb,
          rfl, hcall, List.mem_of_getElem? hv, hid, hfirst⟩⟩

/-- What contributions say at their places decides the properties that they sum up to. -/
theorem firstWins_of_discovered {d : ClassDecl}
    (h : d.properties = discoverProperties d.methods d.classAttributes) : d.FirstWins := by
  obtain ⟨said, hcontributions, hplaces, hmem⟩ := exists_said d.methods d.classAttributes
  have hsaid : ListsSaid d.methods d.classAttributes said := ⟨hmem, hplaces⟩
  have hsums := sums_foldl (said.map (·.2))
  have hproperties : (said.map (·.2)).foldl addContribution [] = d.properties := by
    rw [hcontributions, h, discoverProperties]
  rw [hproperties] at hsums
  have haccessor : ∀ p ∈ d.properties, ∀ role a, p.accessor role = some a ↔
      ∃ x, d.Says x (.accessor p.name role a) ∧
        ∀ y b, d.Says y (.accessor p.name role b) → ¬ y.Before x := by
    intro p hp role a
    rw [(hsums.first p hp).accessor role]
    exact hsaid.findSome?_eq_some_iff (fun _ _ => accessorFor?_eq_some_iff) (fun _ _ => rfl)
  refine ⟨hsums.nodup, fun name => ?_, hsums.ordered.imp hsaid.exists_before, haccessor,
    fun p hp role => ?_, fun p hp text => ?_, fun p hp => ?_, fun p hp role i hi => ?_⟩
  · rw [List.mem_map]
    constructor
    · rintro ⟨p, hp, rfl⟩
      obtain ⟨c, hc, hname⟩ := (hsums.first p hp).spoken
      obtain ⟨x, hx⟩ := hsaid.mem_contributions.1 hc
      exact ⟨x, c, hx, hname⟩
    · rintro ⟨x, c, hx, rfl⟩
      exact hsums.complete c (hsaid.mem_contributions.2 ⟨x, hx⟩)
  · rw [(hsums.first p hp).accessor role]
    exact hsaid.findSome?_eq_none_iff fun _ _ => accessorFor?_eq_some_iff
  · rw [(hsums.first p hp).doc]
    exact hsaid.findSome?_eq_some_iff (fun _ _ => docFor?_eq_some_iff) (fun _ _ => rfl)
  · rw [(hsums.first p hp).doc]
    exact hsaid.findSome?_eq_none_iff fun _ _ => docFor?_eq_some_iff
  · obtain ⟨x, hx, _⟩ := (haccessor p hp role _).1 hi
    exact hx.method_cases

/-- The properties of a declared class are those that its own methods and attributes make up. -/
theorem ClassDecl.Describes.properties_eq {d : ClassDecl} {module : String} {c : ClassOutline}
    (h : d.Describes module c) :
    d.properties = discoverProperties d.methods d.classAttributes := by
  have hmethods : d.methods = c.methods.map Method.ofOutline := congrArg (·.methods) h
  have hattributes : d.classAttributes = c.bindings := congrArg (·.classAttributes) h
  have hproperties : d.properties =
      discoverProperties (c.methods.map Method.ofOutline) c.bindings := congrArg (·.properties) h
  rw [hproperties, hmethods, hattributes]

namespace ClassIndex

/-- **The first word on a property counts**, in source order.  Whatever outline is added to an
index, each of its classes is declared there with properties of distinct names, in the order
in which its methods and attributes first speak of them; each role has the accessor that is
given for it first, and the documentation is the first that is given. -/
theorem firstWins_addModule (index : ClassIndex) (module : String) (m : ModuleOutline)
    (n : Fin (preorderAll m.classes).length) :
    ∃ d, (index.addModule module m).1.get? ⟨index.size + n⟩ = some d ∧
      d.Describes module (preorderAll m.classes)[n] ∧ d.FirstWins := by
  obtain ⟨d, hd, hdescribes⟩ := (adds_addModule index module m).described n _
    (List.getElem?_eq_getElem n.isLt)
  exact ⟨d, hd, hdescribes, firstWins_of_discovered hdescribes.properties_eq⟩

end ClassIndex
end Hierarchy
end Lineage
