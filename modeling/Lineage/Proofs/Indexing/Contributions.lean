/-
# What a class body says about properties

What the declarations of a class body say about properties has a place in the source
(`Place`): where the declaration starts, which one it is, and which of its decorators or
arguments speaks.  `Says` lists what is said at which place, apart from how it is collected.
A place speaks of one property, and says one thing of each kind (`Says.agree`).  Collecting
sorts the declarations, and as the sort is stable, what they contribute comes in the order of
the places (`exists_said`).
-/

import Lineage.Proofs.Indexing.Growth

namespace Lineage
namespace Hierarchy

open Outline

variable {methods : List Method} {attributes : List Binding} {m : Method} {b : Binding}
  {c e : Contribution} {d : Decorator} {name target last parameter : String} {role : Role}
  {a : Accessor} {arguments : List (Argument Expression)} {value : Expression}
  {i k part : Nat} {x : Place}

/-! ### What a class body says -/

/-- Where something is said about a property: the start of the declaration, its number among
the methods and the attributes behind them, and the number of its part that speaks. -/
structure Place where
  start : Nat
  rank : Nat
  part : Nat

/-- The place comes before the other. -/
def Place.Before (x y : Place) : Prop :=
  x.start < y.start ∨
    x.start = y.start ∧ (x.rank < y.rank ∨ x.rank = y.rank ∧ x.part < y.part)

/-- The decorator makes a method a getter. -/
def IsGetterDecorator (d : Decorator) : Prop := ∃ name ∈ getterDecorators, d.name? = some name

/-- The decorator makes the method an accessor of that property, in that role. -/
inductive Decorates (m : Method) (d : Decorator) : String → Role → Prop
  | getter (h : IsGetterDecorator d) : Decorates m d m.name .getter
  | role {target last : String} {role : Role} (h : d.name? = some (dotted target last))
      (hsimple : '.' ∉ target.toList) (hrole : roleOf? last = some role) :
      Decorates m d target role

/-- The method is the first one of that name. -/
def IsFirstNamed (methods : List Method) (name : String) (i : Nat) : Prop :=
  (∃ m, methods[i]? = some m ∧ m.name = name) ∧
    ∀ j < i, ∀ m, methods[j]? = some m → m.name ≠ name

/-- The expression is an accessor: the first method of its name, or itself if it is neither
the name of a method nor `None`. -/
inductive Supplies (methods : List Method) (value : Expression) : Accessor → Prop
  | method {id : String} {i : Nat} (h : value.isName id = true) (hid : id ≠ "None")
      (hfirst : IsFirstNamed methods id i) : Supplies methods value (.method i)
  | expression (hnone : value.isName "None" = false)
      (hother : ∀ m ∈ methods, value.isName m.name = false) :
      Supplies methods value (.expression value)

/-- The argument stands for the next parameter in the order. -/
def isPositional (v : Argument Expression) : Bool := v.unpacking == .none && v.name.isNone

/-- The parameter of an argument: its keyword, or else the parameter behind those of the
arguments before it that have no keyword either. -/
def parameterAt? (arguments : List (Argument Expression)) (k : Nat) : Option String :=
  arguments[k]?.bind fun v =>
    if v.unpacking ≠ .none then none
    else v.name.or propertyParameters[(arguments.take k).countP isPositional]?

/-- The attribute is bound to a property call with those arguments. -/
def CallsProperty (b : Binding) (arguments : List (Argument Expression)) : Prop :=
  ∃ function span, b.value = some (.call function arguments span) ∧
    ∃ callee ∈ propertyCalls, function.dottedName? = some callee

/-- What a decorator of the method says. -/
inductive MethodSays (i : Nat) (m : Method) (k : Nat) : Contribution → Prop
  | accessor {d : Decorator} {name : String} {role : Role} (hd : m.decorators[k]? = some d)
      (h : Decorates m d name role) : MethodSays i m k (.accessor name role (.method i))
  | doc {d : Decorator} {text : String} (hd : m.decorators[k]? = some d)
      (h : IsGetterDecorator d) (hdoc : m.doc = some text) : MethodSays i m k (.doc m.name text)

/-- What the property call of an attribute says, by itself and then by its arguments. -/
inductive AttributeSays (methods : List Method) (b : Binding) : Nat → Contribution → Prop
  | declared {arguments : List (Argument Expression)} (h : CallsProperty b arguments) :
      AttributeSays methods b 0 (.declared b.target)
  | accessor {arguments : List (Argument Expression)} {k : Nat} {v : Argument Expression}
      {parameter : String} {role : Role} {a : Accessor} (h : CallsProperty b arguments)
      (hv : arguments[k]? = some v) (hparameter : parameterAt? arguments k = some parameter)
      (hrole : parameterRole? parameter = some role) (ha : Supplies methods v.value a) :
      AttributeSays methods b (k + 1) (.accessor b.target role a)
  | doc {arguments : List (Argument Expression)} {k : Nat} {v : Argument Expression}
      {text : String} (h : CallsProperty b arguments) (hv : arguments[k]? = some v)
      (hparameter : parameterAt? arguments k = some "doc")
      (htext : v.value.stringValue? = some text) :
      AttributeSays methods b (k + 1) (.doc b.target text)

/-- What the methods and attributes of a class body say, and where. -/
def Says (methods : List Method) (attributes : List Binding) (x : Place) (c : Contribution) :
    Prop :=
  (∃ m, methods[x.rank]? = some m ∧ m.span.start = x.start ∧ MethodSays x.rank m x.part c) ∨
    ∃ j b, x.rank = methods.length + j ∧ attributes[j]? = some b ∧ b.span.start = x.start ∧
      AttributeSays methods b x.part c

/-! ### Decorators -/

/-- The last dot of a name is where it is split. -/
theorem splitLastDot?_eq_some_iff : splitLastDot? name = some (target, last) ↔
    name = dotted target last ∧ '.' ∉ last.toList := by
  have hsplit := @List.takeWhile_append_dropWhile Char (· != '.') name.toList.reverse
  have hdrop := congrArg (List.drop (name.toList.reverse.takeWhile (· != '.')).length) hsplit
  rw [List.drop_left] at hdrop
  constructor
  · intro h
    unfold splitLastDot? at h
    simp only [← hdrop] at h
    split at h
    · cases h
    · rename_i dot front hfront
      obtain ⟨rfl, rfl⟩ := Prod.mk.inj (Option.some.inj h)
      have hdot := List.head?_dropWhile_not (· != '.') name.toList.reverse
      rw [hfront] at hdot hsplit
      obtain rfl : dot = '.' := by simpa using hdot
      refine ⟨String.toList_injective ?_, ?_⟩
      · rw [toList_dotted, String.toList_ofList, String.toList_ofList, ← List.reverse_inj,
          List.reverse_append, List.reverse_cons, List.reverse_reverse, List.reverse_reverse,
          List.append_assoc, List.singleton_append, hsplit]
      · rw [String.toList_ofList, List.mem_reverse]
        intro hmem
        simpa using List.all_eq_true.1 List.all_takeWhile _ hmem
  · rintro ⟨rfl, hlast⟩
    have hreverse : (dotted target last).toList.reverse =
        last.toList.reverse ++ '.' :: target.toList.reverse := by
      rw [toList_dotted]
      simp
    have hall : ∀ c ∈ last.toList.reverse, (c != '.') = true := by
      intro c hc
      rw [bne_iff_ne]
      rintro rfl
      exact hlast (List.mem_reverse.1 hc)
    unfold splitLastDot?
    simp only [← hdrop]
    rw [hreverse, List.takeWhile_append_of_pos hall, List.dropWhile_append_of_pos hall]
    simp

/-- The name of a role has no dot. -/
theorem not_mem_dot_of_roleOf? (h : roleOf? last = some role) : '.' ∉ last.toList := by
  unfold roleOf? at h
  split at h
  · decide
  · decide
  · decide
  · cases h

/-- No decorator of a getter names a role. -/
theorem roleOf?_of_mem_getterDecorators : ∀ name ∈ getterDecorators,
    (splitLastDot? name).bind (fun parts => roleOf? parts.2) = none := by
  decide +kernel

/-- The decorator of a getter names no role. -/
theorem IsGetterDecorator.roleOf?_eq_none (h : IsGetterDecorator d)
    (hname : d.name? = some (dotted target last)) : roleOf? last = none := by
  obtain ⟨callee, hmem, hcallee⟩ := h
  obtain rfl := Option.some.inj (hcallee.symm.trans hname)
  refine Option.eq_none_iff_forall_ne_some.2 fun role hrole => ?_
  have hnone := roleOf?_of_mem_getterDecorators _ hmem
  rw [splitLastDot?_eq_some_iff.2 ⟨rfl, not_mem_dot_of_roleOf? hrole⟩, Option.bind_some,
    hrole] at hnone
  cases hnone

/-- A decorator says one thing. -/
theorem Decorates.agree {name' : String} {role' : Role} (h : Decorates m d name role)
    (h' : Decorates m d name' role') : name = name' ∧ role = role' := by
  cases h with
  | getter hd =>
    cases h' with
    | getter _ => exact ⟨rfl, rfl⟩
    | role hname _ hrole =>
      rw [hd.roleOf?_eq_none hname] at hrole
      cases hrole
  | role hname _ hrole =>
    cases h' with
    | getter hd =>
      rw [hd.roleOf?_eq_none hname] at hrole
      cases hrole
    | role hname' _ hrole' =>
      obtain ⟨rfl, rfl⟩ := dotted_inj (Option.some.inj (hname.symm.trans hname'))
        (not_mem_dot_of_roleOf? hrole) (not_mem_dot_of_roleOf? hrole')
      exact ⟨rfl, Option.some.inj (hrole.symm.trans hrole')⟩

/-- The decorator of a getter contributes the getter and the documentation of the method. -/
theorem IsGetterDecorator.contributions (h : IsGetterDecorator d) :
    decoratorContributions i m d = .accessor m.name .getter (.method i) ::
      (m.doc.map fun text => Contribution.doc m.name text).toList := by
  obtain ⟨callee, hmem, hname⟩ := h
  unfold decoratorContributions
  rw [hname]
  simp only [if_pos (List.contains_iff_mem.2 hmem)]

/-- A decorator that names the role of a property contributes an accessor. -/
theorem decoratorContributions_role (hname : d.name? = some (dotted target last))
    (hsimple : '.' ∉ target.toList) (hrole : roleOf? last = some role) :
    decoratorContributions i m d = [.accessor target role (.method i)] := by
  have hother : ¬ getterDecorators.contains (dotted target last) = true := by
    intro hmem
    have hnone := IsGetterDecorator.roleOf?_eq_none ⟨_, List.contains_iff_mem.1 hmem, hname⟩ hname
    rw [hrole] at hnone
    cases hnone
  have hsplit := splitLastDot?_eq_some_iff.2
    ⟨(rfl : dotted target last = _), not_mem_dot_of_roleOf? hrole⟩
  have hdot : ¬ target.contains '.' = true := by
    rw [String.contains_char_eq, decide_eq_true_eq]
    exact hsimple
  unfold decoratorContributions
  rw [hname]
  simp only [if_neg hother, hsplit, hrole, if_neg hdot]

/-- A decorator is that of a getter, or names the role of a property, or contributes nothing. -/
theorem decoratorContributions_cases (i : Nat) (m : Method) (d : Decorator) :
    IsGetterDecorator d ∨
      (∃ target last role, d.name? = some (dotted target last) ∧ '.' ∉ target.toList ∧
        roleOf? last = some role) ∨
      decoratorContributions i m d = [] := by
  unfold decoratorContributions
  split
  · exact .inr (.inr rfl)
  · rename_i callee hname
    split
    · rename_i hgetter
      exact .inl ⟨callee, List.contains_iff_mem.1 hgetter, hname⟩
    · split
      · exact .inr (.inr rfl)
      · rename_i target last hsplit
        obtain ⟨rfl, -⟩ := splitLastDot?_eq_some_iff.1 hsplit
        split
        · rename_i role hrole
          split
          · exact .inr (.inr rfl)
          · rename_i hdot
            rw [String.contains_char_eq, decide_eq_true_eq] at hdot
            exact .inr (.inl ⟨target, last, role, hname, hdot, hrole⟩)
        · exact .inr (.inr rfl)

/-- What a decorator contributes is what it says. -/
theorem mem_decoratorContributions_iff (hd : m.decorators[k]? = some d) :
    c ∈ decoratorContributions i m d ↔ MethodSays i m k c := by
  constructor
  · intro h
    rcases decoratorContributions_cases i m d with
      hgetter | ⟨target, last, role, hname, hsimple, hrole⟩ | hnone
    · rw [hgetter.contributions] at h
      rcases List.mem_cons.1 h with rfl | h
      · exact .accessor hd (.getter hgetter)
      · obtain ⟨text, hdoc, rfl⟩ := Option.map_eq_some_iff.1 (Option.mem_toList.1 h)
        exact .doc hd hgetter hdoc
    · rw [decoratorContributions_role hname hsimple hrole] at h
      obtain rfl := List.mem_singleton.1 h
      exact .accessor hd (.role hname hsimple hrole)
    · rw [hnone] at h
      cases h
  · intro h
    cases h with
    | accessor hd' h =>
      obtain rfl := Option.some.inj (hd.symm.trans hd')
      cases h with
      | getter h =>
        rw [h.contributions]
        exact List.mem_cons_self
      | role hname hsimple hrole =>
        rw [decoratorContributions_role hname hsimple hrole]
        exact List.mem_singleton_self _
    | doc hd' h hdoc =>
      obtain rfl := Option.some.inj (hd.symm.trans hd')
      rw [h.contributions, hdoc]
      exact List.mem_cons_of_mem _ List.mem_cons_self

/-! ### Arguments -/

/-- A name is found at the first method that has it. -/
theorem findIdx?_eq_some_iff : methods.findIdx? (·.name == name) = some i ↔
    IsFirstNamed methods name i := by
  rw [List.findIdx?_eq_some_iff_getElem]
  constructor
  · rintro ⟨hi, hname, hbefore⟩
    refine ⟨⟨methods[i], List.getElem?_eq_getElem hi, beq_iff_eq.1 hname⟩, ?_⟩
    intro j hj m hm heq
    obtain ⟨_, rfl⟩ := List.getElem?_eq_some_iff.1 hm
    exact hbefore j hj (beq_iff_eq.2 heq)
  · rintro ⟨⟨m, hm, rfl⟩, hbefore⟩
    obtain ⟨hi, rfl⟩ := List.getElem?_eq_some_iff.1 hm
    refine ⟨hi, beq_self_eq_true _, fun j hj hname => ?_⟩
    exact hbefore j hj _ (List.getElem?_eq_getElem _) (beq_iff_eq.1 hname)

/-- The accessor that an expression supplies is found for it. -/
theorem Supplies.accessorOf?_eq (h : Supplies methods value a) :
    accessorOf? methods value = some a := by
  cases h with
  | method hname hid hfirst =>
    cases value with
    | name id' span =>
      obtain rfl := beq_iff_eq.1 hname
      have hnone : ¬ (Expression.name id' span).isName "None" = true := fun h =>
        hid (beq_iff_eq.1 h)
      unfold accessorOf?
      simp only [if_neg hnone, findIdx?_eq_some_iff.2 hfirst]
    | _ => cases hname
  | expression hnone hother =>
    unfold accessorOf?
    rw [if_neg (Bool.eq_false_iff.1 hnone)]
    cases value with
    | name id span =>
      have hnot : methods.findIdx? (·.name == id) = none := by
        refine List.findIdx?_eq_none_iff.2 fun m hm => Bool.eq_false_iff.2 fun heq => ?_
        refine Bool.eq_false_iff.1 (hother m hm) ?_
        rw [beq_iff_eq.1 heq]
        exact beq_self_eq_true id
      simp only [hnot]
    | _ => rfl

/-- Every expression but `None` is an accessor. -/
theorem exists_supplies (methods : List Method) (hnone : value.isName "None" = false) :
    ∃ a, Supplies methods value a := by
  by_cases hnamed : ∃ m ∈ methods, value.isName m.name = true
  · obtain ⟨m, hm, hname⟩ := hnamed
    have hid : m.name ≠ "None" := by
      intro heq
      rw [heq, hnone] at hname
      cases hname
    cases hfirst : methods.findIdx? (·.name == m.name) with
    | some i => exact ⟨.method i, .method hname hid (findIdx?_eq_some_iff.1 hfirst)⟩
    | none =>
      have hother := List.findIdx?_eq_none_iff.1 hfirst m hm
      rw [beq_self_eq_true] at hother
      cases hother
  · exact ⟨_, .expression hnone fun m hm => Bool.eq_false_iff.2 fun hname => hnamed ⟨m, hm, hname⟩⟩

/-- The accessor that is found is the one that the expression supplies. -/
theorem accessorOf?_eq_some_iff : accessorOf? methods value = some a ↔
    Supplies methods value a := by
  refine ⟨fun h => ?_, Supplies.accessorOf?_eq⟩
  have hnone : value.isName "None" = false := by
    refine Bool.eq_false_iff.2 fun hnone => ?_
    unfold accessorOf? at h
    rw [if_pos hnone] at h
    cases h
  obtain ⟨a', h'⟩ := exists_supplies methods hnone
  obtain rfl := Option.some.inj (h'.accessorOf?_eq.symm.trans h)
  exact h'

/-- An expression supplies one accessor at most. -/
theorem Supplies.agree {a' : Accessor} (h : Supplies methods value a)
    (h' : Supplies methods value a') : a = a' :=
  Option.some.inj (h.accessorOf?_eq.symm.trans h'.accessorOf?_eq)

/-- The arguments of a property call contribute each by itself, for its parameter. -/
theorem callContributions_eq (name : String) (methods : List Method)
    (before rest : List (Argument Expression)) :
    callContributions name methods (before.countP isPositional) rest =
      (rest.zipIdx before.length).flatMap fun v =>
        ((parameterAt? (before ++ rest) v.2).bind fun parameter =>
          argumentContribution? name methods parameter v.1.value).toList := by
  induction rest generalizing before with
  | nil => rfl
  | cons v rest ih =>
    have hrest := ih (before ++ [v])
    rw [List.append_assoc, List.singleton_append, List.length_append, List.length_singleton]
      at hrest
    have hat : parameterAt? (before ++ v :: rest) before.length =
        if v.unpacking ≠ .none then none
        else v.name.or propertyParameters[before.countP isPositional]? := by
      rw [parameterAt?, List.getElem?_append_right (Nat.le_refl _), Nat.sub_self,
        List.getElem?_cons_zero, Option.bind_some, List.take_left]
    rw [List.zipIdx_cons, List.flatMap_cons, ← hrest, List.countP_append, List.countP_singleton,
      hat, callContributions]
    by_cases hplain : v.unpacking = .none
    · cases hname : v.name with
      | some keyword => simp [hplain, hname, isPositional]
      | none => simp [hplain, hname, isPositional]
    · simp [hplain, isPositional]

/-- The arguments of a property call that the attribute is bound to. -/
def propertyArguments? (b : Binding) : Option (List (Argument Expression)) :=
  match b.value with
  | some (.call function arguments _) =>
    match function.dottedName? with
    | some callee => if propertyCalls.contains callee then some arguments else none
    | none => none
  | _ => none

/-- The arguments of a property call are found where `property` is called. -/
theorem propertyArguments?_eq_some_iff :
    propertyArguments? b = some arguments ↔ CallsProperty b arguments := by
  constructor
  · intro h
    unfold propertyArguments? at h
    split at h
    · rename_i function arguments' span hvalue
      split at h
      · rename_i callee hcallee
        split at h
        · rename_i hmem
          obtain rfl := Option.some.inj h
          exact ⟨function, span, hvalue, callee, List.contains_iff_mem.1 hmem, hcallee⟩
        · cases h
      · cases h
    · cases h
  · rintro ⟨function, span, hvalue, callee, hmem, hcallee⟩
    unfold propertyArguments?
    simp only [hvalue, hcallee, if_pos (List.contains_iff_mem.2 hmem)]

/-- An attribute contributes its declaration and the arguments of its call, if it calls `property`.
-/
theorem contributionsOf_attribute (methods : List Method) (b : Binding) :
    contributionsOf methods (.attribute b) =
      match propertyArguments? b with
      | some arguments => .declared b.target :: callContributions b.target methods 0 arguments
      | none => [] := by
  unfold contributionsOf propertyArguments?
  dsimp only
  repeat' split
  all_goals simp_all

/-- The documentation of a property is no accessor. -/
theorem parameterRole?_doc : parameterRole? "doc" = none := rfl

/-- What an argument contributes for its parameter: an accessor or the documentation. -/
theorem argumentContribution?_eq_some_iff :
    argumentContribution? name methods parameter value = some c ↔
      (∃ role a, parameterRole? parameter = some role ∧ Supplies methods value a ∧
        c = .accessor name role a) ∨
      parameter = "doc" ∧ ∃ text, value.stringValue? = some text ∧ c = .doc name text := by
  unfold argumentContribution?
  split
  · rename_i hdoc
    subst hdoc
    rw [Option.map_eq_some_iff, parameterRole?_doc]
    simp [eq_comm]
  · rename_i hdoc
    split
    · rename_i role hrole
      rw [hrole]
      constructor
      · intro h
        obtain ⟨a, ha, rfl⟩ := Option.map_eq_some_iff.1 h
        exact .inl ⟨role, a, rfl, accessorOf?_eq_some_iff.1 ha, rfl⟩
      · rintro (⟨role', a, hrole', ha, rfl⟩ | ⟨heq, _⟩)
        · obtain rfl := Option.some.inj hrole'
          exact Option.map_eq_some_iff.2 ⟨a, accessorOf?_eq_some_iff.2 ha, rfl⟩
        · exact absurd heq hdoc
    · rename_i hrole
      simp [hdoc, hrole]

/-- What an attribute says is one thing at each of its parts. -/
theorem AttributeSays.agree (h : AttributeSays methods b k c) (h' : AttributeSays methods b k e) :
    c = e := by
  have hcall : ∀ {arguments arguments' : List (Argument Expression)}, CallsProperty b arguments →
      CallsProperty b arguments' → arguments = arguments' := fun h h' =>
    Option.some.inj ((propertyArguments?_eq_some_iff.2 h).symm.trans
      (propertyArguments?_eq_some_iff.2 h'))
  cases h with
  | declared _ =>
    cases h'
    rfl
  | accessor hb hv hparameter hrole ha =>
    cases h' with
    | accessor hb' hv' hparameter' hrole' ha' =>
      obtain rfl := hcall hb hb'
      obtain rfl := Option.some.inj (hv.symm.trans hv')
      obtain rfl := Option.some.inj (hparameter.symm.trans hparameter')
      obtain rfl := Option.some.inj (hrole.symm.trans hrole')
      rw [ha.agree ha']
    | doc hb' _ hparameter' _ =>
      obtain rfl := hcall hb hb'
      obtain rfl := Option.some.inj (hparameter.symm.trans hparameter')
      cases hrole
  | doc hb hv hparameter htext =>
    cases h' with
    | accessor hb' _ hparameter' hrole' _ =>
      obtain rfl := hcall hb hb'
      obtain rfl := Option.some.inj (hparameter.symm.trans hparameter')
      cases hrole'
    | doc hb' hv' _ htext' =>
      obtain rfl := hcall hb hb'
      obtain rfl := Option.some.inj (hv.symm.trans hv')
      rw [Option.some.inj (htext.symm.trans htext')]

/-- The contribution is documentation. -/
def Contribution.isDoc : Contribution → Bool
  | .doc .. => true
  | _ => false

/-- What a method says by one decorator is about one property, and one thing in each kind. -/
theorem MethodSays.agree (h : MethodSays i m k c) (h' : MethodSays i m k e) :
    c.name = e.name ∧ (c.isDoc = e.isDoc → c = e) := by
  cases h with
  | accessor hd h =>
    cases h' with
    | accessor hd' h' =>
      obtain rfl := Option.some.inj (hd.symm.trans hd')
      obtain ⟨rfl, rfl⟩ := h.agree h'
      exact ⟨rfl, fun _ => rfl⟩
    | doc hd' h' _ =>
      obtain rfl := Option.some.inj (hd.symm.trans hd')
      exact ⟨(h.agree (.getter h')).1, nofun⟩
  | doc hd h hdoc =>
    cases h' with
    | accessor hd' h' =>
      obtain rfl := Option.some.inj (hd.symm.trans hd')
      exact ⟨(Decorates.getter h).agree h' |>.1, nofun⟩
    | doc _ _ hdoc' =>
      rw [Option.some.inj (hdoc.symm.trans hdoc')]
      exact ⟨rfl, fun _ => rfl⟩

/-- **A place speaks of one property**, and says one thing about it in each kind. -/
theorem Says.agree (h : Says methods attributes x c) (h' : Says methods attributes x e) :
    c.name = e.name ∧ (c.isDoc = e.isDoc → c = e) := by
  rcases h with ⟨m, hm, _, h⟩ | ⟨j, b, hrank, hb, _, h⟩
  · have hlt := (List.getElem?_eq_some_iff.1 hm).1
    rcases h' with ⟨m', hm', _, h'⟩ | ⟨j, b, hrank, _⟩
    · obtain rfl := Option.some.inj (hm.symm.trans hm')
      exact h.agree h'
    · omega
  · rcases h' with ⟨m', hm', _⟩ | ⟨j', b', hrank', hb', _, h'⟩
    · have hlt := (List.getElem?_eq_some_iff.1 hm').1
      omega
    · obtain rfl : j = j' := by omega
      obtain rfl := Option.some.inj (hb.symm.trans hb')
      rw [h.agree h']
      exact ⟨rfl, fun _ => rfl⟩

/-! ### Contributions in the order of their places -/

/-- What the items of a list contribute, each with its number from `first` on. -/
def numbered {α : Type} (first : Nat) (l : List α) (f : α → Nat → List Contribution) :
    List (Nat × Contribution) :=
  l.zipIdx.flatMap fun v => (f v.1 v.2).map fun c => (v.2 + first, c)

section Numbered

variable {α : Type} {first : Nat} {l : List α} {f : α → Nat → List Contribution}

/-- What is numbered is contributed by the item of that number. -/
theorem mem_numbered : (part, c) ∈ numbered first l f ↔
    ∃ k v, l[k]? = some v ∧ part = k + first ∧ c ∈ f v k := by
  simp only [numbered, List.mem_flatMap, List.mem_map, Prod.mk.injEq, Prod.exists,
    List.mk_mem_zipIdx_iff_getElem?]
  constructor
  · rintro ⟨v, k, hv, c, hc, rfl, rfl⟩
    exact ⟨k, v, hv, rfl, hc⟩
  · rintro ⟨k, v, hv, rfl, hc⟩
    exact ⟨v, k, hv, c, hc, rfl, rfl⟩

/-- Without the numbers, it is what the items contribute one after another. -/
theorem map_snd_numbered : (numbered first l f).map (·.2) =
    l.zipIdx.flatMap fun v => f v.1 v.2 := by
  simp only [numbered, List.map_flatMap, List.map_map]
  exact congrArg (List.flatMap · l.zipIdx) (funext fun v => List.map_id _)

/-- The numbers of a list's items grow. -/
theorem pairwise_zipIdx (l : List α) : l.zipIdx.Pairwise (·.2 < ·.2) := by
  have hrange : (l.zipIdx.map (·.2)).Pairwise (· < ·) := by
    rw [List.zipIdx_map_snd]
    exact List.pairwise_lt_range'
  exact List.pairwise_map.1 hrange

/-- What is numbered comes in the order of the numbers. -/
theorem pairwise_numbered : (numbered first l f).Pairwise (·.1 ≤ ·.1) := by
  refine List.pairwise_flatMap.2 ⟨fun v _ => ?_, (pairwise_zipIdx l).imp ?_⟩
  · exact List.pairwise_map.2 (List.pairwise_of_forall fun _ _ => Nat.le_refl _)
  · rintro v w hlt p hp q hq
    obtain ⟨_, _, rfl⟩ := List.mem_map.1 hp
    obtain ⟨_, _, rfl⟩ := List.mem_map.1 hq
    exact Nat.add_le_add_right (Nat.le_of_lt hlt) first

end Numbered

/-- What a declaration contributes, with the part of it that speaks. -/
def partsOf (methods : List Method) : Declarer → List (Nat × Contribution)
  | .method i m => numbered 0 m.decorators fun d _ => decoratorContributions i m d
  | .attribute b =>
    match propertyArguments? b with
    | some arguments => (0, .declared b.target) :: numbered 1 arguments fun v k =>
        ((parameterAt? arguments k).bind fun parameter =>
          argumentContribution? b.target methods parameter v.value).toList
    | none => []

/-- Without the parts, it is what the declaration contributes. -/
theorem map_snd_partsOf (methods : List Method) (s : Declarer) :
    (partsOf methods s).map (·.2) = contributionsOf methods s := by
  rcases s with ⟨i, m⟩ | ⟨b⟩
  · rw [partsOf, map_snd_numbered, contributionsOf]
    conv_rhs => rw [← List.zipIdx_map_fst 0 m.decorators, List.flatMap_map]
  · rw [partsOf, contributionsOf_attribute]
    split
    · rename_i arguments _
      rw [List.map_cons, map_snd_numbered]
      exact congrArg _ (callContributions_eq b.target methods [] arguments).symm
    · rfl

/-- The parts of a declaration speak one after another. -/
theorem pairwise_partsOf (methods : List Method) (s : Declarer) :
    (partsOf methods s).Pairwise (·.1 ≤ ·.1) := by
  rcases s with ⟨i, m⟩ | ⟨b⟩
  · rw [partsOf]
    exact pairwise_numbered
  · rw [partsOf]
    split
    · exact List.pairwise_cons.2 ⟨fun _ _ => Nat.zero_le _, pairwise_numbered⟩
    · exact .nil

/-- A method says what its decorators contribute. -/
theorem mem_partsOf_method : (part, c) ∈ partsOf methods (.method i m) ↔
    MethodSays i m part c := by
  rw [partsOf, mem_numbered]
  constructor
  · rintro ⟨k, d, hd, rfl, hc⟩
    exact (mem_decoratorContributions_iff hd).1 hc
  · intro h
    obtain ⟨d, hd⟩ : ∃ d, m.decorators[part]? = some d := by
      cases h with
      | accessor hd _ => exact ⟨_, hd⟩
      | doc hd _ _ => exact ⟨_, hd⟩
    exact ⟨part, d, hd, rfl, (mem_decoratorContributions_iff hd).2 h⟩

/-- An attribute says what its property call contributes. -/
theorem mem_partsOf_attribute : (part, c) ∈ partsOf methods (.attribute b) ↔
    AttributeSays methods b part c := by
  rw [partsOf]
  constructor
  · intro h
    split at h
    · rename_i arguments harguments
      have hcall := propertyArguments?_eq_some_iff.1 harguments
      rcases List.mem_cons.1 h with heq | h
      · obtain ⟨rfl, rfl⟩ := Prod.mk.inj heq
        exact .declared hcall
      · obtain ⟨k, v, hv, rfl, hc⟩ := mem_numbered.1 h
        obtain ⟨parameter, hparameter, hc⟩ := Option.bind_eq_some_iff.1 (Option.mem_toList.1 hc)
        rcases argumentContribution?_eq_some_iff.1 hc with
          ⟨role, a, hrole, ha, rfl⟩ | ⟨rfl, text, htext, rfl⟩
        · exact .accessor hcall hv hparameter hrole ha
        · exact .doc hcall hv hparameter htext
    · cases h
  · intro h
    cases h with
    | declared hcall =>
      rw [propertyArguments?_eq_some_iff.2 hcall]
      exact List.mem_cons_self
    | accessor hcall hv hparameter hrole ha =>
      rw [propertyArguments?_eq_some_iff.2 hcall]
      refine List.mem_cons_of_mem _ (mem_numbered.2 ⟨_, _, hv, rfl, ?_⟩)
      rw [Option.mem_toList, hparameter, Option.bind_some]
      exact argumentContribution?_eq_some_iff.2 (.inl ⟨_, _, hrole, ha, rfl⟩)
    | doc hcall hv hparameter htext =>
      rw [propertyArguments?_eq_some_iff.2 hcall]
      refine List.mem_cons_of_mem _ (mem_numbered.2 ⟨_, _, hv, rfl, ?_⟩)
      rw [Option.mem_toList, hparameter, Option.bind_some]
      exact argumentContribution?_eq_some_iff.2 (.inr ⟨rfl, _, htext, rfl⟩)

/-- The declarations of a class body, the methods first. -/
def sources (methods : List Method) (attributes : List Binding) : List Declarer :=
  methods.zipIdx.map (fun (m, i) => Declarer.method i m) ++ attributes.map Declarer.attribute

/-- The declarations in source order, with their numbers among all of them. -/
def ranked (methods : List Method) (attributes : List Binding) : List (Declarer × Nat) :=
  (sources methods attributes).zipIdx.mergeSort
    (List.zipIdxLE fun a b => decide (a.start ≤ b.start))

/-- Without the numbers, it is the declarations in source order. -/
theorem map_fst_ranked (methods : List Method) (attributes : List Binding) :
    (ranked methods attributes).map (·.1) = declarers methods attributes :=
  List.mergeSort_zipIdx

/-- A number belongs to the method that has it, or to the attribute behind the methods. -/
theorem mem_ranked {s : Declarer} {rank : Nat} : (s, rank) ∈ ranked methods attributes ↔
    (∃ m, methods[rank]? = some m ∧ s = .method rank m) ∨
      ∃ j b, rank = methods.length + j ∧ attributes[j]? = some b ∧ s = .attribute b := by
  rw [ranked, List.mem_mergeSort, List.mk_mem_zipIdx_iff_getElem?, sources, List.getElem?_append,
    List.length_map, List.length_zipIdx]
  split
  · rename_i hlt
    rw [List.getElem?_map, List.getElem?_zipIdx, Nat.zero_add, List.getElem?_eq_getElem hlt]
    constructor
    · intro h
      exact .inl ⟨_, rfl, (Option.some.inj h).symm⟩
    · rintro (⟨m, hm, rfl⟩ | ⟨j, _, hrank, _⟩)
      · rw [Option.some.inj hm]
        rfl
      · omega
  · rename_i hge
    rw [List.getElem?_map]
    constructor
    · intro h
      obtain ⟨b, hb, rfl⟩ := Option.map_eq_some_iff.1 h
      exact .inr ⟨rank - methods.length, b, by omega, hb, rfl⟩
    · rintro (⟨m, hm, _⟩ | ⟨j, b, rfl, hb, rfl⟩)
      · exact absurd (List.getElem?_eq_some_iff.1 hm).1 hge
      · rw [Nat.add_sub_cancel_left, hb]
        rfl

/-- The sort is stable: declarations that start at one place keep their order. -/
theorem pairwise_ranked (methods : List Method) (attributes : List Binding) :
    (ranked methods attributes).Pairwise fun r s =>
      r.1.start < s.1.start ∨ r.1.start = s.1.start ∧ r.2 < s.2 := by
  have hsorted := List.pairwise_mergeSort
    (@List.zipIdxLE_trans Declarer (fun a b => decide (a.start ≤ b.start))
      fun a b c hab hbc => decide_eq_true
        (Nat.le_trans (of_decide_eq_true hab) (of_decide_eq_true hbc)))
    (List.zipIdxLE_total fun a b => by simpa using Nat.le_total a.start b.start)
    (sources methods attributes).zipIdx
  have hdistinct : (ranked methods attributes).Pairwise fun r s => r.2 ≠ s.2 := by
    refine (List.mergeSort_perm _ _).symm.pairwise ?_ fun h => h.symm
    exact (pairwise_zipIdx _).imp Nat.ne_of_lt
  refine (hsorted.and hdistinct).imp fun {r s} h => ?_
  obtain ⟨hle, hne⟩ := h
  unfold List.zipIdxLE at hle
  simp only [decide_eq_true_eq] at hle
  split at hle
  · split at hle
    · have hrank := of_decide_eq_true hle
      omega
    · omega
  · cases hle

/-- **What a class body says is collected in the order of the places.** -/
theorem exists_said (methods : List Method) (attributes : List Binding) :
    ∃ said : List (Place × Contribution),
      said.map (·.2) = (declarers methods attributes).flatMap (contributionsOf methods) ∧
      (said.Pairwise fun u w => ¬ w.1.Before u.1) ∧
      ∀ x c, (x, c) ∈ said ↔ Says methods attributes x c := by
  refine ⟨(ranked methods attributes).flatMap fun r =>
    (partsOf methods r.1).map fun w => (⟨r.1.start, r.2, w.1⟩, w.2), ?_, ?_, fun x c => ?_⟩
  · rw [← map_fst_ranked, List.flatMap_map, List.map_flatMap]
    refine congrArg (List.flatMap · _) (funext fun r => ?_)
    rw [List.map_map, ← map_snd_partsOf]
    rfl
  · refine List.pairwise_flatMap.2 ⟨fun r _ => ?_, (pairwise_ranked _ _).imp ?_⟩
    · refine List.pairwise_map.2 ((pairwise_partsOf methods r.1).imp fun hle => ?_)
      unfold Place.Before
      dsimp only
      omega
    · rintro r s hlt u hu w hw
      obtain ⟨_, _, rfl⟩ := List.mem_map.1 hu
      obtain ⟨_, _, rfl⟩ := List.mem_map.1 hw
      unfold Place.Before
      dsimp only
      omega
  · rw [List.mem_flatMap]
    constructor
    · rintro ⟨⟨s, rank⟩, hs, hmem⟩
      obtain ⟨⟨part, c⟩, hpart, heq⟩ := List.mem_map.1 hmem
      obtain ⟨rfl, rfl⟩ := Prod.mk.inj heq
      rcases mem_ranked.1 hs with ⟨m, hm, rfl⟩ | ⟨j, b, rfl, hb, rfl⟩
      · exact .inl ⟨m, hm, rfl, mem_partsOf_method.1 hpart⟩
      · exact .inr ⟨j, b, rfl, hb, rfl, mem_partsOf_attribute.1 hpart⟩
    · obtain ⟨start, rank, part⟩ := x
      rintro (⟨m, hm, rfl, h⟩ | ⟨j, b, rfl, hb, rfl, h⟩)
      · exact ⟨(.method rank m, rank), mem_ranked.2 (.inl ⟨m, hm, rfl⟩),
          List.mem_map.2 ⟨(part, c), mem_partsOf_method.2 h, rfl⟩⟩
      · exact ⟨(.attribute b, methods.length + j), mem_ranked.2 (.inr ⟨j, b, rfl, hb, rfl⟩),
          List.mem_map.2 ⟨(part, c), mem_partsOf_attribute.2 h, rfl⟩⟩

end Hierarchy
end Lineage
