/-
# Class bodies, statement by statement

A statement of a class body adds the names that it binds, or the method or the class that it
defines, or nothing (`ends_classStatement_adds`).  So what these additions keep holds of every
class body of a source, at any depth (`KeptByStatements.classes`).

What is kept here is the order of the bindings.  Those of one statement have its stretch of the
source, and the statements lie one behind the other (`inStatements_of_parse`).
-/

import Lineage.Proofs.Outline.Faithfulness
import Lineage.Proofs.Outline.LineBreak

namespace Lineage
namespace Outline

open Source Reading Text Cursor

variable {o : Origin} {c₀ c d : Cursor} {inner : List Decorator → Reading ClassOutline}
  {found : ClassBody}

/-! ### What a statement adds -/

/-- A statement of a scope adds a class or a function, its decorators passed, or nothing, or what a
simple one adds. -/
theorem ends_statementOf_adds {σ : Type} {addClass : ClassOutline → σ}
    {addFunction : FunctionOutline → σ} {simple : Reading σ} {found : σ} {Q : σ → Cursor → Prop}
    (hclass : ∀ ds d, Reaches c d → Ends .any (inner ds) o d fun k e => Q (addClass k) e)
    (hfunction : ∀ ds d, Reaches c d →
      Ends .any (functionDefinition ds) o d fun f e => Q (addFunction f) e)
    (hnothing : ∀ d, Reaches c d → Q found d) (hsimple : Ends .any simple o c Q) :
    Ends .any (statementOf (definitionOf inner addClass addFunction) simple found) o c Q := by
  have hdefinition : ∀ ds d, Reaches c d →
      Ends .any (definitionOf inner addClass addFunction ds) o d Q := fun ds d hd =>
    ends_definitionOf.2 ⟨fun _ => hclass ds d hd, fun _ => hfunction ds d hd⟩
  exact ends_statementOf.2 ⟨fun _ => hnothing _ (reaches_advanceBy 1 c), fun _ => trivial,
    fun _ => (Onward.reaches o c).mono fun ds d hd => hdefinition ds d hd,
    fun _ => hdefinition [] c (Reaches.refl c), fun _ => hsimple⟩

/-- **A statement of a class body** adds the names that it binds, a class or a method, its
decorators passed, or nothing. -/
theorem ends_classStatement_adds {Q : ClassBody → Cursor → Prop}
    (hbound : Ends .any classBinding o c fun bound d =>
      Q { found with bindings := found.bindings ++ bound } d)
    (hclass : ∀ ds d, Reaches c d → Ends .any (inner ds) o d fun k e =>
      Q { found with classes := found.classes ++ [k] } e)
    (hmethod : ∀ ds d, Reaches c d → Ends .any (functionDefinition ds) o d fun f e =>
      Q { found with methods := found.methods ++ [f] } e)
    (hnothing : ∀ d, Reaches c d → Q found d) :
    Ends .any (classStatement inner found) o c Q := by
  rw [classStatement_eq, memberDefinition_eq]
  refine ends_statementOf_adds hclass hmethod hnothing ?_
  simp only [memberSimple, ends_bind, ends_ahead, ends_ite, ends_pure]
  split
  · exact hbound
  · exact (Onward.reaches o c).mono fun _ d hd => hnothing d hd

/-- A statement at the top level adds a class or a function, or nothing. -/
theorem ends_topStatement_adds {found : TopLevel} {Q : TopLevel → Cursor → Prop}
    (hclass : ∀ ds d, Reaches c d → Ends .any (classDefinition ds) o d fun k e =>
      Q { found with classes := found.classes ++ [k] } e)
    (hfunction : ∀ ds d, Reaches c d → Ends .any (functionDefinition ds) o d fun f e =>
      Q { found with functions := found.functions ++ [f] } e)
    (hnothing : ∀ d, Reaches c d → Q found d) : Ends .any (topStatement found) o c Q := by
  rw [topStatement_eq, topDefinition_eq]
  refine ends_statementOf_adds hclass hfunction hnothing ?_
  simp only [topSimple, ends_bind, ends_check, ends_ite, ends_pass, ends_pure]
  split
  · exact hnothing _ (reaches_advanceBy 1 c)
  · exact (Onward.reaches o c).mono fun _ d hd => hnothing d hd

/-- What a class body keeps from any place behind `c₀` on, whatever its statements add: `I` of
what has been found, and `P` of the classes. -/
structure KeptByStatements (o : Origin) (c₀ : Cursor) (I : ClassBody → Cursor → Prop)
    (P : ClassOutline → Prop) : Prop where
  start : ∀ {c}, Reaches c₀ c → I ⟨[], [], []⟩ c
  onward : ∀ {found c d}, I found c → Reaches c d → I found d
  bound : ∀ {found c}, Reaches c₀ c → I found c → Ends .any classBinding o c fun bound d =>
    I { found with bindings := found.bindings ++ bound } d
  nested : ∀ {found c k}, I found c → P k → I { found with classes := found.classes ++ [k] } c
  method : ∀ {found c ds}, Reaches c₀ c → I found c → Ends .any (functionDefinition ds) o c
    fun f d => I { found with methods := found.methods ++ [f] } d
  closed : ∀ {found c k}, I found c → k.methods = found.methods → k.bindings = found.bindings →
    k.classes = found.classes → P k

namespace KeptByStatements

variable {I : ClassBody → Cursor → Prop} {P : ClassOutline → Prop}
  (h : KeptByStatements o c₀ I P)

/-- What has been found in a class body, if the classes in it are as they should be. -/
def Found (I : ClassBody → Cursor → Prop) (P : ClassOutline → Prop) (c₀ : Cursor) (b : ClassBody)
    (c : Cursor) : Prop :=
  Reaches c₀ c ∧ I b c ∧ ∀ j ∈ preorderAll b.classes, P j

/-- The reading of a class goes on, and ends with `P` of the class and of those in it. -/
def ReadsClass (o : Origin) (c₀ : Cursor) (P : ClassOutline → Prop)
    (inner : List Decorator → Reading ClassOutline) : Prop :=
  ∀ ds c, Reaches c₀ c → Ends .any (inner ds) o c fun k d => Reaches c d ∧ ∀ j ∈ k.preorder, P j

/-- Classes that are read from a place are read from what is reached from it. -/
theorem ReadsClass.of_reaches (hinner : ReadsClass o c₀ P inner) (hc : Reaches c₀ c) :
    ReadsClass o c P inner := fun ds _ hd => hinner ds _ (hc.trans hd)

include h

/-- What is kept from a place on, is kept from any later one on. -/
theorem of_reaches (hc : Reaches c₀ c) : KeptByStatements o c I P :=
  { h with
    start := fun hd => h.start (hc.trans hd)
    bound := fun hd => h.bound (hc.trans hd)
    method := fun hd => h.method (hc.trans hd) }

/-- What has been found stays so when tokens are passed. -/
theorem found_onward (hfound : Found I P c₀ found c) (hd : Reaches c d) : Found I P c₀ found d :=
  ⟨hfound.1.trans hd, h.onward hfound.2.1 hd, hfound.2.2⟩

/-- One statement keeps what has been found. -/
theorem classStatement (hinner : ReadsClass o c₀ P inner) (hfound : Found I P c₀ found c) :
    Ends .any (classStatement inner found) o c (Found I P c₀) := by
  have hstart := hfound.1
  refine ends_classStatement_adds ?_ (fun ds d hd => ?_) (fun ds d hd => ?_)
    fun d hd => h.found_onward hfound hd
  · exact (Ends.and (h.bound hstart hfound.2.1) (Onward.reaches o c)).mono
      fun bound e ⟨hkept, he⟩ => ⟨hstart.trans he, hkept, hfound.2.2⟩
  · refine (hinner ds d (hstart.trans hd)).mono fun k e ⟨he, hk⟩ => ?_
    have hkept := h.found_onward hfound (hd.trans he)
    exact ⟨hkept.1, h.nested hkept.2.1 (hk k (mem_preorder.2 (.inl rfl))),
      forall_preorderAll_concat hfound.2.2 hk⟩
  · have hkept := h.found_onward hfound hd
    exact (Ends.and (h.method hkept.1 hkept.2.1) (Onward.reaches o d)).mono
      fun f e ⟨hkept', he⟩ => ⟨hkept.1.trans he, hkept', hfound.2.2⟩

/-- All statements of a class body keep what has been found. -/
theorem classBody (hinner : ReadsClass o c₀ P inner) (hc : Reaches c₀ c) :
    Ends .any (classBody inner) o c fun r d => Found I P c₀ r.2 d := by
  have hempty : ∀ {d}, Reaches c d → Found I P c₀ ⟨[], [], []⟩ d := fun hd =>
    ⟨hc.trans hd, h.start (hc.trans hd), fun _ hj => nomatch hj⟩
  by_cases hnewline : c.next? = some .newline
  · refine (ends_classBody_block hnewline).2 ⟨fun _ => ?_, fun _ => trivial⟩
    refine (Onward.reaches o _).mono fun doc d hd => ?_
    have hd' := (reaches_advanceBy 1 c).trans ((reaches_advanceBy 1 _).trans hd)
    refine ends_repeatRounds_any (fun b e hfound => ?_) (hempty hd')
    exact ends_indentedRound.2 ⟨fun _ => hfound,
      fun _ => h.found_onward hfound (reaches_advanceBy 1 e),
      fun _ _ _ => h.classStatement hinner hfound⟩
  · refine (ends_classBody_line hnewline).2 ?_
    refine (Onward.reaches o _).mono fun doc d hd => ?_
    refine ends_repeatRounds_any (fun b e hfound => ?_) (hempty hd)
    exact ends_inlineRound.2 ⟨fun _ => hfound, fun _ _ _ _ => h.classStatement hinner hfound⟩

/-- A class is as it should be, with those in it, if its statements keep what has been found. -/
theorem classWithin (n : Nat) : ReadsClass o c₀ P (classWithin n) := by
  induction n with
  | zero => exact fun _ _ _ => trivial
  | succ n ih =>
    intro ds c hc
    simp only [Outline.classWithin, classOver_eq, ends_bind, ends_peekStart, ends_spanFrom,
      ends_pure]
    refine (Onward.reaches o c).mono fun header d hd => ?_
    refine ((h.of_reaches hc).classBody (ih.of_reaches hc) hd).mono ?_
    rintro r e ⟨he, hfound, hnested⟩
    refine ⟨he.trans ⟨0, _, rfl⟩, fun j hj => ?_⟩
    rcases mem_preorder.1 hj with rfl | hj
    · exact h.closed hfound rfl rfl rfl
    · exact hnested j hj

/-- **Every class of a module is as it should be**, at any depth. -/
theorem classes : Ends .any moduleOutline o c₀ fun m _ => ∀ k ∈ preorderAll m.classes, P k := by
  have hround : ∀ found c, (Reaches c₀ c ∧ ∀ k ∈ preorderAll found.classes, P k) →
      Ends .any (topRound found) o c (AfterRound
        (fun found' d => Reaches c₀ d ∧ ∀ k ∈ preorderAll found'.classes, P k)
        fun found' _ => ∀ k ∈ preorderAll found'.classes, P k) := by
    intro found c ⟨hc, hfound⟩
    refine ends_topRound.2 ⟨fun _ => hfound, fun t _ => ?_⟩
    refine ends_topStatement_adds (fun ds d hd => ?_) (fun ds d hd => ?_)
      fun d hd => ⟨hc.trans hd, hfound⟩
    · refine (h.classWithin _ ds d (hc.trans hd)).mono ?_
      rintro k e ⟨he, hk⟩
      exact ⟨hc.trans (hd.trans he), forall_preorderAll_concat hfound hk⟩
    · exact (Onward.reaches o d).mono fun _ e he => ⟨hc.trans (hd.trans he), hfound⟩
  simp only [moduleOutline, ends_bind, ends_sourceSize, ends_makeSpan, ends_pure]
  refine (Onward.reaches o _).mono fun doc c₁ h₁ => ?_
  exact ends_repeatRounds_any hround ⟨Reaches.trans ⟨0, _, rfl⟩ h₁, List.forall_mem_nil _⟩

end KeptByStatements

/-! ### Bindings in order -/

/-- Both names are bound by one statement: their bindings have its stretch of the source. -/
def Binding.Together (b b' : Binding) : Prop :=
  b.span.start = b'.span.start ∧ b.span.stop = b'.span.stop

/-- Bindings of statements that lie one behind the other. -/
structure InStatements (bindings : List Binding) : Prop where
  start_lt : ∀ b ∈ bindings, b.span.start < b.span.stop
  ordered : bindings.Pairwise fun b b' => b.Together b' ∨ b.span.stop ≤ b'.span.start

/-- The empty list of bindings comes in statements. -/
theorem InStatements.nil : InStatements [] := ⟨fun _ hb => (nomatch hb), .nil⟩

/-- One more statement, behind the others. -/
theorem InStatements.append {bindings bound : List Binding} {mid start stop : Nat}
    (h : InStatements bindings) (hmid : ∀ b ∈ bindings, b.span.stop ≤ mid) (hstart : mid ≤ start)
    (hlt : start < stop)
    (hbound : ∀ b ∈ bound, b.span.start = start ∧ b.span.stop = stop) :
    InStatements (bindings ++ bound) where
  start_lt b hb := by
    rcases List.mem_append.1 hb with hb | hb
    · exact h.start_lt b hb
    · rw [(hbound b hb).1, (hbound b hb).2]
      exact hlt
  ordered := by
    refine List.pairwise_append.2 ⟨h.ordered, ?_, fun b hb b' hb' => .inr ?_⟩
    · refine List.pairwise_of_forall_mem_list fun b hb b' hb' => .inl ⟨?_, ?_⟩
      · rw [(hbound b hb).1, (hbound b' hb').1]
      · rw [(hbound b hb).2, (hbound b' hb').2]
    · rw [(hbound b' hb').1]
      exact Nat.le_trans (hmid b hb) hstart

/-- The bindings of a statement have its stretch of the source, from the next token on. -/
theorem stretch_classBinding {lo : Nat} (hc : c.At o lo) :
    Ends .any classBinding o c fun bound d => ∃ stop, (c.place o).start < stop ∧
      stop ≤ d.lastStop ∧ ∀ b ∈ bound, b.span.start = (c.place o).start ∧ b.span.stop = stop := by
  have hfinish : ∀ {bound : List Binding} {c₁ : Cursor},
      Follows o c c₁ ∧ (c.place o).start < c₁.lastStop ∧
        BoundIn o.text (c.place o).start c₁.lastStop bound →
      Ends .any finishStatement o c₁ fun _ d => ∃ stop, (c.place o).start < stop ∧
        stop ≤ d.lastStop ∧ ∀ b ∈ bound, b.span.start = (c.place o).start ∧ b.span.stop = stop :=
    fun ⟨h₁, hstart, hbound⟩ => (Onward.reaches o _).mono fun _ d hd =>
      ⟨_, hstart, (hd.follows h₁.stands).lastStop_le, fun b hb =>
        ⟨(hbound b hb).1, (hbound b hb).2.1⟩⟩
  simp only [classBinding, ends_bind, ends_peekStart, ends_peekAt, ends_ite, ends_pure]
  split
  · exact (renders_hintedBinding hc).mono fun _ _ => hfinish
  · exact (renders_plainBinding hc).mono fun _ _ => hfinish

/-- The bindings of a class body come statement by statement, and end within what has been passed.
-/
theorem keptByStatements_inStatements (hc₀ : c₀.At o 0) : KeptByStatements o c₀
    (fun b c => c.At o 0 ∧ InStatements b.bindings ∧ ∀ x ∈ b.bindings, x.span.stop ≤ c.lastStop)
    fun k => InStatements k.bindings where
  start hc := ⟨hc₀.follows (hc.follows hc₀.stands), .nil, fun _ hx => nomatch hx⟩
  onward := fun ⟨hc, hordered, hstop⟩ hd =>
    have h := hd.follows hc.stands
    ⟨hc.follows h, hordered, fun x hx => Nat.le_trans (hstop x hx) h.lastStop_le⟩
  bound := by
    rintro found c - ⟨hc, hordered, hstop⟩
    refine (Ends.and (stretch_classBinding hc) (Onward.reaches o c)).mono
      fun bound d ⟨⟨stop, hlt, hle, hbound⟩, hd⟩ => ?_
    have h := hd.follows hc.stands
    refine ⟨hc.follows h, hordered.append hstop hc.stands.place.2.2.1 hlt hbound, fun x hx => ?_⟩
    rcases List.mem_append.1 hx with hx | hx
    · exact Nat.le_trans (hstop x hx) h.lastStop_le
    · exact (hbound x hx).2 ▸ hle
  nested hfound _ := hfound
  method := by
    rintro found c ds - ⟨hc, hordered, hstop⟩
    refine (Onward.reaches o c).mono fun f d hd => ?_
    have h := hd.follows hc.stands
    exact ⟨hc.follows h, hordered, fun x hx => Nat.le_trans (hstop x hx) h.lastStop_le⟩
  closed hfound _ hbindings _ := hbindings ▸ hfound.2.1

/-- **The bindings of a class are in the order of its statements**: those of one statement have
its stretch of the source, which ends before that of the next one starts. -/
theorem inStatements_of_parse {source path : String} {m : ModuleOutline} {k : ClassOutline}
    (h : parse source path = .outline m) (hk : k ∈ preorderAll m.classes) :
    InStatements k.bindings :=
  have hclasses : ∀ k ∈ preorderAll m.classes, InStatements k.bindings :=
    of_parse h fun _ htokens => (keptByStatements_inStatements (at_first _ htokens)).classes
  hclasses k hk

end Outline
end Lineage
