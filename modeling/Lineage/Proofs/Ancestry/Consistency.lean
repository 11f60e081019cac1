/-
# Merging finds an order if there is one

An order is consistent with sequences if it has their elements, each once, and keeps every
sequence (`IsConsistent`).  A merge ends with an order (`Merged`), or where every head that
is left stands in a tail (`Stuck`), and never for lack of steps
(`merged_or_stuck`).

An order that a merge ends with is consistent.  Conversely the first element of a consistent
order heads a sequence and stands in no tail (`IsConsistent.exists_candidate`), so there is a
candidate; it may be another one, but whichever is taken, the order without it is consistent
with what is left (`IsConsistent.erase`).  So no consistent order is missed
(`Stuck.not_isConsistent`).
-/

import Lineage.Proofs.Ancestry.Merging
import Mathlib.Algebra.Order.BigOperators.Group.List
import Mathlib.Algebra.Order.Group.Nat

namespace Lineage
namespace Hierarchy

variable {α : Type} {sequences : List (List α)} {order merged s l : List α} {a : α}

/-- The order has the elements of the sequences, each once, and keeps every sequence. -/
structure IsConsistent (sequences : List (List α)) (order : List α) : Prop where
  nodup : order.Nodup
  mem_iff : ∀ a, a ∈ order ↔ ∃ s ∈ sequences, a ∈ s
  sublist : ∀ s ∈ sequences, s.Sublist order

/-- Of a list without repetitions that begins with `a`, a part has `a` at its head only. -/
theorem not_mem_tail_of_sublist (hnodup : (a :: l).Nodup) (h : s.Sublist (a :: l)) :
    a ∉ s.tail := fun hmem => (List.nodup_cons.1 hnodup).1 (h.tail.mem hmem)

/-- A list that is kept in order by one without repetitions, and has its head, begins with it. -/
theorem head?_of_sublist (hnodup : (a :: l).Nodup) (h : s.Sublist (a :: l)) (ha : a ∈ s) :
    s.head? = some a := by
  cases s with
  | nil => cases ha
  | cons x t =>
    rcases List.mem_cons.1 ha with rfl | hmem
    · rfl
    · exact absurd hmem (not_mem_tail_of_sublist hnodup h)

variable [DecidableEq α]

/-- The merge comes to where elements are left, and every head stands in a tail. -/
inductive Stuck : List (List α) → Prop where
  | here {sequences : List (List α)} (left : pending sequences ≠ [])
    (heads : candidate? (pending sequences) = none) : Stuck sequences
  | later {sequences : List (List α)} {a : α} (head : candidate? (pending sequences) = some a)
    (others : Stuck (dropHeads a (pending sequences))) : Stuck sequences

/-! ### A merge ends -/

/-- Every step takes an element off. -/
theorem length_dropHeads_lt (h : candidate? (pending sequences) = some a) :
    (dropHeads a (pending sequences)).flatten.length < sequences.flatten.length := by
  have hsame : (pending sequences).flatten = sequences.flatten := List.flatten_filter_not_isEmpty
  obtain ⟨s, hs, hhead⟩ := (candidate?_spec h).1
  have hless : (dropHead a s).length < s.length := by
    obtain ⟨t, rfl⟩ := List.head?_eq_some_iff.1 hhead
    rw [dropHead, if_pos hhead]
    exact Nat.lt_succ_self _
  rw [← hsame, List.length_flatten, List.length_flatten, dropHeads, List.map_map]
  exact List.sum_lt_sum _ _ (fun t _ => (dropHead_sublist a t).length_le) ⟨s, hs, hless⟩

omit [DecidableEq α] in
/-- Sequences without elements have nothing pending. -/
theorem pending_eq_nil_of_length (h : sequences.flatten.length = 0) : pending sequences = [] := by
  refine List.filter_eq_nil_iff.2 fun s hs => ?_
  have hnil := List.flatten_eq_nil_iff.1 (List.length_eq_zero_iff.1 h) s hs
  simp [hnil]

/-- With a step for every element, a merge is not ended by the number of its steps. -/
theorem mergeWithin_cases {bound : Nat} (hbound : sequences.flatten.length ≤ bound) :
    (∃ merged, mergeWithin bound sequences = some merged) ∨
      mergeWithin bound sequences = none ∧ Stuck sequences := by
  induction bound generalizing sequences with
  | zero =>
    have hempty := pending_eq_nil_of_length (Nat.le_zero.1 hbound)
    exact .inl ⟨[], mergeWithin_of_pending_eq_nil 0 hempty⟩
  | succ n ih =>
    by_cases hempty : pending sequences = []
    · exact .inl ⟨[], mergeWithin_of_pending_eq_nil _ hempty⟩
    · rw [mergeWithin_succ n hempty]
      cases hhead : candidate? (pending sequences) with
      | none => exact .inr ⟨rfl, .here hempty hhead⟩
      | some a =>
        have hless := length_dropHeads_lt hhead
        have hfewer : (dropHeads a (pending sequences)).flatten.length ≤ n := by omega
        rcases ih hfewer with ⟨rest, hrest⟩ | ⟨hnone, hstuck⟩
        · exact .inl ⟨a :: rest, by rw [Option.bind_some, hrest, Option.map_some]⟩
        · exact .inr ⟨by rw [Option.bind_some, hnone, Option.map_none], .later hhead hstuck⟩

/-- **A merge ends**, with an order or where it is stuck. -/
theorem merged_or_stuck (sequences : List (List α)) :
    (∃ merged, c3Merge sequences = some merged ∧ Merged sequences merged) ∨
      c3Merge sequences = none ∧ Stuck sequences :=
  (mergeWithin_cases (Nat.le_refl _)).imp_left fun ⟨merged, h⟩ => ⟨merged, h, merged_of_c3Merge h⟩

/-! ### Consistent orders -/

/-- A merged list is consistent with the sequences it was merged from. -/
theorem Merged.isConsistent (h : Merged sequences merged) : IsConsistent sequences merged :=
  ⟨h.nodup, fun _ => h.mem_iff, fun _ => h.sublist⟩

/-- **As long as elements are left there is a candidate**: the first element of a consistent
order is one. -/
theorem IsConsistent.exists_candidate (h : IsConsistent sequences order)
    (hleft : pending sequences ≠ []) : ∃ a, candidate? (pending sequences) = some a := by
  obtain ⟨s, hs⟩ := List.exists_mem_of_ne_nil _ hleft
  obtain ⟨hs, hne⟩ := mem_pending.1 hs
  obtain ⟨first, later, rfl⟩ : ∃ first later, order = first :: later := by
    obtain ⟨x, hx⟩ := List.exists_mem_of_ne_nil s hne
    exact List.exists_cons_of_ne_nil (List.ne_nil_of_mem ((h.mem_iff x).2 ⟨s, hs, hx⟩))
  obtain ⟨t, ht, hfirst⟩ := (h.mem_iff first).1 List.mem_cons_self
  have hhead : first ∈ (pending sequences).filterMap List.head? :=
    List.mem_filterMap.2 ⟨t, mem_pending.2 ⟨ht, List.ne_nil_of_mem hfirst⟩,
      head?_of_sublist h.nodup (h.sublist t ht) hfirst⟩
  have hfree : inNoTail (pending sequences) first = true := by
    refine List.all_eq_true.2 fun u hu => ?_
    simpa using not_mem_tail_of_sublist h.nodup (h.sublist u (mem_pending.1 hu).1)
  exact Option.isSome_iff_exists.1 (List.find?_isSome.2 ⟨first, hhead, hfree⟩)

/-- **Any candidate may be taken**: without it the order is consistent with what is left. -/
theorem IsConsistent.erase (h : IsConsistent sequences order)
    (hhead : candidate? (pending sequences) = some a) :
    IsConsistent (dropHeads a (pending sequences)) (order.erase a) := by
  have hfree : ∀ s ∈ pending sequences, a ∉ dropHead a s := fun s hs =>
    not_mem_dropHead ((candidate?_spec hhead).2 s hs)
  refine ⟨h.nodup.erase a, fun x => ?_, fun t ht => ?_⟩
  · rw [h.nodup.mem_erase_iff, h.mem_iff]
    constructor
    · rintro ⟨hne, s, hs, hx⟩
      have hdropped := (List.mem_cons.1 ((sublist_cons_dropHead a s).mem hx)).resolve_left hne
      exact ⟨_, mem_dropHeads.2 ⟨s, mem_pending.2 ⟨hs, List.ne_nil_of_mem hx⟩, rfl⟩, hdropped⟩
    · rintro ⟨t, ht, hx⟩
      obtain ⟨s, hs, rfl⟩ := mem_dropHeads.1 ht
      exact ⟨fun heq => hfree s hs (heq ▸ hx), s, (mem_pending.1 hs).1,
        (dropHead_sublist a s).mem hx⟩
  · obtain ⟨s, hs, rfl⟩ := mem_dropHeads.1 ht
    have hkept : (dropHead a s).filter (· != a) = dropHead a s := by
      refine List.filter_eq_self.2 fun x hx => ?_
      simpa using fun heq : x = a => hfree s hs (heq ▸ hx)
    rw [h.nodup.erase_eq_filter, ← hkept]
    exact ((dropHead_sublist a s).trans (h.sublist s (mem_pending.1 hs).1)).filter _

/-- **Where a merge is stuck there is no consistent order.** -/
theorem Stuck.not_isConsistent (h : Stuck sequences) : ¬IsConsistent sequences order := by
  intro horder
  induction h generalizing order with
  | here left heads =>
    obtain ⟨a, ha⟩ := horder.exists_candidate left
    rw [heads] at ha
    cases ha
  | later head _ ih => exact ih (horder.erase head)

/-- **Merging is sound and complete.**  A merge ends, and it ends with an order exactly if there
is a consistent one; the order that it ends with is consistent. -/
theorem c3Merge_consistent (sequences : List (List α)) :
    ((∃ merged, c3Merge sequences = some merged ∧ Merged sequences merged) ∨
        c3Merge sequences = none ∧ Stuck sequences) ∧
      ((∃ merged, c3Merge sequences = some merged) ↔ ∃ order, IsConsistent sequences order) ∧
      ∀ merged, c3Merge sequences = some merged → IsConsistent sequences merged := by
  have hsound : ∀ merged, c3Merge sequences = some merged → IsConsistent sequences merged :=
    fun merged h => (merged_of_c3Merge h).isConsistent
  refine ⟨merged_or_stuck sequences, ⟨?_, ?_⟩, hsound⟩
  · rintro ⟨merged, h⟩
    exact ⟨merged, hsound merged h⟩
  · rintro ⟨order, horder⟩
    rcases merged_or_stuck sequences with ⟨merged, h, _⟩ | ⟨_, hstuck⟩
    · exact ⟨merged, h⟩
    · exact absurd horder hstuck.not_isConsistent

/-- Two orders that contradict each other. -/
example : c3Merge [[3, 0, 1], [4, 1, 0], [3, 4]] = none := by decide

end Hierarchy
end Lineage
