/-
# What merging keeps

The rules by which a merge goes on (`Merged`) determine it, and every order it yields
keeps each of the merged sequences (`Merged.sublist`), has their elements and no others
(`Merged.mem_iff`), each once (`Merged.nodup`).

The order to fall back on keeps less: not the sequences, but that an element is
followed by its successors wherever it stands (`Followed`).  Both merges keep that
(`Followed.of_sublists`, `Followed.keepLast`).
-/

import Lineage.Hierarchy.Merge
import Mathlib.Data.List.Sublists

namespace Lineage
namespace Hierarchy

variable {α : Type} {sequences : List (List α)} {merged s l : List α} {a b : α}

/-! ### Steps of a merge -/

/-- The sequences that have elements left. -/
def pending (sequences : List (List α)) : List (List α) := sequences.filter (!·.isEmpty)

/-- A sequence is pending if it is one of them and has elements left. -/
theorem mem_pending : s ∈ pending sequences ↔ s ∈ sequences ∧ s ≠ [] := by
  simp [pending]

section Merge

variable [DecidableEq α]

/-- The order that the sequences are merged to: nothing when they are empty, else the
candidate and then the order of what is left. -/
inductive Merged : List (List α) → List α → Prop where
  | done {sequences : List (List α)} (empty : pending sequences = []) : Merged sequences []
  | take {sequences : List (List α)} {a : α} {rest : List α}
      (head : candidate? (pending sequences) = some a)
      (others : Merged (dropHeads a (pending sequences)) rest) : Merged sequences (a :: rest)

/-- Nothing pending is merged to nothing, whatever the bound. -/
theorem mergeWithin_of_pending_eq_nil (bound : Nat) (h : pending sequences = []) :
    mergeWithin bound sequences = some [] := by
  rw [mergeWithin.eq_def]
  exact if_pos (List.isEmpty_iff.2 h)

/-- A merge that may take no element takes none, so it fails if something is pending. -/
theorem mergeWithin_zero (h : pending sequences ≠ []) : mergeWithin 0 sequences = none := by
  rw [mergeWithin.eq_def]
  exact if_neg (mt List.isEmpty_iff.1 h)

/-- A merge takes a candidate, and goes on with what is left of the sequences. -/
theorem mergeWithin_succ (bound : Nat) (h : pending sequences ≠ []) :
    mergeWithin (bound + 1) sequences =
      (candidate? (pending sequences)).bind fun a =>
        (mergeWithin bound (dropHeads a (pending sequences))).map (a :: ·) := by
  rw [mergeWithin.eq_def]
  refine (if_neg (mt List.isEmpty_iff.1 h)).trans ?_
  unfold pending
  dsimp only
  cases candidate? (sequences.filter (!·.isEmpty)) with
  | none => rfl
  | some a => rfl

/-- What a bounded merge finds is an order that the sequences are merged to. -/
theorem merged_of_mergeWithin {bound : Nat} (h : mergeWithin bound sequences = some merged) :
    Merged sequences merged := by
  induction bound generalizing sequences merged with
  | zero =>
    by_cases hempty : pending sequences = []
    · rw [mergeWithin_of_pending_eq_nil 0 hempty] at h
      exact Option.some.inj h ▸ .done hempty
    · rw [mergeWithin_zero hempty] at h
      cases h
  | succ n ih =>
    by_cases hempty : pending sequences = []
    · rw [mergeWithin_of_pending_eq_nil _ hempty] at h
      exact Option.some.inj h ▸ .done hempty
    · rw [mergeWithin_succ n hempty] at h
      obtain ⟨a, hhead, h⟩ := Option.bind_eq_some_iff.1 h
      obtain ⟨rest, hrest, rfl⟩ := Option.map_eq_some_iff.1 h
      exact .take hhead (ih hrest)

/-- A merge that succeeds goes by the rules. -/
theorem merged_of_c3Merge (h : c3Merge sequences = some merged) : Merged sequences merged :=
  merged_of_mergeWithin h

/-- The candidate heads a sequence and stands in no tail. -/
theorem candidate?_spec (h : candidate? sequences = some a) :
    (∃ s ∈ sequences, s.head? = some a) ∧ ∀ s ∈ sequences, a ∉ s.tail := by
  have hmem := List.mem_of_find?_eq_some h
  have hfree := List.find?_some h
  refine ⟨List.mem_filterMap.1 hmem, fun s hs hin => ?_⟩
  have := List.all_eq_true.1 hfree s hs
  simp [hin] at this

/-- A sequence without `a` at its head. -/
def dropHead (a : α) (s : List α) : List α := if s.head? = some a then s.tail else s

/-- A sequence that is left is one of them without its head, or as it was. -/
theorem mem_dropHeads : l ∈ dropHeads a sequences ↔ ∃ s ∈ sequences, dropHead a s = l :=
  List.mem_map

/-- A sequence keeps the order of its elements when a head is dropped. -/
theorem dropHead_sublist (a : α) (s : List α) : (dropHead a s).Sublist s := by
  unfold dropHead
  split
  · exact List.tail_sublist s
  · exact .refl s

/-- A sequence is its head, if that is taken, and what is left of it. -/
theorem sublist_cons_dropHead (a : α) (s : List α) : s.Sublist (a :: dropHead a s) := by
  unfold dropHead
  split
  · rename_i hhead
    cases s with
    | nil => exact List.nil_sublist _
    | cons x t => exact Option.some.inj hhead ▸ .refl _
  · exact List.sublist_cons_self a s

/-- An element that stands in no tail is gone once it is dropped. -/
theorem not_mem_dropHead (htail : a ∉ s.tail) : a ∉ dropHead a s := by
  unfold dropHead
  split
  · exact htail
  · rename_i hhead
    cases s with
    | nil => exact List.not_mem_nil
    | cons x t =>
      have hx : x ≠ a := by simpa using hhead
      exact fun hmem => htail (List.mem_of_ne_of_mem hx.symm hmem)

/-! ### Laws of a merge -/

/-- **A merge keeps every sequence.** -/
theorem Merged.sublist (h : Merged sequences merged) (hs : s ∈ sequences) :
    s.Sublist merged := by
  induction h generalizing s with
  | @done sequences empty =>
    have : s = [] := by
      by_contra hne
      exact List.not_mem_nil (empty ▸ mem_pending.2 ⟨hs, hne⟩)
    exact this ▸ List.nil_sublist _
  | @take sequences a rest head others ih =>
    by_cases hne : s = []
    · exact hne ▸ List.nil_sublist _
    · have hleft := ih (mem_dropHeads.2 ⟨s, mem_pending.2 ⟨hs, hne⟩, rfl⟩)
      exact (sublist_cons_dropHead a s).trans (hleft.cons_cons a)

/-- **A merge has the elements of the sequences.** -/
theorem Merged.mem_iff (h : Merged sequences merged) : a ∈ merged ↔ ∃ s ∈ sequences, a ∈ s := by
  refine ⟨fun hmem => ?_, fun ⟨s, hs, hin⟩ => (h.sublist hs).mem hin⟩
  induction h with
  | done empty => exact absurd hmem List.not_mem_nil
  | @take sequences x rest head others ih =>
    rcases List.mem_cons.1 hmem with rfl | hmem
    · obtain ⟨s, hs, hhead⟩ := (candidate?_spec head).1
      exact ⟨s, (mem_pending.1 hs).1, List.mem_of_head? hhead⟩
    · obtain ⟨_, ht, hin⟩ := ih hmem
      obtain ⟨s, hs, rfl⟩ := mem_dropHeads.1 ht
      exact ⟨s, (mem_pending.1 hs).1, (dropHead_sublist x s).mem hin⟩

/-- **A merge has no repetitions**: a candidate stands in no tail, so no sequence has it
any more when it is taken. -/
theorem Merged.nodup (h : Merged sequences merged) : merged.Nodup := by
  induction h with
  | done empty => exact List.nodup_nil
  | @take sequences a rest head others ih =>
    refine List.nodup_cons.2 ⟨fun hmem => ?_, ih⟩
    obtain ⟨_, ht, hin⟩ := others.mem_iff.1 hmem
    obtain ⟨s, hs, rfl⟩ := mem_dropHeads.1 ht
    exact not_mem_dropHead ((candidate?_spec head).2 s hs) hin

/-- No element is kept twice. -/
theorem nodup_keepLast (l : List α) : (keepLast l).Nodup := by
  induction l with
  | nil => exact List.nodup_nil
  | cons a l ih =>
    unfold keepLast
    split
    · exact ih
    · rename_i h
      refine List.nodup_cons.2 ⟨fun hmem => h ?_, ih⟩
      exact List.contains_iff_mem.2 (mem_keepLast.1 hmem)

end Merge

/-! ### Successors -/

/-- Wherever an element stands, its successors stand behind it. -/
def Followed (next : α → List α) : List α → Prop
  | [] => True
  | a :: l => (∀ b ∈ next a, b ∈ l) ∧ Followed next l

variable {next : α → List α}

/-- An element and its successor stand in this order in a list that has the element. -/
theorem Followed.pair_sublist (h : Followed next l) (ha : a ∈ l) (hb : b ∈ next a) :
    [a, b].Sublist l := by
  induction l with
  | nil => exact absurd ha List.not_mem_nil
  | cons x l ih =>
    by_cases hax : a = x
    · subst hax
      exact (List.singleton_sublist.2 (h.1 b hb)).cons_cons a
    · exact (ih h.2 (List.mem_of_ne_of_mem hax ha)).cons x

/-- Where every element and its successor stand in this order, successors stand behind. -/
theorem followed_of_pair_sublist (hnodup : l.Nodup)
    (h : ∀ a ∈ l, ∀ b ∈ next a, [a, b].Sublist l) : Followed next l := by
  induction l with
  | nil => trivial
  | cons x l ih =>
    obtain ⟨hx, hl⟩ := List.nodup_cons.1 hnodup
    refine ⟨fun b hb => ?_, ih hl fun a ha b hb => ?_⟩
    · exact List.singleton_sublist.1 (List.cons_sublist_cons.1 (h x List.mem_cons_self b hb))
    · have hpair := h a (List.mem_cons_of_mem x ha) b hb
      rcases List.sublist_cons_iff.1 hpair with hpair | ⟨r, hr, _⟩
      · exact hpair
      · obtain ⟨rfl, _⟩ := List.cons.inj hr
        exact absurd ha hx

/-- **An order that keeps sequences keeps their successors**, if each of its elements
comes from one of them. -/
theorem Followed.of_sublists (hnodup : merged.Nodup)
    (h : ∀ a ∈ merged, ∃ s, a ∈ s ∧ Followed next s ∧ s.Sublist merged) :
    Followed next merged := by
  refine followed_of_pair_sublist hnodup fun a ha b hb => ?_
  obtain ⟨s, has, hs, hsub⟩ := h a ha
  exact (hs.pair_sublist has hb).trans hsub

/-- Lists that have their successors behind may stand behind each other. -/
theorem Followed.append (hs : Followed next s) (hl : Followed next l) :
    Followed next (s ++ l) := by
  induction s with
  | nil => exact hl
  | cons a s ih => exact ⟨fun b hb => List.mem_append_left l (hs.1 b hb), ih hs.2⟩

/-- The end of a list has its successors behind as well. -/
theorem Followed.of_append_right (h : Followed next (s ++ l)) : Followed next l := by
  induction s with
  | nil => exact h
  | cons a s ih => exact ih h.2

/-- Any number of lists that have their successors behind may stand behind each other. -/
theorem Followed.flatten (h : ∀ s ∈ sequences, Followed next s) :
    Followed next sequences.flatten := by
  induction sequences with
  | nil => trivial
  | cons s sequences ih =>
    rw [List.flatten_cons]
    exact (h s List.mem_cons_self).append (ih fun t ht => h t (List.mem_cons_of_mem s ht))

/-- **Keeping last occurrences keeps successors**: none of them stood before an
occurrence that went. -/
theorem Followed.keepLast [DecidableEq α] (h : Followed next l) : Followed next (keepLast l) := by
  induction l with
  | nil => trivial
  | cons a l ih =>
    unfold Hierarchy.keepLast
    split
    · exact ih h.2
    · exact ⟨fun b hb => mem_keepLast.2 (h.1 b hb), ih h.2⟩

/-- Of a pair that a list without repetitions keeps, the first stands before the second. -/
theorem idxOf_lt_idxOf_of_pair_sublist [DecidableEq α] (hnodup : l.Nodup) (h : [a, b].Sublist l) :
    l.idxOf a < l.idxOf b := by
  induction l with
  | nil => cases h
  | cons x l ih =>
    obtain ⟨hx, hl⟩ := List.nodup_cons.1 hnodup
    rcases List.sublist_cons_iff.1 h with h | ⟨r, hr, hsub⟩
    · have hne : ∀ c ∈ [a, b], x ≠ c := fun c hc heq => hx (heq ▸ h.mem hc)
      rw [List.idxOf_cons_ne l (hne a (by simp)), List.idxOf_cons_ne l (hne b (by simp))]
      exact Nat.succ_lt_succ (ih hl h)
    · obtain ⟨rfl, rfl⟩ := List.cons.inj hr
      have hb : a ≠ b := fun heq => hx (heq ▸ hsub.mem (List.mem_singleton_self b))
      rw [List.idxOf_cons_self, List.idxOf_cons_ne l hb]
      exact Nat.succ_pos _

end Hierarchy
end Lineage
