/-
# Merging orders

`c3Merge` merges sequences into one order that keeps each of them, taking at every
step the first head that stands in no tail; there is none if the sequences
contradict each other.  `keepLast` is the order to fall back on.
-/

namespace Lineage
namespace Hierarchy

variable {α : Type} [DecidableEq α]

/-- The element stands in no tail of the sequences. -/
def inNoTail (sequences : List (List α)) (a : α) : Bool :=
  sequences.all fun s => !s.tail.contains a

/-- The first head that stands in no tail. -/
def candidate? (sequences : List (List α)) : Option α :=
  (sequences.filterMap List.head?).find? (inNoTail sequences)

/-- The sequences without the element at their heads. -/
def dropHeads (a : α) (sequences : List (List α)) : List (List α) :=
  sequences.map fun s => if s.head? = some a then s.tail else s

/-- The merge in at most `bound` steps. -/
def mergeWithin : (bound : Nat) → List (List α) → Option (List α)
  | bound, sequences =>
    let rest := sequences.filter (!·.isEmpty)
    if rest.isEmpty then some []
    else
      match bound with
      | 0 => none
      | n + 1 =>
        match candidate? rest with
        | none => none
        | some a => (mergeWithin n (dropHeads a rest)).map (a :: ·)

/-- One order that keeps every sequence.  Every step takes an element off, so there
are no more steps than elements. -/
def c3Merge (sequences : List (List α)) : Option (List α) :=
  mergeWithin sequences.flatten.length sequences

/-- The list without repetitions; the last occurrence of an element stays. -/
def keepLast : List α → List α
  | [] => []
  | a :: l => if l.contains a then keepLast l else a :: keepLast l

/-- The list loses repetitions only. -/
theorem mem_keepLast {a : α} {l : List α} : a ∈ keepLast l ↔ a ∈ l := by
  induction l with
  | nil => simp [keepLast]
  | cons b l ih =>
    unfold keepLast
    split
    · rename_i h
      simp only [List.contains_iff_mem] at h
      rw [ih, List.mem_cons]
      constructor
      · exact Or.inr
      · rintro (rfl | h')
        · exact h
        · exact h'
    · simp [ih]

end Hierarchy
end Lineage
