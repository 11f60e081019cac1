/-
# The first occurrence of a mark

`breakAt? mark text` parts a text at the first place where `mark` stands.
-/

namespace Lineage
namespace Text

/-- The text after a leading `mark`, if the text starts with it. -/
def after? : List Char → List Char → Option (List Char)
  | [], cs => some cs
  | _ :: _, [] => none
  | m :: mark, c :: cs => if m = c then after? mark cs else none

/-- What is behind a mark is the rest of a text that begins with it. -/
theorem after?_eq_some_iff {mark cs rest : List Char} :
    after? mark cs = some rest ↔ cs = mark ++ rest := by
  induction mark generalizing cs with
  | nil => simp [after?]
  | cons m mark ih =>
    cases cs with
    | nil => simp [after?]
    | cons c cs =>
      by_cases h : m = c
      · simp [after?, h, ih]
      · simp [after?, h, Ne.symm h]

/-- The text before and after the first occurrence of `mark`. -/
def breakAt? (mark : List Char) : List Char → Option (List Char × List Char)
  | [] => (after? mark []).map fun rest => ([], rest)
  | c :: cs =>
    match after? mark (c :: cs) with
    | some rest => some ([], rest)
    | none => (breakAt? mark cs).map fun p => (c :: p.1, p.2)

/-- A text that is broken at a mark is made up of both parts and the mark. -/
theorem eq_of_breakAt? {mark cs before rest : List Char}
    (h : breakAt? mark cs = some (before, rest)) : cs = before ++ mark ++ rest := by
  induction cs generalizing before with
  | nil =>
    simp only [breakAt?, Option.map_eq_some_iff, Prod.mk.injEq] at h
    obtain ⟨r, hr, rfl, rfl⟩ := h
    simpa using after?_eq_some_iff.1 hr
  | cons c cs ih =>
    unfold breakAt? at h
    split at h
    · rename_i r hr
      simp only [Option.some.injEq, Prod.mk.injEq] at h
      obtain ⟨rfl, rfl⟩ := h
      simpa using after?_eq_some_iff.1 hr
    · simp only [Option.map_eq_some_iff, Prod.mk.injEq] at h
      obtain ⟨⟨b, r⟩, hb, rfl, rfl⟩ := h
      simpa using ih hb

/-- No occurrence of the mark begins before the one that is found. -/
theorem length_le_of_breakAt? {mark cs before rest l r : List Char}
    (h : breakAt? mark cs = some (before, rest)) (hcs : cs = l ++ mark ++ r) :
    before.length ≤ l.length := by
  induction cs generalizing before l with
  | nil =>
    obtain ⟨_, _, heq⟩ := Option.map_eq_some_iff.1 h
    obtain ⟨rfl, rfl⟩ := Prod.mk.inj heq
    exact Nat.zero_le _
  | cons c cs ih =>
    unfold breakAt? at h
    split at h
    · obtain ⟨rfl, rfl⟩ := Prod.mk.inj (Option.some.inj h)
      exact Nat.zero_le _
    · rename_i hnone
      obtain ⟨⟨b, r'⟩, hb, heq⟩ := Option.map_eq_some_iff.1 h
      obtain ⟨rfl, rfl⟩ := Prod.mk.inj heq
      cases l with
      | nil =>
        rw [List.nil_append] at hcs
        rw [after?_eq_some_iff.2 hcs] at hnone
        cases hnone
      | cons x l => exact Nat.succ_le_succ (ih hb (List.cons.inj hcs).2)

/-- **A text is parted at the first place where the mark stands.** -/
theorem breakAt?_eq_some_iff {mark cs before rest : List Char} :
    breakAt? mark cs = some (before, rest) ↔
      cs = before ++ mark ++ rest ∧ ∀ l r, cs = l ++ mark ++ r → before.length ≤ l.length := by
  refine ⟨fun h => ⟨eq_of_breakAt? h, fun _ _ => length_le_of_breakAt? h⟩, fun h => ?_⟩
  induction before generalizing cs with
  | nil =>
    have hafter : after? mark cs = some rest := after?_eq_some_iff.2 h.1
    cases cs with
    | nil => rw [breakAt?, hafter, Option.map_some]
    | cons c cs => rw [breakAt?, hafter]
  | cons c before ih =>
    obtain ⟨hcs, hfirst⟩ := h
    have hnone : after? mark cs = none := by
      cases h : after? mark cs with
      | none => rfl
      | some r => exact absurd (hfirst [] r (after?_eq_some_iff.1 h)) (Nat.not_succ_le_zero _)
    rw [List.cons_append, List.cons_append] at hcs
    subst hcs
    have hbreak := ih ⟨rfl, fun l r heq =>
      Nat.le_of_succ_le_succ (hfirst (c :: l) r (congrArg (c :: ·) heq))⟩
    rw [breakAt?, hnone]
    dsimp only
    rw [hbreak, Option.map_some]

/-- A text is not parted only if the mark stands nowhere in it. -/
theorem breakAt?_eq_none_iff {mark cs : List Char} : breakAt? mark cs = none ↔ ¬ mark <:+: cs := by
  induction cs with
  | nil =>
    rw [breakAt?, Option.map_eq_none_iff, List.infix_nil]
    cases mark <;> simp [after?]
  | cons c cs ih =>
    rw [breakAt?, List.infix_cons_iff, not_or, ← ih]
    cases h : after? mark (c :: cs) with
    | none =>
      have hstart : ¬ mark <+: c :: cs := by
        rintro ⟨rest, hrest⟩
        rw [after?_eq_some_iff.2 hrest.symm] at h
        cases h
      simp [hstart]
    | some rest =>
      have hstart : mark <+: c :: cs := ⟨rest, (after?_eq_some_iff.1 h).symm⟩
      simp [hstart]

/-- What begins inside the first part of a text begins with its characters. -/
theorem exists_cons_of_length_lt {a b l r : List Char} (heq : a ++ b = l ++ r)
    (hlt : l.length < a.length) : ∃ d m, a = l ++ d :: m ∧ r = d :: m ++ b := by
  rcases List.append_eq_append_iff.1 heq with ⟨m, hl, _⟩ | ⟨m, ha, hr⟩
  · rw [hl, List.length_append] at hlt
    omega
  · cases m with
    | nil =>
      rw [ha, List.append_nil] at hlt
      exact absurd hlt (Nat.lt_irrefl _)
    | cons d m => exact ⟨d, m, ha, hr⟩

/-- A mark of one character is found behind a text that does not have it. -/
theorem breakAt?_singleton {c : Char} {before rest : List Char} (h : c ∉ before) :
    breakAt? [c] (before ++ [c] ++ rest) = some (before, rest) := by
  refine breakAt?_eq_some_iff.2 ⟨rfl, fun l r heq => Nat.le_of_not_lt fun hlt => h ?_⟩
  rw [List.append_assoc, List.append_assoc] at heq
  obtain ⟨d, m, hbefore, hmark⟩ := exists_cons_of_length_lt heq hlt
  obtain ⟨rfl, _⟩ := List.cons.inj hmark
  rw [hbefore]
  exact List.mem_append_right l List.mem_cons_self

end Text
end Lineage
