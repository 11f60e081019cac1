/-
# Numerals

Numbers are written in decimal by `Nat.repr`; here they are read in any base up
to sixteen, and written in hexadecimal with a fixed number of places.
-/

namespace Lineage
namespace Text

/-- The value of a digit, letters counting on from ten in either case. -/
def digitValue (c : Char) : Nat :=
  if '0' ≤ c && c ≤ '9' then c.toNat - '0'.toNat
  else if 'a' ≤ c && c ≤ 'f' then c.toNat - 'a'.toNat + 10
  else if 'A' ≤ c && c ≤ 'F' then c.toNat - 'A'.toNat + 10
  else 16

/-- The number that the digits write in `base` after the number `n`. -/
def readDigits? (base n : Nat) : List Char → Option Nat
  | [] => some n
  | c :: cs => if digitValue c < base then readDigits? base (n * base + digitValue c) cs else none

/-- The number that a non-empty run of digits writes in `base`. -/
def readNumeral? (base : Nat) : List Char → Option Nat
  | [] => none
  | c :: cs => readDigits? base 0 (c :: cs)

/-- The number that digits write in `base`, each by its value. -/
def numeralValue (base : Nat) (digits : List Char) : Nat :=
  digits.foldl (fun n c => n * base + digitValue c) 0

/-- Digits are read to the end, each of them below the base, and from the left. -/
theorem readDigits?_eq_some_iff {base n v : Nat} {cs : List Char} :
    readDigits? base n cs = some v ↔
      (∀ c ∈ cs, digitValue c < base) ∧ v = cs.foldl (fun n c => n * base + digitValue c) n := by
  induction cs generalizing n with
  | nil => simp [readDigits?, eq_comm]
  | cons c cs ih =>
    unfold readDigits?
    split
    · rename_i hc
      simp [ih, hc]
    · rename_i hc
      simp [hc]

/-- Just the non-empty runs of digits are numerals. -/
theorem readNumeral?_eq_some_iff {base v : Nat} {cs : List Char} :
    readNumeral? base cs = some v ↔
      cs ≠ [] ∧ (∀ c ∈ cs, digitValue c < base) ∧ v = numeralValue base cs := by
  cases cs with
  | nil => simp [readNumeral?]
  | cons c cs =>
    rw [readNumeral?, readDigits?_eq_some_iff]
    simp [numeralValue]

/-- The digits below ten are the ten decimal ones. -/
theorem digitValue_lt_ten_iff {c : Char} : digitValue c < 10 ↔ '0' ≤ c ∧ c ≤ '9' := by
  unfold digitValue
  split
  · rename_i h
    have hbounds : '0' ≤ c ∧ c ≤ '9' := by simpa using h
    have hle : c.toNat ≤ '9'.toNat := hbounds.2
    have : '9'.toNat = '0'.toNat + 9 := rfl
    exact ⟨fun _ => hbounds, fun _ => by omega⟩
  · rename_i h
    have hbounds : ¬ ('0' ≤ c ∧ c ≤ '9') := by simpa using h
    refine ⟨fun hlt => absurd hlt ?_, fun h => absurd h hbounds⟩
    split
    · omega
    · split <;> omega

/-- The digits below sixteen are the decimal ones and the letters up to `f`, in either case. -/
theorem digitValue_lt_sixteen_iff {c : Char} : digitValue c < 16 ↔
    ('0' ≤ c ∧ c ≤ '9') ∨ ('a' ≤ c ∧ c ≤ 'f') ∨ ('A' ≤ c ∧ c ≤ 'F') := by
  unfold digitValue
  have hnine : '9'.toNat = '0'.toNat + 9 := rfl
  have hf : 'f'.toNat = 'a'.toNat + 5 := rfl
  have hF : 'F'.toNat = 'A'.toNat + 5 := rfl
  split
  · rename_i h
    have hbounds : '0' ≤ c ∧ c ≤ '9' := by simpa using h
    have hle : c.toNat ≤ '9'.toNat := hbounds.2
    exact ⟨fun _ => .inl hbounds, fun _ => by omega⟩
  · rename_i h₁
    split
    · rename_i h
      have hbounds : 'a' ≤ c ∧ c ≤ 'f' := by simpa using h
      have hle : c.toNat ≤ 'f'.toNat := hbounds.2
      exact ⟨fun _ => .inr (.inl hbounds), fun _ => by omega⟩
    · rename_i h₂
      split
      · rename_i h
        have hbounds : 'A' ≤ c ∧ c ≤ 'F' := by simpa using h
        have hle : c.toNat ≤ 'F'.toNat := hbounds.2
        exact ⟨fun _ => .inr (.inr hbounds), fun _ => by omega⟩
      · rename_i h₃
        simp only [Bool.and_eq_true, decide_eq_true_eq] at h₁ h₂ h₃
        exact ⟨fun h => absurd h (Nat.lt_irrefl 16),
          fun h => by rcases h with h | h | h <;> contradiction⟩

/-- A decimal digit stands for its distance from zero. -/
theorem digitValue_of_isDigit {c : Char} (h : c.isDigit) :
    digitValue c = c.toNat - '0'.toNat ∧ digitValue c < 10 := by
  have hbounds : '0' ≤ c ∧ c ≤ '9' := Char.isDigit_iff_toNat.1 h
  have hvalue : digitValue c = c.toNat - '0'.toNat := if_pos (by simpa using hbounds)
  have hle : c.toNat ≤ '9'.toNat := hbounds.2
  refine ⟨hvalue, ?_⟩
  have : '9'.toNat = '0'.toNat + 9 := rfl
  omega

/-- Decimal digits are read as core reads them. -/
theorem readDigits?_of_isDigit {n : Nat} {cs : List Char} (h : ∀ c ∈ cs, c.isDigit) :
    readDigits? 10 n cs = some (Nat.ofDigitChars 10 cs n) := by
  induction cs generalizing n with
  | nil => rfl
  | cons c cs ih =>
    obtain ⟨hc, hlt⟩ := digitValue_of_isDigit (h c List.mem_cons_self)
    rw [readDigits?, if_pos hlt, ih fun d hd => h d (List.mem_cons_of_mem c hd),
      Nat.ofDigitChars_cons, hc, Nat.mul_comm]

/-- A number is written in decimal digits. -/
theorem isDigit_of_mem_repr {c : Char} {n : Nat} (h : c ∈ n.repr.toList) : c.isDigit := by
  rw [Nat.toList_repr] at h
  exact Nat.isDigit_of_mem_toDigits (by decide) (by decide) h

/-- **A number is read as it is written.** -/
theorem readNumeral?_repr (n : Nat) : readNumeral? 10 n.repr.toList = some n := by
  have hread := readDigits?_of_isDigit (n := 0) fun _ => isDigit_of_mem_repr (n := n)
  rw [Nat.toList_repr, Nat.ofDigitChars_toDigits (by decide) (by decide)] at hread
  rw [Nat.toList_repr]
  cases h : Nat.toDigits 10 n with
  | nil => exact absurd h Nat.toDigits_ne_nil
  | cons c cs =>
    rw [h] at hread
    exact hread

/-- `n` in hexadecimal, its last `places` digits. -/
def hexPadded (places n : Nat) : List Char :=
  (List.range places).reverse.map fun i => Nat.digitChar (n / Nat.pow 16 i % 16)

end Text
end Lineage
