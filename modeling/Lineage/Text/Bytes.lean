/-
# Text measured in bytes

Offsets and spans count the bytes that text takes in UTF-8, while the text itself
is a list of characters.  `byteLength` measures it, `splitBytes?` cuts it, and a
cut inside a character is refused.  `splitBytes?_append` says that a cut at the
end of a first part gives the two parts back, and `exists_slice?` that the text
between two borders of characters (`IsCut`) can be cut out.
-/

namespace Lineage
namespace Text

/-- The bytes that the characters take in UTF-8. -/
def byteLength : List Char → Nat
  | [] => 0
  | c :: cs => c.utf8Size + byteLength cs

/-- The empty text has no bytes. -/
@[simp] theorem byteLength_nil : byteLength [] = 0 := rfl

/-- A text has the bytes of its first character and those of the rest. -/
@[simp] theorem byteLength_cons (c : Char) (cs : List Char) :
    byteLength (c :: cs) = c.utf8Size + byteLength cs := rfl

/-- Texts behind each other have the bytes of both. -/
@[simp] theorem byteLength_append (a b : List Char) :
    byteLength (a ++ b) = byteLength a + byteLength b := by
  induction a with
  | nil => simp
  | cons c a ih => simp [ih, Nat.add_assoc]

/-- Every character has a byte at least. -/
theorem length_le_byteLength (cs : List Char) : cs.length ≤ byteLength cs := by
  induction cs with
  | nil => simp
  | cons c cs ih => have := c.utf8Size_pos; simp only [List.length_cons, byteLength_cons]; omega

/-- The text before and after the first `n` bytes; `none` if the text is shorter
or the cut falls inside a character. -/
def splitBytes? : Nat → List Char → Option (List Char × List Char)
  | 0, cs => some ([], cs)
  | _ + 1, [] => none
  | n + 1, c :: cs =>
    if c.utf8Size ≤ n + 1 then
      (splitBytes? (n + 1 - c.utf8Size) cs).map fun p => (c :: p.1, p.2)
    else none

/-- A text is split where its first part ends. -/
theorem splitBytes?_append (a b : List Char) :
    splitBytes? (byteLength a) (a ++ b) = some (a, b) := by
  induction a with
  | nil => simp [splitBytes?]
  | cons c a ih =>
    obtain ⟨n, hn⟩ : ∃ n, byteLength (c :: a) = n + 1 :=
      ⟨c.utf8Size + byteLength a - 1, by
        have := c.utf8Size_pos; simp only [byteLength_cons]; omega⟩
    have hle : c.utf8Size ≤ n + 1 := by rw [← hn, byteLength_cons]; omega
    have hsub : n + 1 - c.utf8Size = byteLength a := by rw [← hn, byteLength_cons]; omega
    rw [hn, List.cons_append, splitBytes?, if_pos hle, hsub, ih]; rfl

/-- A text that is cut is its two parts. -/
theorem eq_of_splitBytes? {n : Nat} {cs a b : List Char} (h : splitBytes? n cs = some (a, b)) :
    cs = a ++ b ∧ byteLength a = n := by
  induction cs generalizing n a with
  | nil =>
    cases n with
    | zero =>
      obtain ⟨rfl, rfl⟩ := Prod.mk.inj (Option.some.inj h)
      exact ⟨rfl, rfl⟩
    | succ n => cases h
  | cons c cs ih =>
    cases n with
    | zero =>
      obtain ⟨rfl, rfl⟩ := Prod.mk.inj (Option.some.inj h)
      exact ⟨rfl, rfl⟩
    | succ n =>
      unfold splitBytes? at h
      split at h
      · rename_i hle
        obtain ⟨⟨a, b⟩, hsplit, heq⟩ := Option.map_eq_some_iff.1 h
        obtain ⟨rfl, rfl⟩ := Prod.mk.inj heq
        obtain ⟨rfl, hlength⟩ := ih hsplit
        exact ⟨rfl, by rw [byteLength_cons, hlength]; omega⟩
      · cases h

/-- The text between two byte offsets; `none` if they are out of order, beyond the
end or inside a character. -/
def slice? (cs : List Char) (start stop : Nat) : Option (List Char) :=
  if start ≤ stop then
    (splitBytes? start cs).bind fun p => (splitBytes? (stop - start) p.2).map (·.1)
  else none

/-- The offset is on a border between characters of the text. -/
def IsCut (text : List Char) (n : Nat) : Prop := ∃ a b, text = a ++ b ∧ byteLength a = n

/-- A text can be cut at its start. -/
theorem isCut_zero (text : List Char) : IsCut text 0 := ⟨[], text, rfl, rfl⟩

/-- A text can be cut at its end. -/
theorem isCut_byteLength (text : List Char) : IsCut text (byteLength text) :=
  ⟨text, [], (List.append_nil text).symm, rfl⟩

/-- A cut is not behind the end of the text. -/
theorem IsCut.le_byteLength {text : List Char} {n : Nat} (h : IsCut text n) :
    n ≤ byteLength text := by
  obtain ⟨a, b, rfl, rfl⟩ := h
  rw [byteLength_append]
  exact Nat.le_add_right _ _

/-- The greater one of two cuts is a cut. -/
theorem isCut_max {text : List Char} {a b : Nat} (ha : IsCut text a) (hb : IsCut text b) :
    IsCut text (max a b) := by
  rw [Nat.max_def]
  split
  · exact hb
  · exact ha

/-- Only the empty text has no bytes. -/
theorem eq_nil_of_byteLength_eq_zero {cs : List Char} (h : byteLength cs = 0) : cs = [] := by
  have := length_le_byteLength cs
  exact List.length_eq_zero_iff.1 (by omega)

/-- Of two cuts of a text the first one is in front of the second one. -/
theorem exists_append_of_byteLength_le {a b a' b' : List Char} (h : a ++ b = a' ++ b')
    (hle : byteLength a ≤ byteLength a') : ∃ m, a' = a ++ m ∧ b = m ++ b' := by
  rcases List.append_eq_append_iff.1 h with ⟨m, ha', hb⟩ | ⟨m, ha, hb'⟩
  · exact ⟨m, ha', hb⟩
  · have hm : byteLength m = 0 := by
      rw [ha, byteLength_append] at hle
      omega
    obtain rfl := eq_nil_of_byteLength_eq_zero hm
    exact ⟨[], by simp [ha], by simpa using hb'.symm⟩

/-- The slice of a middle part is that part. -/
theorem slice?_append (a m b : List Char) :
    slice? (a ++ (m ++ b)) (byteLength a) (byteLength (a ++ m)) = some m := by
  rw [byteLength_append, slice?, if_pos (Nat.le_add_right _ _), splitBytes?_append,
    Option.bind_some, Nat.add_sub_cancel_left, splitBytes?_append, Option.map_some]

/-- What is cut out of a text stands between the offsets. -/
theorem slice?_eq_some_iff {text cs : List Char} {start stop : Nat} :
    slice? text start stop = some cs ↔
      ∃ a b, text = a ++ (cs ++ b) ∧ byteLength a = start ∧ byteLength (a ++ cs) = stop := by
  constructor
  · intro h
    unfold slice? at h
    split at h
    · rename_i hle
      obtain ⟨⟨a, rest⟩, ha, h⟩ := Option.bind_eq_some_iff.1 h
      obtain ⟨⟨m, b⟩, hm, rfl⟩ := Option.map_eq_some_iff.1 h
      obtain ⟨rfl, hstart⟩ := eq_of_splitBytes? ha
      obtain ⟨rfl, hlength⟩ := eq_of_splitBytes? hm
      exact ⟨a, b, rfl, hstart, by rw [byteLength_append, hstart, hlength]; omega⟩
    · cases h
  · rintro ⟨a, b, rfl, rfl, rfl⟩
    exact slice?_append a cs b

/-- What two texts have in common is cut out of both alike. -/
theorem slice?_common {a a' w u u' cs : List Char} {i j : Nat} (hj : j ≤ byteLength w)
    (h : slice? (a ++ (w ++ u)) (byteLength a + i) (byteLength a + j) = some cs) :
    slice? (a' ++ (w ++ u')) (byteLength a' + i) (byteLength a' + j) = some cs := by
  obtain ⟨l, r, htext, hi, hj'⟩ := slice?_eq_some_iff.1 h
  obtain ⟨l, rfl, hwu⟩ := exists_append_of_byteLength_le htext (by omega)
  simp only [byteLength_append] at hi hj'
  rw [← List.append_assoc] at hwu
  obtain ⟨r', rfl, _⟩ := exists_append_of_byteLength_le hwu.symm (by
    rw [byteLength_append]
    omega)
  refine slice?_eq_some_iff.2 ⟨a' ++ l, r' ++ u', ?_, ?_, ?_⟩
  · simp only [List.append_assoc]
  · rw [byteLength_append]
    omega
  · simp only [byteLength_append]
    omega

/-- A slice that is not empty ends behind its start. -/
theorem lt_of_slice?_eq_some {text cs : List Char} {start stop : Nat}
    (h : slice? text start stop = some cs) (hne : cs ≠ []) : start < stop := by
  obtain ⟨a, b, _, rfl, rfl⟩ := slice?_eq_some_iff.1 h
  rw [byteLength_append]
  have hpos := List.length_pos_iff.2 hne
  have hle := length_le_byteLength cs
  omega

/-- **Between two cuts in order there is a text.** -/
theorem exists_slice? {text : List Char} {start stop : Nat} (hstart : IsCut text start)
    (hstop : IsCut text stop) (hle : start ≤ stop) : ∃ cs, slice? text start stop = some cs := by
  obtain ⟨a, b, rfl, rfl⟩ := hstart
  obtain ⟨a', b', heq, rfl⟩ := hstop
  obtain ⟨m, rfl, rfl⟩ := exists_append_of_byteLength_le heq hle
  exact ⟨m, slice?_append a m b'⟩

end Text
end Lineage
