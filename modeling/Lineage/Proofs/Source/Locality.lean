/-
# What is scanned is decided by what is taken

A text begins in one of a few ways (`Begins`).  A token that is scanned within the first part
of a text is scanned there as well when another gap is behind that part
(`scan_token_local`), and so is what carries no token (`scan_skip_local`).  What a line
begins with does not depend on the lines behind it, a literal between triple quotes aside
(`scan_line`).
-/

import Lineage.Proofs.Source.Literals

namespace Lineage
namespace Source

open Text

variable {cs x v w : List Char} {c : Char} {s : Scan} {t : Token} {n : Nat}

/-! ### What a text begins with -/

/-- Where a string literal begins, it is what is scanned. -/
theorem scan_of_scanString? (h : scanString? cs = some s) : scan cs = s := by
  rw [scan, h]

/-- A run is no longer than the text. -/
theorem runLength_le (q : Char → Bool) (cs : List Char) : runLength q cs ≤ cs.length :=
  (List.takeWhile_sublist q).length_le

/-- A line break. -/
def IsBreak (ending : List Char) : Prop := ending = ['\n'] ∨ ending = ['\r', '\n']

/-- A line break is scanned as a `newline` of its length. -/
theorem scan_break {ending : List Char} (h : IsBreak ending) (cs : List Char) :
    scan (ending ++ cs) = .token .newline ending.length := by
  rcases h with rfl | rfl
  · exact scan_newline cs
  · exact scan_return ('\n' :: cs)

/-- A backslash in front of a line break joins the lines. -/
theorem scan_join {ending : List Char} (h : IsBreak ending) (cs : List Char) :
    scan ('\\' :: (ending ++ cs)) = .skip (ending.length + 1) := by
  rcases h with rfl | rfl <;> exact scan_backslash _

/-- What is matched as a line break is one. -/
theorem exists_break (h : breakLength cs ≠ 0) :
    ∃ ending ds, IsBreak ending ∧ cs = ending ++ ds := by
  unfold breakLength at h
  split at h
  · exact ⟨_, _, .inl rfl, rfl⟩
  · exact ⟨_, _, .inr rfl, rfl⟩
  · exact absurd rfl h

/-- What a text begins with. -/
inductive Begins : List Char → Scan → Prop
  | blanks {c : Char} (hc : isBlank c = true) (cs : List Char) :
    Begins (c :: cs) (.skip (blanksLength cs + 1))
  | comment (cs : List Char) :
    Begins ('#' :: cs) (.skip (runLength (fun c => c != '\r' && c != '\n') cs + 1))
  | joined {ending : List Char} (h : IsBreak ending) (cs : List Char) :
    Begins ('\\' :: (ending ++ cs)) (.skip (ending.length + 1))
  | newline {ending : List Char} (h : IsBreak ending) (cs : List Char) :
    Begins (ending ++ cs) (.token .newline ending.length)
  | literal {c : Char} {cs : List Char} {s : Scan} (hc : c ∉ gapChars)
    (h : scanString? (c :: cs) = some s) : Begins (c :: cs) s
  | lexical {c : Char} {cs : List Char} {s : Scan} (hc : c ∉ gapChars)
    (h : scanString? (c :: cs) = none) (hmem : s ∈ lexicals (c :: cs)) (hpos : 0 < s.length)
    (hmax : ∀ s' ∈ lexicals (c :: cs), s'.length ≤ s.length) : Begins (c :: cs) s
  | bad (c : Char) (cs : List Char) : Begins (c :: cs) (.bad 1)

/-- **Every text begins in one of these ways.** -/
theorem begins_scan (c : Char) (cs : List Char) : Begins (c :: cs) (scan (c :: cs)) := by
  by_cases hc : c ∈ gapChars
  · rcases mem_gapChars_iff.1 hc with hblank | rfl | rfl | rfl | rfl
    · exact scan_blank hblank cs ▸ .blanks hblank cs
    · exact scan_comment cs ▸ .comment cs
    · by_cases hbreak : breakLength cs = 0
      · rw [scan_backslash, if_pos hbreak]
        exact .bad _ _
      · obtain ⟨ending, ds, hending, rfl⟩ := exists_break hbreak
        exact scan_join hending ds ▸ .joined hending ds
    · exact scan_newline cs ▸ .newline (.inl rfl) cs
    · rw [scan_return]
      split
      · rename_i hhead
        obtain ⟨ds, rfl⟩ := List.head?_eq_some_iff.1 hhead
        exact .newline (.inr rfl) ds
      · exact .bad _ _
  · cases hstring : scanString? (c :: cs) with
    | some s => exact scan_of_scanString? hstring ▸ .literal hc hstring
    | none =>
      rcases scan_lexical_cases hc hstring with ⟨hbad, _⟩ | ⟨hmem, hpos, hmax⟩
      · exact hbad ▸ .bad _ _
      · exact .lexical hc hstring hmem hpos hmax

/-- Any text but the empty one begins with what is scanned. -/
theorem begins_of_ne_nil (h : cs ≠ []) : Begins cs (scan cs) := by
  obtain ⟨c, ds, rfl⟩ := List.exists_cons_of_ne_nil h
  exact begins_scan c ds

/-- A line break has a character. -/
theorem IsBreak.length_pos {ending : List Char} (h : IsBreak ending) : 0 < ending.length := by
  rcases h with rfl | rfl <;> decide

/-- Tokens and what carries none take characters, and no more than there are. -/
theorem Begins.length (h : Begins cs s) (hs : ∀ n, s ≠ .bad n) :
    0 < s.length ∧ s.length ≤ cs.length := by
  cases h with
  | blanks => exact ⟨Nat.succ_pos _, Nat.succ_le_succ (runLength_le _ _)⟩
  | comment => exact ⟨Nat.succ_pos _, Nat.succ_le_succ (runLength_le _ _)⟩
  | joined _ ds =>
    refine ⟨Nat.succ_pos _, Nat.succ_le_succ ?_⟩
    rw [List.length_append]
    exact Nat.le_add_right _ _
  | newline hending ds =>
    refine ⟨hending.length_pos, ?_⟩
    rw [List.length_append]
    exact Nat.le_add_right _ _
  | literal _ h =>
    cases s with
    | token t n => exact length_le_of_scanString? h
    | skip n => exact absurd rfl (ne_skip_of_scanString? h n)
    | bad n => exact absurd rfl (hs n)
  | lexical _ _ hmem hpos =>
    obtain ⟨_, f, hf, hlength⟩ := exists_confined hmem
    exact ⟨hpos, hlength ▸ hf.le_length _⟩
  | bad => exact absurd rfl (hs 1)

/-! ### Locality -/

/-- A run that ends within the first part of a text ends there before any rest. -/
theorem runLength_local {q : Char → Bool} (h : runLength q (x ++ v) < x.length) (w : List Char) :
    runLength q (x ++ w) = runLength q (x ++ v) := by
  induction x with
  | nil => exact absurd h (Nat.not_lt_zero _)
  | cons c x ih =>
    unfold runLength at h ih ⊢
    rw [List.cons_append, List.takeWhile_cons] at h ⊢
    rw [List.cons_append, List.takeWhile_cons]
    split
    · rename_i hc
      rw [if_pos hc] at h
      rw [List.length_cons, List.length_cons, ih (by simpa using h)]
    · rfl

/-- A run does not go beyond a character that is not of its class. -/
theorem runLength_before {q : Char → Bool} (hc : q c = false) :
    runLength q (x ++ c :: v) = runLength q x := by
  induction x with
  | nil => simp [runLength, hc]
  | cons d x ih =>
    unfold runLength at ih ⊢
    rw [List.cons_append, List.takeWhile_cons, List.takeWhile_cons]
    split
    · rw [List.length_cons, List.length_cons, ih]
    · rfl

/-- A joined line within the first part of a text is one before any rest. -/
theorem scan_join_local {ending ds : List Char} (hending : IsBreak ending)
    (h : x ++ v = '\\' :: (ending ++ ds)) (hle : ending.length + 1 ≤ x.length) (w : List Char) :
    scan (x ++ w) = .skip (ending.length + 1) := by
  obtain ⟨m, rfl⟩ := exists_append_of_length_le (y := '\\' :: ending) h hle
  rw [List.cons_append, List.cons_append, List.append_assoc]
  exact scan_join hending _

/-- What carries no token and ends within the first part of a text stands there before any
rest. -/
theorem scan_skip_local (h : scan (x ++ v) = .skip n) (hn : n < x.length) (w : List Char) :
    scan (x ++ w) = .skip n := by
  rcases x with - | ⟨c, x⟩
  · exact absurd hn (Nat.not_lt_zero _)
  rw [List.cons_append] at h ⊢
  have hbegins := begins_scan c (x ++ v)
  rw [h] at hbegins
  rw [List.length_cons] at hn
  generalize hcs : c :: (x ++ v) = cs at hbegins
  cases hbegins with
  | blanks hc =>
    obtain ⟨rfl, rfl⟩ := List.cons.inj hcs
    rw [scan_blank hc, blanksLength, blanksLength, runLength_local (Nat.lt_of_succ_lt_succ hn) w]
  | comment =>
    obtain ⟨rfl, rfl⟩ := List.cons.inj hcs
    rw [scan_comment, runLength_local (Nat.lt_of_succ_lt_succ hn) w]
  | joined hending => exact scan_join_local (x := c :: x) hending hcs (Nat.le_of_lt hn) w
  | literal _ hs => exact absurd rfl (ne_skip_of_scanString? hs n)
  | lexical _ _ hmem =>
    obtain ⟨⟨t, k, hk⟩, _⟩ := exists_confined hmem
    cases hk

/-- Words, numbers and tokens with one spelling within the first part of a text are found in
that part before any foreign character. -/
theorem scan_lexical_local (hc : c ∉ gapChars) (hs : scanString? (c :: (x ++ v)) = none)
    (hs' : scanString? (c :: (x ++ w)) = none)
    (hle : ∀ s ∈ lexicals (c :: (x ++ v)), s.length ≤ (c :: x).length)
    (hw : HeadIn foreignChars w) : scan (c :: (x ++ w)) = scan (c :: (x ++ v)) := by
  have hsame : lexicals (c :: (x ++ w)) = lexicals (c :: (x ++ v)) := by
    refine lexicals_congr (fun f hf hle => ?_) hle ?_
    · exact hf.before_foreign (x := c :: x) hle hw
    · rw [← List.cons_append, ← List.cons_append, List.take_left, List.take_left]
  rw [scan_lexical hc hs', hsame, ← scan_lexical hc hs]

/-- Where a literal is found with another rest only, its quote is bad and stands behind the
token. -/
theorem scan_drop_of_lost (hs : scanString? (x ++ v) = none) (hsome : scanString? (x ++ w) = some s)
    (hw : HeadIn gapChars w) (h : scan (x ++ v) = .token t n) :
    n < x.length ∧ scan (x.drop n ++ v) = .bad 1 := by
  obtain ⟨p, quote, y, rfl, hp, hquote⟩ := exists_quoted_within hsome hw
  rw [List.append_assoc, List.cons_append] at hs h
  have hbad : scan (quote :: (y ++ v)) = .bad 1 :=
    scan_lone_quote hquote ((scanString?_quoted_eq_none_iff isStringPrefix_nil hquote).2
      ((scanString?_quoted_eq_none_iff hp hquote).1 hs))
  by_cases hne : p = []
  · subst hne
    rw [List.nil_append, hbad] at h
    cases h
  · have hlength := length_scan_letters hp hne hquote hs
    rw [h] at hlength
    obtain rfl : n = p.length := hlength
    rw [List.drop_left, List.length_append, List.length_cons]
    exact ⟨Nat.lt_add_of_pos_right (Nat.succ_pos _), hbad⟩

/-- **A token is scanned alike before any gap.**  A token within the first part of a text is
scanned in that part with any other gap behind it, if what is scanned next there is not bad. -/
theorem scan_token_local (h : scan (x ++ v) = .token t n) (hn : n ≤ x.length)
    (hnext : n < x.length → ∀ k, scan (x.drop n ++ v) ≠ .bad k) (hw : HeadIn gapChars w) :
    scan (x ++ w) = .token t n := by
  have hne : x ++ v ≠ [] := fun hnil => by
    rw [hnil] at h
    cases h
  have hbegins := begins_of_ne_nil hne
  rw [h] at hbegins
  have hpos : 0 < n := (hbegins.length (fun _ => by simp)).1
  generalize hcs : x ++ v = cs at hbegins
  cases hbegins with
  | newline hending ds =>
    obtain ⟨m, rfl⟩ := exists_append_of_length_le hcs hn
    rw [List.append_assoc]
    exact scan_break hending _
  | literal _ hs =>
    rw [← hcs] at hs
    exact scan_of_scanString? (scanString?_local hs hn hw)
  | lexical hc hs _ _ hmax =>
    have hx : x ≠ [] := List.length_pos_iff.1 (Nat.lt_of_lt_of_le hpos hn)
    obtain ⟨d, x, rfl⟩ := List.exists_cons_of_ne_nil hx
    rw [List.cons_append] at hcs h ⊢
    obtain ⟨rfl, rfl⟩ := List.cons.inj hcs
    have hnone : scanString? (d :: (x ++ w)) = none := by
      by_contra hsome
      obtain ⟨s, hsome⟩ := Option.ne_none_iff_exists'.1 hsome
      obtain ⟨hlt, hbad⟩ := scan_drop_of_lost (x := d :: x) hs hsome hw h
      exact hnext hlt 1 hbad
    rw [scan_lexical_local hc hs hnone (fun s hs => Nat.le_trans (hmax s hs) hn) hw.foreign, h]

/-! ### Lines -/

/-- A line break stands in its line. -/
theorem breakLength_line (x v w : List Char) :
    breakLength (x ++ '\n' :: w) = breakLength (x ++ '\n' :: v) := by
  rcases x with - | ⟨a, - | ⟨b, x⟩⟩
  · rfl
  · by_cases ha : a = '\n' <;> by_cases hr : a = '\r' <;> simp [breakLength, ha, hr]
  · by_cases ha : a = '\n'
    · simp [breakLength, ha]
    · by_cases hr : a = '\r' <;> by_cases hb : b = '\n' <;> simp [breakLength, hr, hb, ha]

/-- **A line does not depend on the lines behind it**, if it closes what it opens with three
quotes. -/
theorem scan_line (h : ClosesInLine x v w) : scan (x ++ '\n' :: w) = scan (x ++ '\n' :: v) := by
  rcases x with - | ⟨c, x⟩
  · exact (scan_newline w).trans (scan_newline v).symm
  have hstring := scanString?_line h
  rw [List.cons_append, List.cons_append] at hstring ⊢
  by_cases hc : c ∈ gapChars
  · rcases mem_gapChars_iff.1 hc with hblank | rfl | rfl | rfl | rfl
    · rw [scan_blank hblank, scan_blank hblank, blanksLength, blanksLength, runLength_before rfl,
        runLength_before rfl]
    · rw [scan_comment, scan_comment, runLength_before rfl, runLength_before rfl]
    · rw [scan_backslash, scan_backslash, breakLength_line x v w]
    · rw [scan_newline, scan_newline]
    · have hhead : (x ++ '\n' :: w).head? = (x ++ '\n' :: v).head? := by
        rw [List.head?_append, List.head?_append, List.head?_cons, List.head?_cons]
      rw [scan_return, scan_return, hhead]
  · have hforeign : ∀ u, HeadIn foreignChars ('\n' :: u) := fun u => (headIn_line u).foreign
    cases hs : scanString? (c :: (x ++ '\n' :: v)) with
    | some s => rw [scan_of_scanString? hs, scan_of_scanString? (hstring.trans hs)]
    | none =>
      refine scan_lexical_local hc hs (hstring.trans hs) (fun s hs => ?_) (hforeign w)
      obtain ⟨_, f, hf, hlength⟩ := exists_confined hs
      rw [hlength]
      exact hf.within (c :: x) _ (hforeign v)

end Source
end Lineage
