/-
# Brackets of an expression

An expression of no modelled shape is passed by counting brackets, with one exception: from
a `lambda` to the next colon every token is passed as it stands.  So it ends where it began,
as far as brackets are concerned, on a stretch of tokens that closes all brackets and in which
none is open at the colon of a `lambda` (`IsStretch`, `looseLength?_stretch`).  Where some are
open at such a colon it still ends on the stretch, but with brackets open that were not open
where it began.  The first is meant by a stretch with `strict`, the second by one without.

Every reading of an expression then keeps to its stretch, and what it passes on a strict one is
balanced (`Cursor.Balances`).  A line is a stretch from any place in it on
(`expression_balanced`), and so is what stands before a colon or a semicolon outside of brackets.
A bracket that is open at the colon is another thing: `lambda a={1: 2}: a` is passed up to its
`2` (`loose_unbalanced_display`).
-/

import Lineage.Proofs.Outline.Definitions
import Mathlib.Data.List.Infix
import Mathlib.Data.List.TakeWhile

namespace Lineage
namespace Outline

open Source Reading Text Cursor

variable {o : Origin} {c c' c'' : Cursor} {t : Token} {a b d k n : Nat}
  {p q ts more : List Token} {l : Lexeme} {ls : List Lexeme} {strict : Prop}

/-! ### Balanced tokens -/

/-- The tokens open as many brackets as they close, and nowhere have they closed more. -/
def BracketBalanced (ts : List Token) : Prop :=
  ts.countP (·.isOpener) = ts.countP (·.isCloser) ∧
    ∀ p ∈ ts.inits, p.countP (·.isCloser) ≤ p.countP (·.isOpener)

/-- Whether brackets are balanced can be seen from the tokens in front of each place. -/
instance (ts : List Token) : Decidable (BracketBalanced ts) :=
  inferInstanceAs (Decidable (_ ∧ ∀ p ∈ ts.inits, _))

/-- The brackets open behind the tokens, of which each closes one that is open. -/
def depth? : Nat → List Token → Option Nat
  | d, [] => some d
  | d, t :: ts =>
    if t.isOpener then depth? (d + 1) ts
    else if t.isCloser then (if d = 0 then none else depth? (d - 1) ts)
    else depth? d ts

/-- The empty stretch leaves the brackets as they are. -/
@[simp] theorem depth?_nil : depth? d [] = some d := rfl

/-- An opening bracket is one more that is open. -/
theorem depth?_opener (h : t.isOpener = true) : depth? d (t :: ts) = depth? (d + 1) ts := by
  rw [depth?, if_pos h]

/-- A closing bracket is one fewer. -/
theorem depth?_closer (h : t.isCloser = true) : depth? (d + 1) (t :: ts) = depth? d ts := by
  rw [depth?, if_neg (by simp [isOpener_of_isCloser h]), if_pos h, if_neg (Nat.succ_ne_zero d),
    Nat.add_sub_cancel]

/-- Nothing is closed where nothing is open. -/
theorem depth?_closer_zero (h : t.isCloser = true) : depth? 0 (t :: ts) = none := by
  rw [depth?, if_neg (by simp [isOpener_of_isCloser h]), if_pos h, if_pos rfl]

/-- No other token counts. -/
theorem depth?_other (hopener : t.isOpener = false) (hcloser : t.isCloser = false) :
    depth? d (t :: ts) = depth? d ts := by
  rw [depth?, if_neg (by simp [hopener]), if_neg (by simp [hcloser])]

/-- Tokens behind each other count one after the other. -/
theorem depth?_append : depth? d (p ++ q) = (depth? d p).bind (depth? · q) := by
  induction p generalizing d with
  | nil => rfl
  | cons t p ih =>
    rw [List.cons_append]
    cases hopener : t.isOpener with
    | true => rw [depth?_opener hopener, depth?_opener hopener, ih]
    | false =>
      cases hcloser : t.isCloser with
      | false => rw [depth?_other hopener hcloser, depth?_other hopener hcloser, ih]
      | true =>
        cases d with
        | zero => rw [depth?_closer_zero hcloser, depth?_closer_zero hcloser, Option.bind_none]
        | succ d => rw [depth?_closer hcloser, depth?_closer hcloser, ih]

/-- Brackets that are open around the tokens stay open. -/
theorem depth?_add (h : depth? a p = some b) (k : Nat) : depth? (k + a) p = some (k + b) := by
  induction p generalizing a with
  | nil =>
    obtain rfl := Option.some.inj h
    rfl
  | cons t p ih =>
    cases hopener : t.isOpener with
    | true =>
      rw [depth?_opener hopener] at h ⊢
      exact ih h
    | false =>
      cases hcloser : t.isCloser with
      | false =>
        rw [depth?_other hopener hcloser] at h ⊢
        exact ih h
      | true =>
        cases a with
        | zero => rw [depth?_closer_zero hcloser] at h; cases h
        | succ a =>
          rw [depth?_closer hcloser] at h
          rw [← Nat.add_assoc, depth?_closer hcloser]
          exact ih h

/-- What is behind some of the tokens begins with the brackets that these leave open. -/
theorem depth?_of_append (h : depth? (k + a) (q ++ p) = some d) (hq : depth? a q = some b) :
    depth? (k + b) p = some d := by
  rwa [depth?_append, depth?_add hq k, Option.bind_some] at h

/-- The depth behind the tokens is the one before them and their surplus of brackets, and no
bracket is closed that is not open. -/
theorem depth?_eq_some_iff : depth? a ts = some b ↔
    a + ts.countP (·.isOpener) = b + ts.countP (·.isCloser) ∧
      ∀ p, p <+: ts → p.countP (·.isCloser) ≤ a + p.countP (·.isOpener) := by
  have hcons : ∀ {t : Token} {ts : List Token} {a : Nat},
      (∀ p, p <+: t :: ts → p.countP (·.isCloser) ≤ a + p.countP (·.isOpener)) ↔
        ∀ p, p <+: ts → (t :: p).countP (·.isCloser) ≤ a + (t :: p).countP (·.isOpener) := by
    intro t ts a
    refine ⟨fun h p hp => h (t :: p) (List.cons_prefix_cons.2 ⟨rfl, hp⟩), fun h p hp => ?_⟩
    rcases List.prefix_cons_iff.1 hp with rfl | ⟨p', rfl, hp'⟩
    · simp
    · exact h p' hp'
  induction ts generalizing a with
  | nil => simp
  | cons t ts ih =>
    rw [hcons]
    cases hopener : t.isOpener with
    | true =>
      have hcloser := Token.isCloser_eq_false_of_isOpener hopener
      rw [depth?_opener hopener]
      refine ih.trans ?_
      simp only [List.countP_cons, hopener, hcloser, if_true, Bool.false_eq_true, if_false,
        Nat.add_zero, Nat.add_assoc, Nat.add_comm 1]
    | false =>
      cases hcloser : t.isCloser with
      | false =>
        rw [depth?_other hopener hcloser]
        refine ih.trans ?_
        simp only [List.countP_cons, hopener, hcloser, Bool.false_eq_true, if_false, Nat.add_zero]
      | true =>
        cases a with
        | zero =>
          rw [depth?_closer_zero hcloser]
          refine ⟨nofun, fun h => ?_⟩
          have hfirst := h.2 [] List.nil_prefix
          simp [hopener, hcloser] at hfirst
        | succ a =>
          rw [depth?_closer hcloser]
          refine ih.trans ?_
          simp only [List.countP_cons, hopener, hcloser, if_true, Bool.false_eq_true, if_false,
            Nat.add_zero]
          refine and_congr (by omega) (forall₂_congr fun p _ => by omega)

/-- Brackets are balanced just when counting them leads back to none. -/
theorem bracketBalanced_iff : BracketBalanced ts ↔ depth? 0 ts = some 0 := by
  simp only [BracketBalanced, depth?_eq_some_iff, List.mem_inits, Nat.zero_add]

/-- Behind the tokens `b` brackets are open where `a` were before them, and if `strict` does not
hold there may be more of them. -/
def Leaves (strict : Prop) (a b : Nat) (p : List Token) : Prop :=
  ∃ s, depth? a p = some (s + b) ∧ (strict → s = 0)

/-- A depth that is counted is left behind. -/
theorem leaves_of_depth? (h : depth? a p = some b) : Leaves strict a b p :=
  ⟨0, by rw [h, Nat.zero_add], fun _ => rfl⟩

/-- If brackets are to be balanced strictly, the depth that is left is the one that is counted. -/
theorem leaves_true_iff : Leaves True a b p ↔ depth? a p = some b := by
  refine ⟨?_, leaves_of_depth?⟩
  rintro ⟨s, hs, hzero⟩
  rw [hs, hzero trivial, Nat.zero_add]

/-- What is left behind two parts is left behind the second one. -/
theorem Leaves.append (hp : Leaves strict a b p) (hq : Leaves strict b d q) :
    Leaves strict a d (p ++ q) := by
  obtain ⟨s, hs, hzero⟩ := hp
  obtain ⟨s', hs', hzero'⟩ := hq
  refine ⟨s + s', ?_, fun h => by rw [hzero h, hzero' h]⟩
  rw [depth?_append, hs, Option.bind_some, depth?_add hs' s, Nat.add_assoc]

/-- Brackets that were open before stay open. -/
theorem Leaves.add (h : Leaves strict a b p) (k : Nat) : Leaves strict (k + a) (k + b) p := by
  obtain ⟨s, hs, hzero⟩ := h
  exact ⟨s, by rw [depth?_add hs k, Nat.add_left_comm], hzero⟩

/-! ### Stretches -/

/-- Between each `lambda` of the tokens and the colon behind it, or their end, the brackets are
balanced. -/
def HeadersBalanced (ts : List Token) : Prop :=
  ∀ rest ∈ ts.tails, rest.head? = some .lambdaKeyword →
    BracketBalanced (rest.tail.takeWhile (· ≠ .colon))

/-- Whether lambda headers are balanced can be seen from the tokens behind each `lambda`. -/
instance (ts : List Token) : Decidable (HeadersBalanced ts) :=
  inferInstanceAs (Decidable (∀ rest ∈ ts.tails, _))

/-- Between each `lambda` of the tokens and the colon behind it, or their end, no bracket is
closed that is not opened there; and each is closed, if `strict` holds. -/
def HeadersOpen (strict : Prop) (ts : List Token) : Prop :=
  ∀ q, .lambdaKeyword :: q <:+ ts → Leaves strict 0 0 (q.takeWhile (· ≠ .colon))

/-- Balanced headers close nothing that they have not opened. -/
theorem HeadersBalanced.headersOpen (h : HeadersBalanced ts) : HeadersOpen strict ts :=
  fun _ hq => leaves_of_depth? (bracketBalanced_iff.1 (h _ ((List.mem_tails ..).2 hq) rfl))

/-- The end of such a list of tokens is one too. -/
theorem HeadersOpen.of_suffix (h : HeadersOpen strict ts) (hq : q <:+ ts) :
    HeadersOpen strict q :=
  fun r hr => h r (hr.trans hq)

/-- Tokens of a line that close `k` brackets and all that they open, up to the end of the line,
a colon or a semicolon.  A colon that ends them is not that of a `lambda` among them. -/
structure IsStretch (strict : Prop) (k : Nat) (p more : List Token) : Prop where
  line : ∀ t ∈ p, t.isLayout = false
  closes : depth? k p = some 0
  headers : HeadersOpen strict p
  bound : ∀ t, more.head? = some t → t.isLayout = true ∨ t = .colon ∨ t = .semicolon
  colons : (∀ t, more.head? = some t → t.isLayout = true) ∨
    ∀ q, .lambdaKeyword :: q <:+ p → .colon ∈ q

/-- A later part of a stretch. -/
theorem IsStretch.behind (h : IsStretch strict (k + a) (q ++ p) more) (hq : depth? a q = some b) :
    IsStretch strict (k + b) p more where
  line t ht := h.line t (List.mem_append_right q ht)
  closes := depth?_of_append h.closes hq
  headers := h.headers.of_suffix (List.suffix_append q p)
  bound := h.bound
  colons := h.colons.imp_right fun hcolon r hr => hcolon r (hr.trans (List.suffix_append q p))

/-- Behind a part of a stretch there is still a stretch. -/
theorem IsStretch.exists_behind (h : IsStretch strict (k + a) (q ++ p) more)
    (hq : Leaves strict a b q) : ∃ k', IsStretch strict (k' + b) p more := by
  obtain ⟨s, hs, _⟩ := hq
  exact ⟨k + s, by rw [Nat.add_assoc]; exact h.behind hs⟩

/-- Of the next tokens, `n` are passed, and they close `d` brackets and all that they open. -/
def Closes (strict : Prop) (d n : Nat) (p : List Token) : Prop :=
  n ≤ p.length ∧ Leaves strict d 0 (p.take n)

/-- To pass nothing closes nothing. -/
theorem closes_zero : Closes strict 0 0 p := ⟨Nat.zero_le _, leaves_of_depth? rfl⟩

/-- What is passed behind tokens that leave `b` brackets open. -/
theorem Closes.append (h : Closes strict b n p) (hq : Leaves strict a b q) :
    Closes strict a (q.length + n) (q ++ p) := by
  refine ⟨by rw [List.length_append]; exact Nat.add_le_add_left h.1 _, ?_⟩
  rw [List.take_length_add_append]
  exact hq.append h.2

/-- One more token in front is passed as well. -/
theorem Closes.cons (h : Closes strict b n p) (ht : depth? a [t] = some b) :
    Closes strict a (n + 1) (t :: p) :=
  Nat.add_comm 1 n ▸ h.append (leaves_of_depth? ht)

/-- The header of a lambda, with its colon if there is one. -/
theorem looseLength?_header {header : List Lexeme}
    (h : ∀ l ∈ header, l.token.isLayout = false ∧ l.token ≠ .colon) :
    looseLength? 0 true (header ++ ls) = (looseLength? 0 true ls).map (· + header.length) := by
  induction header with
  | nil => simp
  | cons l header ih =>
    obtain ⟨⟨hline, hcolon⟩, hheader⟩ := List.forall_mem_cons.1 h
    have hstep : looseLength? 0 true (l :: (header ++ ls)) =
        (looseLength? 0 true (header ++ ls)).map (· + 1) := by
      rw [looseLength?, if_neg (by simp [hline])]
      split
      · rfl
      · rw [if_pos rfl]
        simp [hcolon]
    rw [List.cons_append, hstep, ih hheader, Option.map_map]
    rfl

/-- A colon ends the header of a lambda. -/
theorem looseLength?_colon (h : l.token = .colon) :
    looseLength? 0 true (l :: ls) = (looseLength? 0 false ls).map (· + 1) := by
  rw [looseLength?, if_neg (by simp [h, Token.isLayout, Token.isShift])]
  simp [h]

/-- A `lambda` opens a header. -/
theorem looseLength?_lambda (h : l.token = .lambdaKeyword) :
    looseLength? 0 false (l :: ls) = (looseLength? 0 true ls).map (· + 1) := by
  rw [looseLength?, if_neg (by simp [h, Token.isLayout, Token.isShift])]
  simp [h]

/-- At the end of a line nothing more is passed. -/
theorem looseLength?_of_halt {header : Bool} (h : ∀ l ∈ ls.head?, l.token.isLayout = true) :
    looseLength? d header ls = some 0 := by
  cases ls with
  | nil => rfl
  | cons l ls =>
    unfold looseLength?
    exact if_pos (h l rfl)

/-- At a token that ends expressions nothing more is passed. -/
theorem looseLength?_of_ends (h : endsExpression l.token = true) :
    looseLength? 0 false (l :: ls) = some 0 := by
  have hlambda : l.token ≠ .lambdaKeyword := fun heq => by rw [heq] at h; cases h
  rw [looseLength?, if_neg hlambda, if_neg Bool.false_ne_true, if_pos h, ite_self]

/-- Any other token is counted as it opens or closes a bracket. -/
theorem looseLength?_counted (ls : List Lexeme) (hline : l.token.isLayout = false)
    (h : d = 0 → l.token ≠ .lambdaKeyword ∧ endsExpression l.token = false) :
    ∃ b, depth? d [l.token] = some b ∧
      looseLength? d false (l :: ls) = (looseLength? b false ls).map (· + 1) := by
  cases d with
  | zero =>
    obtain ⟨hlambda, hends⟩ := h rfl
    have hcloser : l.token.isCloser = false := isCloser_of_not_endsExpression (by simp [hends])
    cases hopener : l.token.isOpener with
    | true =>
      refine ⟨1, by rw [depth?_opener hopener, depth?_nil], ?_⟩
      rw [looseLength?, if_neg (by simp [hline])]
      simp [hlambda, hends, hopener]
    | false =>
      refine ⟨0, by rw [depth?_other hopener hcloser, depth?_nil], ?_⟩
      rw [looseLength?, if_neg (by simp [hline])]
      simp [hlambda, hends, hopener, hcloser]
  | succ d =>
    cases hopener : l.token.isOpener with
    | true =>
      refine ⟨d + 2, by rw [depth?_opener hopener, depth?_nil], ?_⟩
      rw [looseLength?, if_neg (by simp [hline])]
      simp [hopener]
    | false =>
      cases hcloser : l.token.isCloser with
      | true =>
        refine ⟨d, by rw [depth?_closer hcloser, depth?_nil], ?_⟩
        rw [looseLength?, if_neg (by simp [hline])]
        simp [hopener, hcloser]
      | false =>
        refine ⟨d + 1, by rw [depth?_other hopener hcloser, depth?_nil], ?_⟩
        conv => lhs; rw [looseLength?, if_neg (by simp [hline])]
        simp [hopener, hcloser]

/-- The header of a lambda is on the stretch, and what is behind its colon, or at the end of the
line, is passed as it would be without the lambda. -/
theorem IsStretch.exists_header (h : IsStretch strict k (.lambdaKeyword :: p) more)
    (hls : ls.map (·.token) = p ++ more) (hn : looseLength? 0 true ls = some n) :
    ∃ header p' behind m, p = header ++ p' ∧ Leaves strict 0 0 header ∧
      behind.map (·.token) = p' ++ more ∧ looseLength? 0 false behind = some m ∧
        n = header.length + m := by
  have hleaves := h.headers p (List.suffix_refl _)
  have hpassed : ∀ {q : List Token}, q ⊆ p → .colon ∉ q → ∀ before : List Lexeme,
      before.map (·.token) = q → ∀ l ∈ before, l.token.isLayout = false ∧ l.token ≠ .colon := by
    rintro _ hsub hcolon before rfl l hl
    have hmem : l.token ∈ before.map (·.token) := List.mem_map_of_mem hl
    exact ⟨h.line _ (List.mem_cons_of_mem _ (hsub hmem)), ne_of_mem_of_not_mem hmem hcolon⟩
  by_cases hcolon : .colon ∈ p
  · obtain ⟨q, p', rfl, hq⟩ := List.eq_append_cons_of_mem hcolon
    rw [List.takeWhile_append_of_pos fun t ht => decide_eq_true (ne_of_mem_of_not_mem ht hq),
      List.takeWhile_cons_of_neg (by simp), List.append_nil] at hleaves
    rw [List.append_assoc] at hls
    obtain ⟨before, behind, rfl, hbefore, hbehind⟩ := List.map_eq_append_iff.1 hls
    obtain ⟨colon, behind, rfl, hcolon', hbehind⟩ := List.map_eq_cons_iff.1 hbehind
    rw [looseLength?_header (hpassed (List.subset_append_left ..) hq before hbefore),
      looseLength?_colon hcolon', Option.map_map] at hn
    obtain ⟨m, hm, rfl⟩ := Option.map_eq_some_iff.1 hn
    refine ⟨q ++ [.colon], p', behind, m, by simp,
      hleaves.append (leaves_of_depth? (depth?_other rfl rfl)), hbehind, hm, ?_⟩
    rw [List.length_append, ← hbefore, List.length_map, List.length_singleton]
    simp only [Function.comp_apply]
    omega
  · have hhalts := h.colons.resolve_right fun hcolons => hcolon (hcolons p (List.suffix_refl _))
    have htakeWhile : p.takeWhile (· ≠ .colon) = p :=
      List.takeWhile_eq_self_iff.2 fun t ht => decide_eq_true (ne_of_mem_of_not_mem ht hcolon)
    rw [htakeWhile] at hleaves
    obtain ⟨before, behind, rfl, hbefore, hbehind⟩ := List.map_eq_append_iff.1 hls
    have hhead : ∀ l ∈ behind.head?, l.token.isLayout = true := fun l hl =>
      hhalts _ (by rw [← hbehind, List.head?_map, Option.mem_def.1 hl, Option.map_some])
    rw [looseLength?_header (hpassed (List.Subset.refl _) hcolon before hbefore),
      looseLength?_of_halt hhead] at hn
    refine ⟨p, [], behind, 0, (List.append_nil p).symm, hleaves, hbehind,
      looseLength?_of_halt hhead, ?_⟩
    rw [← hbefore, List.length_map, ← Option.some.inj hn]
    exact Nat.add_comm 0 before.length

/-- At the end of a stretch there is no more to pass. -/
theorem IsStretch.looseLength?_end (h : IsStretch strict k [] more)
    (hls : ls.map (·.token) = more) : looseLength? 0 false ls = some 0 := by
  cases ls with
  | nil => rfl
  | cons l ls =>
    refine looseLength?_of_ends ?_
    rcases h.bound l.token (by rw [← hls]; rfl) with hlayout | hcolon | hsemicolon
    · cases ht : l.token <;> first | rfl | (rw [ht] at hlayout; cases hlayout)
    · rw [hcolon]; rfl
    · rw [hsemicolon]; rfl

/-- **On a stretch, an expression of no modelled shape closes what it opens**, and it ends with
the stretch or before. -/
theorem looseLength?_stretch (h : IsStretch strict (k + d) p more)
    (hls : ls.map (·.token) = p ++ more) (hn : looseLength? d false ls = some n) :
    Closes strict d n p := by
  -- a header is passed at once, so the induction is on the length of the stretch
  induction hlength : p.length using Nat.strong_induction_on generalizing p ls d n k with
  | _ length ih =>
  subst hlength
  cases p with
  | nil =>
    have hd : k + d = 0 := Option.some.inj h.closes
    obtain rfl : d = 0 := by omega
    obtain rfl := Option.some.inj (hn.symm.trans (h.looseLength?_end hls))
    exact closes_zero
  | cons t p =>
    obtain ⟨l, ls', rfl, rfl, hls'⟩ := List.map_eq_cons_iff.1 hls
    by_cases hlambda : d = 0 ∧ l.token = .lambdaKeyword
    · obtain ⟨rfl, hlambda⟩ := hlambda
      rw [looseLength?_lambda hlambda] at hn
      obtain ⟨m, hm, rfl⟩ := Option.map_eq_some_iff.1 hn
      obtain ⟨header, p', behind, m', rfl, hheader, hbehind, hm', rfl⟩ :=
        IsStretch.exists_header (hlambda ▸ h) hls' hm
      have hkeyword : Leaves strict 0 0 [l.token] :=
        leaves_of_depth? (by rw [hlambda, depth?_other rfl rfl, depth?_nil])
      have hpassed : Leaves strict 0 0 (l.token :: header) := hkeyword.append hheader
      obtain ⟨k', hstretch⟩ := IsStretch.exists_behind (q := l.token :: header) h hpassed
      have hless : p'.length < (l.token :: (header ++ p')).length := by
        rw [List.length_cons, List.length_append]
        omega
      have hclosed := (ih _ hless hstretch hbehind hm' rfl).append hpassed
      rwa [List.length_cons, Nat.add_right_comm] at hclosed
    · by_cases hends : d = 0 ∧ endsExpression l.token = true
      · obtain ⟨rfl, hends⟩ := hends
        obtain rfl := Option.some.inj (hn.symm.trans (looseLength?_of_ends hends))
        exact closes_zero
      · obtain ⟨b, hb, hcounted⟩ := looseLength?_counted ls' (h.line _ List.mem_cons_self)
          fun hd => ⟨fun heq => hlambda ⟨hd, heq⟩, by simpa [hd] using hends⟩
        rw [hcounted] at hn
        obtain ⟨m, hm, rfl⟩ := Option.map_eq_some_iff.1 hn
        have hstretch : IsStretch strict (k + b) p more := IsStretch.behind (q := [l.token]) h hb
        exact (ih _ (Nat.lt_succ_self _) hstretch hls' hm rfl).cons hb

/-- On a stretch, a group ends with the bracket that closes it. -/
theorem group?_stretch {g : Group} (h : IsStretch strict (k + (d + 1)) p more)
    (hls : ls.map (·.token) = p ++ more) (hg : group? (d + 1) ls = some g) :
    Closes strict (d + 1) g.length p := by
  induction p generalizing d ls g with
  | nil => exact absurd (Option.some.inj h.closes) (by omega)
  | cons t p ih =>
    obtain ⟨l, ls', rfl, rfl, hls'⟩ := List.map_eq_cons_iff.1 hls
    have hline := h.line _ List.mem_cons_self
    have hgrow : ∀ {b}, depth? (d + 1) [l.token] = some (b + 1) →
        (group? (b + 1) ls').map Group.grow = some g →
          Closes strict (d + 1) g.length (l.token :: p) := by
      intro b hb hg
      obtain ⟨g', hg', rfl⟩ := Option.map_eq_some_iff.1 hg
      exact (ih (IsStretch.behind (q := [l.token]) h hb) hls' hg').cons hb
    unfold group? at hg
    split at hg
    · rename_i hopener
      exact hgrow (depth?_opener hopener) hg
    · rename_i hopener
      have hopener : l.token.isOpener = false := by simpa using hopener
      split at hg
      · rename_i hcloser
        cases d with
        | zero =>
          obtain rfl := Option.some.inj hg
          exact closes_zero.cons (depth?_closer hcloser)
        | succ d => exact hgrow (depth?_closer hcloser) hg
      · rename_i hcloser
        rw [if_neg (by simp [hline])] at hg
        exact hgrow (depth?_other hopener (by simpa using hcloser)) hg

/-! ### Readings on a stretch -/

namespace Cursor

/-- A place that, on a stretch in front of `more` where `a` brackets more are open, is on that
stretch too, behind tokens that leave `b` of these brackets open (`Leaves`). -/
structure Balances (strict : Prop) (o : Origin) (more : List Token) (a b : Nat)
    (c c' : Cursor) : Prop extends Follows o c c' where
  exists_passed : ∀ {k p}, c.tokens = p ++ more → IsStretch strict (k + a) p more →
    ∃ passed p', p = passed ++ p' ∧ c'.tokens = p' ++ more ∧ Leaves strict a b passed

/-- A place is on its own stretch. -/
theorem Balances.refl (hc : c.Stands o) : Balances strict o more a a c c :=
  ⟨Follows.refl hc, fun {_ p} hp _ => ⟨[], p, rfl, hp, leaves_of_depth? rfl⟩⟩

/-- Further on along a stretch the place is on it as well. -/
theorem Balances.trans (h : Balances strict o more a b c c')
    (h' : Balances strict o more b k c' c'') : Balances strict o more a k c c'' := by
  refine ⟨h.toFollows.trans h'.toFollows, fun hp hstretch => ?_⟩
  obtain ⟨passed, p', rfl, hp', hpassed⟩ := h.exists_passed hp hstretch
  obtain ⟨_, hbehind⟩ := hstretch.exists_behind hpassed
  obtain ⟨passed', p'', rfl, hp'', hpassed'⟩ := h'.exists_passed hp' hbehind
  exact ⟨passed ++ passed', p'', (List.append_assoc ..).symm, hp'', hpassed.append hpassed'⟩

/-- Brackets that are open around a stretch do not matter to it. -/
theorem Balances.shift (h : Balances strict o more 0 0 c c') (j : Nat) :
    Balances strict o more j j c c' := by
  refine ⟨h.toFollows, fun hp hstretch => ?_⟩
  obtain ⟨passed, p', hsplit, hp', hpassed⟩ := h.exists_passed (k := _ + j) hp hstretch
  exact ⟨passed, p', hsplit, hp', hpassed.add j⟩

/-- What is left of a stretch is one. -/
theorem Balances.isStretch (h : Balances strict o more a b c c') (hp : c.tokens = p ++ more)
    (hstretch : IsStretch strict (k + a) p more) :
    ∃ k' p', p' <:+ p ∧ c'.tokens = p' ++ more ∧ IsStretch strict (k' + b) p' more := by
  obtain ⟨passed, p', rfl, hp', hpassed⟩ := h.exists_passed hp hstretch
  obtain ⟨k', hbehind⟩ := hstretch.exists_behind hpassed
  exact ⟨k', p', List.suffix_append passed p', hp', hbehind⟩

/-- Some tokens of the stretch are passed. -/
theorem Stands.balances_advanceBy (hc : c.Stands o) (h : ∀ k p, c.tokens = p ++ more →
    IsStretch strict (k + a) p more → n ≤ p.length ∧ Leaves strict a b (p.take n)) :
    Balances strict o more a b c (c.advanceBy n) := by
  refine ⟨hc.advanceBy n, fun {k p} hp hstretch => ?_⟩
  obtain ⟨hn, hleaves⟩ := h k p hp hstretch
  refine ⟨p.take n, p.drop n, (List.take_append_drop n p).symm, ?_, hleaves⟩
  rw [tokens, rest_advanceBy, List.map_drop, ← tokens, hp, List.drop_append_of_le_length hn]

/-- One token of the stretch is passed, before its end. -/
theorem Stands.balances_advance (hc : c.Stands o) (hnext : c.next? = some t)
    (hend : ∀ {k}, c.tokens = more → ¬IsStretch strict k [] more) (hdepth : depth? a [t] = some b) :
    Balances strict o more a b c c.advance := by
  refine hc.balances_advanceBy (n := 1) fun k p hp hstretch => ?_
  cases p with
  | nil => exact absurd hstretch (hend hp)
  | cons u p =>
    obtain rfl : u = t := Option.some.inj ((next?_of_tokens hp).symm.trans hnext)
    exact ⟨Nat.le_add_left 1 _, leaves_of_depth? hdepth⟩

/-- A token is passed that ends no stretch. -/
theorem Stands.balances_other (hc : c.Stands o) (hnext : c.next? = some t)
    (hline : t.isLayout = false) (hcolon : t ≠ .colon) (hsemicolon : t ≠ .semicolon)
    (hdepth : depth? a [t] = some b) : Balances strict o more a b c c.advance := by
  refine hc.balances_advance hnext (fun heq hstretch => ?_) hdepth
  have hbound := hstretch.bound t (by rw [← heq, head?_tokens, hnext])
  simp [hline, hcolon, hsemicolon] at hbound

end Cursor

/-- A stretch is a path that only counts brackets. -/
theorem isBracketPath_balances (strict : Prop) (o : Origin) (more : List Token) :
    IsBracketPath o (Balances strict o more) where
  refl := Balances.refl
  trans := Balances.trans
  follows := Balances.toFollows
  shift := Balances.shift
  made := ⟨fun h => ⟨follows_made.1 h.toFollows, h.exists_passed⟩,
    fun h => ⟨follows_made.2 h.toFollows, h.exists_passed⟩⟩
  opener hc hnext ht :=
    hc.balances_other hnext (isLayout_of_isOpener ht) (fun heq => by rw [heq] at ht; cases ht)
      (fun heq => by rw [heq] at ht; cases ht) (depth?_opener ht)
  closer hc hnext ht :=
    hc.balances_other hnext (isLayout_of_isCloser ht) (fun heq => by rw [heq] at ht; cases ht)
      (fun heq => by rw [heq] at ht; cases ht) (depth?_closer ht)
  plain hc hnext ht := by
    obtain ⟨hline, hopener, hcloser⟩ := isPlain_eq_true ht
    exact hc.balances_other hnext hline (fun heq => by rw [heq] at ht; cases ht)
      (fun heq => by rw [heq] at ht; cases ht) (depth?_other hopener hcloser)
  loose hc hn := hc.balances_advanceBy fun _ _ hp hstretch => looseLength?_stretch hstretch hp hn
  group {c t g} hc hnext ht hg := by
    refine hc.balances_advanceBy fun k p hp hstretch => ?_
    obtain ⟨l, ls, hrest, rfl⟩ := next?_eq_some_iff.1 hnext
    rw [hrest, group?, if_pos ht] at hg
    obtain ⟨g', hg', rfl⟩ := Option.map_eq_some_iff.1 hg
    cases p with
    | nil =>
      have hbound := hstretch.bound l.token
        (by rw [← List.nil_append more, ← hp, head?_tokens, hnext])
      cases hl : l.token <;> simp_all [Token.isOpener, Token.isLayout, Token.isShift]
    | cons u p =>
      obtain rfl : u = l.token := Option.some.inj ((next?_of_tokens hp).symm.trans hnext)
      have hls : ls.map (·.token) = p ++ more := by
        rw [Cursor.tokens, hrest, List.map_cons] at hp
        exact (List.cons.inj hp).2
      have hopened : depth? 0 [l.token] = some 1 := depth?_opener ht
      have hbehind : IsStretch strict (k + 1) p more :=
        IsStretch.behind (q := [l.token]) hstretch hopened
      exact (group?_stretch (d := 0) hbehind hls hg').cons hopened

/-! ### Lines -/

/-- The lines of tokens: what stands between the layout tokens. -/
def linesOf (ts : List Token) : List (List Token) := ts.splitOnP (·.isLayout)

/-- The first line is what stands before a layout token. -/
theorem linesOf_eq_cons (ts : List Token) :
    ∃ others, linesOf ts = ts.takeWhile (!·.isLayout) :: others := by
  unfold linesOf
  induction ts with
  | nil => exact ⟨[], rfl⟩
  | cons t ts ih =>
    obtain ⟨others, hothers⟩ := ih
    rw [List.splitOnP_cons_eq_if_modifyHead]
    cases hlayout : t.isLayout with
    | true => exact ⟨_, by rw [if_pos rfl, List.takeWhile_cons_of_neg (by simp [hlayout])]⟩
    | false =>
      refine ⟨others, ?_⟩
      rw [if_neg Bool.false_ne_true, hothers, List.modifyHead_cons,
        List.takeWhile_cons_of_pos (by simp [hlayout])]

/-- What is left of a line belongs to a line. -/
theorem exists_mem_linesOf (passed ts : List Token) :
    ∃ before, before ++ ts.takeWhile (!·.isLayout) ∈ linesOf (passed ++ ts) := by
  induction passed with
  | nil =>
    obtain ⟨others, hothers⟩ := linesOf_eq_cons ts
    exact ⟨[], by rw [List.nil_append, List.nil_append, hothers]; exact List.mem_cons_self⟩
  | cons t passed ih =>
    obtain ⟨before, hbefore⟩ := ih
    rw [List.cons_append, linesOf, List.splitOnP_cons_eq_if_modifyHead]
    split
    · exact ⟨before, List.mem_cons_of_mem _ hbefore⟩
    · obtain ⟨others, hothers⟩ := linesOf_eq_cons (passed ++ ts)
      rw [← linesOf]
      rw [hothers] at hbefore ⊢
      rcases List.mem_cons.1 hbefore with hfirst | hother
      · exact ⟨t :: before, by rw [List.modifyHead_cons, ← hfirst]; exact List.mem_cons_self⟩
      · exact ⟨before, List.mem_cons_of_mem _ hother⟩

/-- From any place on it, a balanced line is a stretch. -/
theorem isStretch_line {passed ts : List Token} (h : ∀ line ∈ linesOf (passed ++ ts),
    BracketBalanced line ∧ HeadersBalanced line) :
    ∃ k, IsStretch strict k (ts.takeWhile (!·.isLayout)) (ts.dropWhile (!·.isLayout)) := by
  obtain ⟨before, hmem⟩ := exists_mem_linesOf passed ts
  obtain ⟨hbalanced, hheaders⟩ := h _ hmem
  rw [bracketBalanced_iff, depth?_append] at hbalanced
  obtain ⟨k, _, hk⟩ := Option.bind_eq_some_iff.1 hbalanced
  have hends : ∀ t, (ts.dropWhile (!·.isLayout)).head? = some t → t.isLayout = true := by
    intro t ht
    have hnot := List.head?_dropWhile_not (!·.isLayout) ts
    rw [ht] at hnot
    simpa using hnot
  refine ⟨k, fun t ht => ?_, hk, hheaders.headersOpen.of_suffix (List.suffix_append ..),
    fun t ht => .inl (hends t ht), .inl hends⟩
  simpa using List.all_eq_true.1 List.all_takeWhile t ht

/-! ### Expressions -/

/-- A loose expression stays on its stretch. -/
theorem balances_looseExpression {start : Nat} (hc : c.Stands o) :
    Ends .any (looseExpression start) o c fun _ c' => Balances strict o more 0 0 c c' := by
  simp only [looseExpression, ends_bind, ends_ahead, ends_orFault_any, ends_pass, ends_lastStop,
    ends_sourceText_any, ends_makeSpan, ends_pure]
  intro n hn _ _
  have hpath := isBracketPath_balances strict o more
  exact hpath.made.2 (hpath.loose hc hn)

/-- **Expressions are balanced.**  On each line of the tokens the brackets are balanced, and so
are those between a `lambda` and the colon behind it.  Then at every place among the tokens an
expression of no modelled shape, and any expression, ends at the bracket depth where it began:
the tokens that it passes are balanced. -/
theorem expression_balanced {tokens : List Lexeme} {start : Nat} {e : Expression}
    (hlines : ∀ line ∈ linesOf (tokens.map (·.token)), BracketBalanced line ∧ HeadersBalanced line)
    (hc : Follows o (.first tokens) c)
    (he : looseExpression start o c = .done e c' ∨ expression o c = .done e c') :
    ∃ passed, c.tokens = passed ++ c'.tokens ∧ BracketBalanced passed := by
  have hbalances : ∀ more, Balances True o more 0 0 c c' := by
    intro more
    rcases he with he | he
    · exact (ends_iff_of_done he).1 (balances_looseExpression hc.stands)
    · exact (ends_iff_of_done he).1
        ((isBracketPath_balances True o more).settles_expression c hc.stands (Nat.lt_succ_self _))
  obtain ⟨before, hbefore⟩ := hc.rest
  have hsplit : tokens.map (·.token) = before.map (·.token) ++ c.tokens := by
    rw [Cursor.tokens, ← List.map_append, hbefore]
    rfl
  obtain ⟨k, hstretch⟩ := isStretch_line (hsplit ▸ hlines)
  obtain ⟨passed, p', hp, hc', hleaves⟩ :=
    (hbalances _).exists_passed List.takeWhile_append_dropWhile.symm hstretch
  refine ⟨passed, ?_, bracketBalanced_iff.2 (leaves_true_iff.1 hleaves)⟩
  rw [hc', ← List.append_assoc, ← hp, List.takeWhile_append_dropWhile]

/-- A call with a lambda in it, whose default is a tuple. -/
def tupleDefault : String := "class A:\n x = -f(lambda a=(0, 1): \x7ba: 1\x7d)\n"

/-- The hypotheses of `expression_balanced` are satisfiable: the value of `x` is one expression of
no modelled shape, and it closes the brackets that it opens. -/
theorem expression_balanced_tupleDefault :
    ∃ tokens c e c', tokenize tupleDefault = .ok tokens ∧
      looseExpression 14 ⟨tupleDefault.toList, ""⟩ c = .done e c' ∧
        e.text = "-f(lambda a=(0, 1): \x7ba: 1\x7d)" ∧
          ∃ passed, c.tokens = passed ++ c'.tokens ∧ BracketBalanced passed := by
  obtain ⟨tokens, htokens, hread⟩ := exists_tokens tupleDefault (fun ls =>
    match looseExpression 14 ⟨tupleDefault.toList, ""⟩ ((Cursor.first ls).advanceBy 7) with
    | .done e _ => e.text == "-f(lambda a=(0, 1): \x7ba: 1\x7d)" &&
      decide (∀ line ∈ linesOf (Cursor.first ls).tokens,
        BracketBalanced line ∧ HeadersBalanced line)
    | _ => false) (by decide +kernel)
  split at hread
  · rename_i e c' he
    simp only [Bool.and_eq_true, beq_iff_eq, decide_eq_true_eq] at hread
    refine ⟨tokens, _, e, c', htokens, he, hread.1, ?_⟩
    exact expression_balanced hread.2 ((stands_first "" htokens).advanceBy 7) (.inl he)
  · cases hread

/-- A lambda whose default is a display with a colon. -/
def displayDefault : String := "class A:\n x = lambda a=\x7b1: 2\x7d: a\n"

/-- On each line the brackets are balanced, but not those of the lambda as it is passed. -/
theorem loose_unbalanced_display :
    ∃ tokens c e c', tokenize displayDefault = .ok tokens ∧
      (∀ line ∈ linesOf (tokens.map (·.token)), BracketBalanced line) ∧
        Follows ⟨displayDefault.toList, ""⟩ (.first tokens) c ∧
          looseExpression 14 ⟨displayDefault.toList, ""⟩ c = .done e c' ∧
            e.text = "lambda a=\x7b1: 2" ∧
              ∀ passed, c.tokens = passed ++ c'.tokens → ¬BracketBalanced passed := by
  obtain ⟨tokens, htokens, hread⟩ := exists_tokens displayDefault (fun ls =>
    match looseExpression 14 ⟨displayDefault.toList, ""⟩ ((Cursor.first ls).advanceBy 7) with
    | .done e c' => e.text == "lambda a=\x7b1: 2" &&
      decide (∀ line ∈ linesOf (Cursor.first ls).tokens, BracketBalanced line) &&
        decide (¬BracketBalanced (((Cursor.first ls).advanceBy 7).tokens.take
          (((Cursor.first ls).advanceBy 7).tokens.length - c'.tokens.length)))
    | _ => false) (by decide +kernel)
  split at hread
  · rename_i e c' he
    simp only [Bool.and_eq_true, beq_iff_eq, decide_eq_true_eq] at hread
    refine ⟨tokens, _, e, c', htokens, hread.1.2, (stands_first "" htokens).advanceBy 7, he,
      hread.1.1, fun passed hpassed hbalanced => hread.2 ?_⟩
    rwa [hpassed, List.length_append, Nat.add_sub_cancel, List.take_left]
  · cases hread

end Outline
end Lineage
