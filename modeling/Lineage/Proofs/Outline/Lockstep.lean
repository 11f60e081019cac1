/-
# Two readings side by side

Two sources may agree on a stretch of both (`Parallel`): the tokens of the stretch stand as far
behind its start in the one as in the other, and the same is written there.  Behind the stretch
both sources end, or the one goes on with a semicolon where the other goes on with a `newline`.
Two places on the stretch are twins if the same of it is ahead of both (`Parallel.Twins`).

A reading follows another one if, from twins, it finds something related and ends at a twin
whenever the other ends on the stretch (`Parallel.Sim`).  A reading never goes back (`Onward`), so
one that ends on the stretch has been on it all the time, and a sequence follows a sequence whose
parts it follows (`Sim.bind`), and a loop a loop whose rounds it follows (`Sim.repeatRounds`).
-/

import Lineage.Proofs.Outline.Reading
import Lineage.Proofs.Source.Breaking

namespace Lineage
namespace Outline

open Source Reading Text

variable {α β σ τ γ : Type} {o : Origin} {c c' c'' : Cursor} {t : Token} {m d : Nat} {l l' : Lexeme}
  {ls ls' a a' : List Lexeme}

/-! ### Readings go on -/

/-- The place `c'` is reached from `c` by passing tokens. -/
def Reaches (c c' : Cursor) : Prop := ∃ n m, c' = { c.advanceBy n with made := m }

/-- The counter of the spans is kept when tokens are passed. -/
theorem advanceBy_made (n m : Nat) (c : Cursor) :
    Cursor.advanceBy n { c with made := m } = { c.advanceBy n with made := m } := by
  induction n generalizing c with
  | zero => rfl
  | succ n ih =>
    have hadvance : ({ c with made := m } : Cursor).advance = { c.advance with made := m } := by
      unfold Cursor.advance
      split <;> simp_all
    rw [Cursor.advanceBy, hadvance, ih, Cursor.advanceBy]

/-- Tokens are passed one part after the other. -/
theorem advanceBy_add (n k : Nat) (c : Cursor) : c.advanceBy (n + k) =
    (c.advanceBy n).advanceBy k := by
  induction n generalizing c with
  | zero => rw [Nat.zero_add, Cursor.advanceBy_zero]
  | succ n ih => rw [Nat.succ_add, Cursor.advanceBy, ih, Cursor.advanceBy]

/-- A place is reached from itself. -/
theorem Reaches.refl (c : Cursor) : Reaches c c := ⟨0, c.made, rfl⟩

/-- What is reached from a reached place is reached. -/
theorem Reaches.trans (h : Reaches c c') (h' : Reaches c' c'') : Reaches c c'' := by
  obtain ⟨n, m, rfl⟩ := h
  obtain ⟨n', m', rfl⟩ := h'
  exact ⟨n + n', m', by rw [advanceBy_made, advanceBy_add]⟩

/-- The place behind some of the tokens ahead is reached. -/
theorem reaches_advanceBy (n : Nat) (c : Cursor) : Reaches c (c.advanceBy n) :=
  ⟨n, (c.advanceBy n).made, rfl⟩

/-- At a reached place, an end of what was ahead is ahead. -/
theorem Reaches.suffix (h : Reaches c c') : c'.rest <:+ c.rest := by
  obtain ⟨n, m, rfl⟩ := h
  exact (Cursor.rest_advanceBy n c).symm ▸ List.drop_suffix n c.rest

/-- The reading never goes back: it ends at a place that is reached by passing tokens. -/
class Onward (x : Reading α) : Prop where
  reaches : ∀ o c, Ends .any x o c fun _ c' => Reaches c c'

/-- A reading that goes onward ends where an end of what was ahead is ahead. -/
theorem Onward.suffix {x : Reading α} (hx : Onward x) (o : Origin) (c : Cursor) :
    Ends .any x o c fun _ c' => c'.rest <:+ c.rest :=
  (hx.reaches o c).mono fun _ _ => Reaches.suffix

/-- Passing tokens leaves an end of what was ahead. -/
theorem suffix_advanceBy (n : Nat) (c : Cursor) : (c.advanceBy n).rest <:+ c.rest :=
  (reaches_advanceBy n c).suffix

section Onward

variable {x y : Reading α}

/-- A value that is there at once passes nothing. -/
instance (a : α) : Onward (pure a : Reading α) := ⟨fun _ c => Reaches.refl c⟩

/-- A sequence of readings goes onward if its parts do. -/
instance Onward.bind {f : α → Reading β} [hx : Onward x] [hf : ∀ a, Onward (f a)] :
    Onward (x >>= f) := by
  refine ⟨fun o c => ?_⟩
  rw [ends_bind]
  exact (hx.reaches o c).mono fun a c₁ h₁ => ((hf a).reaches o c₁).mono fun _ _ h₂ => h₁.trans h₂

/-- A sequence goes onward, by proofs about its parts. -/
theorem Onward.seq {f : α → Reading β} (_ : Onward x) (_ : ∀ a, Onward (f a)) :
    Onward (x >>= f) := inferInstance

/-- What is done with the value found does not matter. -/
instance {f : α → β} [Onward x] : Onward (f <$> x) :=
  inferInstanceAs (Onward (x >>= fun a => pure (f a)))

/-- A choice goes onward if both readings do. -/
instance {p : Prop} [Decidable p] [Onward x] [Onward y] : Onward (if p then x else y) := by
  split <;> infer_instance

/-- A refusal is no place. -/
instance (e : ParseError) : Onward (refuse e : Reading α) := ⟨fun _ _ => trivial⟩

/-- A defect is no place. -/
instance (d : Defect) : Onward (fault d : Reading α) := ⟨fun _ _ => trivial⟩

/-- A value that must be there is found on the spot, or is a defect. -/
instance (d : Defect) (a : Option α) : Onward (orFault d a) := by
  cases a with
  | none => exact inferInstanceAs (Onward (fault d))
  | some a => exact inferInstanceAs (Onward (pure a))

/-- Looking at the tokens ahead passes none. -/
instance : Onward ahead := ⟨fun _ c => Reaches.refl c⟩

/-- Looking at a token ahead passes none. -/
instance (n : Nat) : Onward (peekAt n) := ⟨fun _ c => Reaches.refl c⟩

/-- Looking at the next token does not pass it. -/
instance : Onward peek := inferInstanceAs (Onward (peekAt 0))

/-- The place of the next token is found without passing it. -/
instance : Onward peekPlace := ⟨fun _ c => ends_peekPlace.2 (Reaches.refl c)⟩

/-- The start of the next token is found without passing it. -/
instance : Onward peekStart := inferInstanceAs (Onward (peekPlace >>= fun _ => _))

/-- Asking for the end of the source passes nothing. -/
instance : Onward atEnd := ⟨fun _ c => Reaches.refl c⟩

/-- Comparing the next token does not pass it. -/
instance (t : Token) : Onward (check t) := inferInstanceAs (Onward (peek >>= fun _ => _))

/-- Passing tokens goes onward. -/
instance (n : Nat) : Onward (pass n) := ⟨fun _ c => reaches_advanceBy n c⟩

/-- A token that may be there is passed, or nothing is. -/
instance (t : Token) : Onward (accept t) := inferInstanceAs (Onward (check t >>= fun _ => _))

/-- What stands behind a token that may be missing is read onward. -/
instance (t : Token) (x : Reading α) [Onward x] : Onward (ifNext t x) :=
  inferInstanceAs (Onward (accept t >>= fun _ => _))

/-- A refusal of the next token is no place. -/
instance (e : Expected) : Onward (refuseNext e : Reading α) :=
  inferInstanceAs (Onward (peekPlace >>= fun _ => _))

/-- A token that must be there is passed. -/
instance (t : Token) : Onward (expect t) := inferInstanceAs (Onward (check t >>= fun _ => _))

/-- A name that must be there is passed. -/
instance : Onward expectIdentifier :=
  ⟨fun _ c => ends_expectIdentifier trivial fun _ _ => reaches_advanceBy 1 c⟩

/-- The end of what has been passed is found on the spot. -/
instance : Onward lastStop := ⟨fun _ c => Reaches.refl c⟩

/-- Asking for a line end in front passes nothing. -/
instance : Onward afterNewline := ⟨fun _ c => Reaches.refl c⟩

/-- The size of the source is found on the spot. -/
instance : Onward sourceSize := ⟨fun _ c => Reaches.refl c⟩

/-- A span is made on the spot. -/
instance (start stop : Nat) : Onward (makeSpan start stop) := ⟨fun _ c => ⟨0, c.made + 1, rfl⟩⟩

/-- The span of what has been passed is made on the spot. -/
instance (start : Nat) : Onward (spanFrom start) :=
  inferInstanceAs (Onward (lastStop >>= fun _ => _))

/-- A text of the source is found on the spot. -/
instance (start stop : Nat) : Onward (sourceText start stop) :=
  ⟨fun _ c => ends_sourceText_any.2 fun _ _ => Reaches.refl c⟩

/-- Rounds go onward if every one of them does. -/
instance (step : σ → Reading (Round σ α)) [h : ∀ s, Onward (step s)] (n : Nat) (s : σ) :
    Onward (rounds step n s) := by
  refine ⟨fun o c => ends_rounds (I := fun _ _ c' => Reaches c c')
    (fun _ _ _ => trivial) (fun _ s c' hI => ?_) (Reaches.refl c)⟩
  refine ((h s).reaches o c').mono fun r c'' hr => ?_
  cases r with
  | again s' => exact hI.trans hr
  | stop a => exact hI.trans hr

/-- A loop goes onward if every round of it does. -/
instance (step : σ → Reading (Round σ α)) [∀ s, Onward (step s)] (s : σ) :
    Onward (repeatRounds step s) :=
  ⟨fun o c => Onward.reaches (x := rounds step (c.rest.length + 1) s) o c⟩

end Onward

/-! ### Sources that agree on a stretch -/

/-- What stands behind a stretch of two sources: nothing, or a semicolon in the one and a `newline`
in the other, at the end of the stretch. -/
inductive Seam (o o' : Origin) (stop stop' : Nat) : List Lexeme → List Lexeme → Prop
  | finish (hstop : o.size = stop) (hstop' : o'.size = stop') : Seam o o' stop stop' [] []
  | broken {l l' : Lexeme} {ls ls' : List Lexeme} (hsemicolon : l.token = .semicolon)
      (hnewline : l'.token = .newline)
      (hstop : l.extent.start = stop) (hstop' : l'.extent.start = stop')
      (htokens : ls'.map (·.token) = ls.map (·.token)) : Seam o o' stop stop' (l :: ls) (l' :: ls')

/-- Behind a stretch with tokens behind it stands a semicolon. -/
theorem Seam.semicolon {o o' : Origin} {stop stop' : Nat} {b' : List Lexeme}
    (h : Seam o o' stop stop' (l :: ls) b') : l.token = .semicolon := by
  cases h
  assumption

/-- Two sources that agree on `width` bytes: behind the offset `n` of the one and behind `n'` of
the other. -/
structure Parallel (o o' : Origin) where
  n : Nat
  n' : Nat
  width : Nat
  behind : List Lexeme
  behind' : List Lexeme
  slice_eq : ∀ {i j cs}, j ≤ width → slice? o.text (n + i) (n + j) = some cs →
    slice? o'.text (n' + i) (n' + j) = some cs
  seam : Seam o o' (n + width) (n' + width) behind behind'

/-- The same token, or a semicolon and a `newline`. -/
def TwinNext (t t' : Option Token) : Prop := t' = t ∨ t = some .semicolon ∧ t' = some .newline

/-- Twins are in front of the same token unless it is a semicolon in the one source. -/
theorem TwinNext.eq_of_ne {t t' : Option Token} (h : TwinNext t t') (ht : t ≠ some .semicolon) :
    t' = t := h.resolve_right fun h => ht h.1

/-- A token that is neither of the two is next in both sources, or in neither. -/
theorem TwinNext.beq_eq {t t' : Option Token} {u : Token} (h : TwinNext t t')
    (hu : u ≠ .semicolon ∧ u ≠ .newline) : (t' == some u) = (t == some u) := by
  rcases h with rfl | ⟨rfl, rfl⟩
  · rfl
  · simp [hu.1.symm, hu.2.symm]

namespace Parallel

variable {o' : Origin} (W : Parallel o o')

/-- Offsets as far behind the start of the stretch in both sources. -/
def Offsets (i i' : Nat) : Prop := ∃ k ≤ W.width, i = W.n + k ∧ i' = W.n' + k

/-- A part of the stretch in both sources. -/
structure Located (e e' : Extent) : Prop where
  start : W.Offsets e.start e'.start
  stop : W.Offsets e.stop e'.stop

/-- A token of the stretch. -/
structure Matched (l l' : Lexeme) : Prop where
  token : l'.token = l.token
  extent : W.Located l.extent l'.extent

/-- Ends of what has been passed: the same of the stretch, if any of it. -/
def Passed (i i' : Nat) : Prop := W.Offsets i i' ∨ i ≤ W.n ∧ i' ≤ W.n'

/-- The same of the stretch is ahead. -/
structure Twins (c c' : Cursor) : Prop where
  ahead : ∃ a a', c.rest = a ++ W.behind ∧ c'.rest = a' ++ W.behind' ∧
    List.Forall₂ W.Matched a a'
  lastStop : W.Passed c.lastStop c'.lastStop

/-- The reading `y` at one place follows `x` at another one: if `x` ends on the stretch, `y` finds
something related and ends at a twin. -/
def SimAt (c c' : Cursor) (x : Reading α) (y : Reading β) (R : α → β → Prop) : Prop :=
  Ends .any x o c fun a d => W.behind <:+ d.rest →
    Ends ⟨False, False⟩ y o' c' fun a' d' => R a a' ∧ W.Twins d d'

/-- The reading `y` follows `x` from twins. -/
def Sim (x : Reading α) (y : Reading β) (R : α → β → Prop) : Prop :=
  ∀ ⦃c c'⦄, W.Twins c c' → W.SimAt c c' x y R

variable {W}

/-- What has been passed from an offset on. -/
theorem Offsets.max {i i' j j' : Nat} (h : W.Offsets i i') (hj : W.Passed j j') :
    W.Offsets (max j i) (max j' i') := by
  obtain ⟨k, hk, rfl, rfl⟩ := h
  rcases hj with ⟨m, hm, rfl, rfl⟩ | hj
  · exact ⟨Max.max m k, by omega, by omega, by omega⟩
  · exact ⟨k, hk, by omega, by omega⟩

/-- A part of the stretch reads the same in both sources. -/
theorem Located.slice_eq {e e' : Extent} {cs : List Char} (h : W.Located e e')
    (hcs : slice? o.text e.start e.stop = some cs) :
    slice? o'.text e'.start e'.stop = some cs := by
  obtain ⟨⟨i, _, hi, hi'⟩, j, hj, hj', hj''⟩ := h
  rw [hi, hj'] at hcs
  rw [hi', hj'']
  exact W.slice_eq hj hcs

/-! ### Twins -/

/-- As many tokens stand behind the stretch in both sources. -/
theorem length_behind_eq (W : Parallel o o') : W.behind.length = W.behind'.length := by
  have hseam := W.seam
  cases hbehind : W.behind <;> cases hbehind' : W.behind' <;> rw [hbehind, hbehind'] at hseam
  · cases hseam
  · cases hseam
  · cases hseam with
    | broken _ _ _ _ htokens =>
      have hlength := congrArg List.length htokens
      rw [List.length_map, List.length_map] at hlength
      rw [List.length_cons, List.length_cons, hlength]

/-- Twins have as many tokens ahead. -/
theorem Twins.length_eq (h : W.Twins c c') : c.rest.length = c'.rest.length := by
  obtain ⟨a, a', hrest, hrest', hmatched⟩ := h.ahead
  rw [hrest, hrest', List.length_append, List.length_append, hmatched.length_eq, length_behind_eq]

/-- The tokens ahead are the same but for the one behind the stretch. -/
theorem Twins.getElem? (h : W.Twins c c') (m : Nat) :
    TwinNext (c.rest[m]?.map (·.token)) (c'.rest[m]?.map (·.token)) := by
  obtain ⟨a, a', hrest, hrest', hmatched⟩ := h.ahead
  rw [hrest, hrest']
  clear hrest hrest'
  induction hmatched generalizing m with
  | nil =>
    have hseam := W.seam
    generalize W.behind = b at hseam
    generalize W.behind' = b' at hseam
    cases hseam with
    | finish => exact .inl rfl
    | broken hsemicolon hnewline _ _ htokens =>
      cases m with
      | zero => exact .inr ⟨congrArg some hsemicolon, congrArg some hnewline⟩
      | succ m =>
        left
        simp only [List.nil_append, List.getElem?_cons_succ, ← List.getElem?_map, htokens]
  | cons hl _ ih =>
    cases m with
    | zero => exact .inl (congrArg some hl.token)
    | succ m => exact ih m

/-- Twins are in front of the same token, or of the semicolon and the `newline`. -/
theorem Twins.next (h : W.Twins c c') : TwinNext c.next? c'.next? := by
  have hnext := h.getElem? 0
  rwa [← List.head?_eq_getElem?, ← List.head?_eq_getElem?] at hnext

/-- The counters of the spans do not matter for being twins. -/
theorem Twins.made (h : W.Twins c c') (m m' : Nat) :
    W.Twins { c with made := m } { c' with made := m' } := ⟨h.ahead, h.lastStop⟩

/-- Of twins, either a token of the stretch is ahead, or its end. -/
theorem Twins.cases (h : W.Twins c c') :
    (∃ l l', c.rest.head? = some l ∧ c'.rest.head? = some l' ∧ W.Matched l l' ∧
      W.Twins c.advance c'.advance) ∨ (c.rest = W.behind ∧ c'.rest = W.behind') := by
  obtain ⟨a, a', hrest, hrest', hmatched⟩ := h.ahead
  cases hmatched with
  | nil => exact .inr ⟨hrest, hrest'⟩
  | @cons l l' a a' hl hmatched =>
    refine .inl ⟨l, l', by rw [hrest]; rfl, by rw [hrest']; rfl, hl, ⟨a, a', ?_, ?_, hmatched⟩, ?_⟩
    · rw [Cursor.rest_advance, hrest]
      rfl
    · rw [Cursor.rest_advance, hrest']
      rfl
    · unfold Cursor.advance
      rw [hrest, hrest']
      simp only [List.cons_append, hl.token]
      split
      · exact h.lastStop
      · exact .inl hl.extent.stop

/-- A step on the stretch passes a token of it, or there is none left. -/
theorem Twins.cases_advance (h : W.Twins c c') (hon : W.behind <:+ c.advance.rest) :
    (∃ l l', c.rest.head? = some l ∧ c'.rest.head? = some l' ∧ W.Matched l l' ∧
      W.Twins c.advance c'.advance) ∨ (c.advance = c ∧ c'.advance = c') := by
  refine h.cases.imp_right fun ⟨hrest, hrest'⟩ => ?_
  have hlength := hon.length_le
  rw [Cursor.rest_advance, hrest, List.length_drop] at hlength
  have hnil : W.behind = [] := List.length_eq_zero_iff.1 (by omega)
  have hnil' : W.behind' = [] := List.length_eq_zero_iff.1 (by rw [← length_behind_eq, hnil]; rfl)
  exact ⟨by rw [Cursor.advance, hrest, hnil], by rw [Cursor.advance, hrest', hnil']⟩

/-- The token ahead is passed, on the stretch. -/
theorem Twins.advance (h : W.Twins c c') (hon : W.behind <:+ c.advance.rest) :
    W.Twins c.advance c'.advance := by
  rcases h.cases_advance hon with ⟨_, _, _, _, _, hadvance⟩ | ⟨hsame, hsame'⟩
  · exact hadvance
  · rw [hsame, hsame']
    exact h

/-- What has been passed of the stretch stays on it. -/
theorem Twins.offsets_advance (h : W.Twins c c') (hstop : W.Offsets c.lastStop c'.lastStop)
    (hon : W.behind <:+ c.advance.rest) : W.Offsets c.advance.lastStop c'.advance.lastStop := by
  rcases h.cases_advance hon with ⟨l, l', hl, hl', hmatched, _⟩ | ⟨hsame, hsame'⟩
  · obtain ⟨ls, hls⟩ := List.head?_eq_some_iff.1 hl
    obtain ⟨ls', hls'⟩ := List.head?_eq_some_iff.1 hl'
    unfold Cursor.advance
    rw [hls, hls']
    simp only [hmatched.token]
    split
    · exact hstop
    · exact hmatched.extent.stop
  · rwa [hsame, hsame']

/-- Twins stay so when both pass as many tokens, up to the end of the stretch. -/
theorem Twins.advanceBy (h : W.Twins c c') (hon : W.behind <:+ (c.advanceBy m).rest) :
    W.Twins (c.advanceBy m) (c'.advanceBy m) := by
  induction m generalizing c c' with
  | zero => exact h
  | succ m ih => exact ih (h.advance (hon.trans (suffix_advanceBy m c.advance))) hon

/-- What has been passed ends as far behind the start of the stretch in both sources when as many
tokens are passed. -/
theorem Twins.offsets_advanceBy (h : W.Twins c c') (hstop : W.Offsets c.lastStop c'.lastStop)
    (hon : W.behind <:+ (c.advanceBy m).rest) :
    W.Offsets (c.advanceBy m).lastStop (c'.advanceBy m).lastStop := by
  induction m generalizing c c' with
  | zero => exact hstop
  | succ m ih =>
    have hon' := hon.trans (suffix_advanceBy m c.advance)
    exact ih (h.advance hon') (h.offsets_advance hstop hon') hon

/-- A token that is ahead on the stretch is the same. -/
theorem Twins.matched_of_next (h : W.Twins c c') (hnext : c.next? = some t) (ht : t ≠ .semicolon) :
    ∃ l l', c.rest.head? = some l ∧ c'.rest.head? = some l' ∧ W.Matched l l' ∧
      W.Twins c.advance c'.advance := by
  refine h.cases.resolve_right fun ⟨hrest, _⟩ => ?_
  obtain ⟨l, ls, hls, rfl⟩ := Cursor.next?_eq_some_iff.1 hnext
  have hseam := W.seam
  rw [← hrest, hls] at hseam
  exact ht hseam.semicolon

/-- A token that is ahead on the stretch can be passed. -/
theorem Twins.advance_of_next (h : W.Twins c c') (hnext : c.next? = some t) (ht : t ≠ .semicolon) :
    c'.next? = some t ∧ W.Twins c.advance c'.advance := by
  refine ⟨(h.next.eq_of_ne (by simp [hnext, ht])).trans hnext, ?_⟩
  obtain ⟨_, _, _, _, _, hadvance⟩ := h.matched_of_next hnext ht
  exact hadvance

/-- The place of the token ahead. -/
theorem Twins.place (h : W.Twins c c') : W.Offsets (c.place o).start (c'.place o').start := by
  rcases h.cases with ⟨l, l', hl, hl', hmatched, _⟩ | ⟨hrest, hrest'⟩
  · obtain ⟨ls, hls⟩ := List.head?_eq_some_iff.1 hl
    obtain ⟨ls', hls'⟩ := List.head?_eq_some_iff.1 hl'
    rw [Cursor.place, Cursor.place, hls, hls']
    exact hmatched.extent.start
  · have hseam := W.seam
    rw [← hrest, ← hrest'] at hseam
    refine ⟨W.width, Nat.le_refl _, ?_⟩
    unfold Cursor.place
    generalize c.rest = b at hseam
    generalize c'.rest = b' at hseam
    cases hseam with
    | finish hstop hstop' => exact ⟨hstop, hstop'⟩
    | broken _ _ hstop hstop' => exact ⟨hstop, hstop'⟩

/-! ### Sequences and loops -/

variable {x : Reading α} {y : Reading β} {R : α → β → Prop} {S : σ → τ → Prop}
  {f : α → Reading σ} {g : β → Reading τ}

/-- **A sequence follows a sequence if its parts do.** -/
theorem Sim.bind_of (hx : W.Sim x y R) (hf : ∀ a, Onward (f a))
    (h : ∀ a a', R a a' → W.Sim (f a) (g a') S) : W.Sim (x >>= f) (y >>= g) S := by
  intro c c' hc
  rw [SimAt, ends_bind]
  refine (hx hc).mono fun a d hd => ((hf a).suffix o d).found.mono
    fun b d₂ ⟨hdone, hsuffix⟩ hon => ?_
  rw [ends_bind]
  refine (hd (hon.trans hsuffix)).mono fun a' d' hrelated => ?_
  exact (ends_iff_of_done hdone).1 (h a a' hrelated.1 hrelated.2) hon

/-- A sequence follows a sequence if its parts do and go onward. -/
theorem Sim.bind [hf : ∀ a, Onward (f a)] (hx : W.Sim x y R)
    (h : ∀ a a', R a a' → W.Sim (f a) (g a') S) : W.Sim (x >>= f) (y >>= g) S :=
  hx.bind_of hf h

/-- Related values follow each other. -/
theorem sim_pure {a : α} {a' : β} (h : R a a') : W.Sim (pure a) (pure a') R :=
  fun _ _ hc _ => ⟨h, hc⟩

/-- What is found may be related less closely. -/
theorem Sim.mono {R' : α → β → Prop} (h : W.Sim x y R) (himp : ∀ a a', R a a' → R' a a') :
    W.Sim x y R' := fun _ _ hc =>
  (h hc).mono fun _ _ hd hon => (hd hon).mono fun _ _ hr => ⟨himp _ _ hr.1, hr.2⟩

/-- A choice that both make alike follows if its branches do. -/
theorem Sim.ite {p : Prop} [Decidable p] {x' : Reading α} {y' : Reading β}
    (h : p → W.Sim x y R) (h' : ¬p → W.Sim x' y' R) :
    W.Sim (if p then x else x') (if p then y else y') R := by
  split
  · exact h ‹_›
  · exact h' ‹_›

/-- A refusal is followed by any reading. -/
theorem sim_refuse {e : ParseError} : W.Sim (refuse e) y R := fun _ _ _ => trivial

/-- A refusal of the next token is followed by any reading. -/
theorem sim_refuseNext {e : Expected} : W.Sim (refuseNext e) y R := fun _ _ _ =>
  ends_refuseNext.2 trivial

/-- A defect is followed by any reading. -/
theorem sim_fault {d : Defect} : W.Sim (fault d) y R := fun _ _ _ => trivial

/-- Rounds that are both the last ones, or both not. -/
inductive Rounds {α β σ τ : Type} (S : σ → τ → Prop) (R : α → β → Prop) :
    Round σ α → Round τ β → Prop
  | again {s : σ} {s' : τ} (h : S s s') : Rounds S R (.again s) (.again s')
  | stop {a : α} {a' : β} (h : R a a') : Rounds S R (.stop a) (.stop a')

/-- Rounds follow rounds if each follows each. -/
theorem Sim.rounds {step : σ → Reading (Round σ α)} {step' : τ → Reading (Round τ β)}
    [∀ s, Onward (step s)] (h : ∀ s s', S s s' → W.Sim (step s) (step' s') (Rounds S R))
    (n : Nat) {s : σ} {s' : τ} (hs : S s s') :
    W.Sim (rounds step n s) (rounds step' n s') R := by
  induction n generalizing s s' with
  | zero => exact fun _ _ _ => trivial
  | succ n ih =>
    refine (h s s' hs).bind_of (fun r => by cases r <;> infer_instance) fun r r' hr => ?_
    cases hr with
    | again hs' => exact ih hs'
    | stop hr => exact sim_pure hr

/-- **A loop follows a loop if its rounds do.** -/
theorem Sim.repeatRounds {step : σ → Reading (Round σ α)} {step' : τ → Reading (Round τ β)}
    [∀ s, Onward (step s)]
    (h : ∀ s s', S s s' → W.Sim (step s) (step' s') (Rounds S R)) {s : σ} {s' : τ} (hs : S s s') :
    W.Sim (Reading.repeatRounds step s) (Reading.repeatRounds step' s') R := by
  intro c c' hc
  have hrounds := Sim.rounds h (c.rest.length + 1) hs hc
  unfold SimAt Ends at hrounds ⊢
  simpa only [Reading.repeatRounds, hc.length_eq] using hrounds

/-- Whatever is found. -/
abbrev Anything {α β : Type} (_ : α) (_ : β) : Prop := True

/-! ### Single readings -/

/-- The token some places ahead is the same, or the two of the break. -/
theorem sim_peekAt (n : Nat) : W.Sim (peekAt n) (peekAt n) TwinNext := fun _ _ hc _ =>
  ⟨hc.getElem? n, hc⟩

/-- The next token is the same, or the two of the break. -/
theorem sim_peek : W.Sim peek peek TwinNext := sim_peekAt 0

/-- The token ahead decides how a reading goes on. -/
theorem simAt_peek {f : Option Token → Reading α} {g : Option Token → Reading β} :
    W.SimAt c c' (peek >>= f) (peek >>= g) R ↔ W.SimAt c c' (f c.next?) (g c'.next?) R := by
  simp only [SimAt, ends_bind, ends_peek]

/-- Behind the start of the next token, each reading goes on from the start in its own source. -/
theorem simAt_peekStart {f : Nat → Reading α} {g : Nat → Reading β} :
    W.SimAt c c' (peekStart >>= f) (peekStart >>= g) R ↔
      W.SimAt c c' (f (c.place o).start) (g (c'.place o').start) R := by
  simp only [SimAt, ends_bind, ends_peekStart]

/-- The next token starts as far behind the start of the stretch in both sources. -/
theorem sim_peekStart : W.Sim peekStart peekStart W.Offsets := fun _ _ hc => by
  simpa only [SimAt, ends_peekStart] using fun _ => ⟨hc.place, hc⟩

/-- A comparison of the next token comes out the same, but for the two of the break. -/
theorem sim_check (ht : t ≠ .semicolon ∧ t ≠ .newline) :
    W.Sim (check t) (check t) Eq := fun _ _ hc => by
  simpa only [SimAt, ends_check] using fun _ => ⟨(hc.next.beq_eq ht).symm, hc⟩

/-- The end of one source is the end of the other. -/
theorem sim_atEnd : W.Sim atEnd atEnd Eq := fun c c' hc => by
  refine fun _ => ⟨?_, hc⟩
  have hlength := hc.length_eq
  cases hrest : c.rest <;> cases hrest' : c'.rest <;> simp_all

/-- As many tokens are passed in both sources. -/
theorem sim_pass (n : Nat) : W.Sim (pass n) (pass n) Anything := fun _ _ hc hon =>
  ⟨trivial, hc.advanceBy hon⟩

/-- A token is accepted in both sources or in neither, but for the two of the break. -/
theorem sim_accept (ht : t ≠ .semicolon ∧ t ≠ .newline) :
    W.Sim (accept t) (accept t) Eq := by
  refine (sim_check ht).bind fun b b' hb => ?_
  subst hb
  exact Sim.ite (fun _ => (sim_pass 1).bind fun _ _ _ => sim_pure rfl) fun _ => sim_pure rfl

/-- What may stand behind a token is read in both sources or in neither. -/
theorem sim_ifNext [Onward x] (ht : t ≠ .semicolon ∧ t ≠ .newline) (hx : W.Sim x y R) :
    W.Sim (ifNext t x) (ifNext t y) (Option.Rel R) := by
  refine (sim_accept ht).bind fun b b' hb => ?_
  subst hb
  exact Sim.ite (fun _ => hx.bind fun a a' ha => sim_pure (.some ha)) fun _ => sim_pure .none

/-- A token that must be there is there in both sources, but for the semicolon. -/
theorem sim_expect (ht : t ≠ .semicolon) : W.Sim (expect t) (expect t) Anything :=
  fun c c' hc => by
    rw [SimAt, ends_expect]
    refine ⟨fun hnext _ => ?_, fun _ => trivial⟩
    obtain ⟨hnext', hadvance⟩ := hc.advance_of_next hnext ht
    exact ends_expect.2 ⟨fun _ => ⟨trivial, hadvance⟩, fun hnot => absurd hnext' hnot⟩

/-- The same name is read in both sources. -/
theorem sim_expectIdentifier : W.Sim expectIdentifier expectIdentifier Eq := fun c c' hc => by
  refine ends_expectIdentifier trivial fun text hnext _ => ?_
  obtain ⟨hnext', hadvance⟩ := hc.advance_of_next hnext (by simp)
  simp only [expectIdentifier, ends_bind, ends_peek, hnext', ends_pass, ends_pure]
  exact ⟨trivial, hadvance⟩

/-- An expression ends at the next token of both sources, or of neither. -/
theorem sim_atExpressionEnd : W.Sim atExpressionEnd atExpressionEnd Eq := fun c c' hc => by
  simp only [SimAt, ends_atExpressionEnd]
  refine fun _ => ⟨?_, hc⟩
  rcases hc.next with h | ⟨h, h'⟩
  · rw [h]
  · rw [h, h']
    rfl

/-- What has been passed ends alike in both sources. -/
theorem sim_lastStop : W.Sim lastStop lastStop W.Passed := fun _ _ hc _ => ⟨hc.lastStop, hc⟩

/-- A span is made in both sources. -/
theorem sim_makeSpan (i j i' j' : Nat) :
    W.Sim (makeSpan i j) (makeSpan i' j') Anything := fun _ _ hc _ =>
  ⟨trivial, hc.made _ _⟩

/-- The span of what has been passed is made in both sources. -/
theorem sim_spanFrom (i i' : Nat) : W.Sim (spanFrom i) (spanFrom i') Anything :=
  fun _ _ hc _ => ⟨trivial, hc.made _ _⟩

/-- The text of a part of the stretch is the same. -/
theorem sim_sourceText {i j i' j' : Nat} (h : W.Located ⟨i, j⟩ ⟨i', j'⟩) :
    W.Sim (sourceText i j) (sourceText i' j') Eq := fun c c' hc => by
  rw [SimAt, ends_sourceText_any]
  intro cs hcs _
  have hcs' := h.slice_eq hcs
  unfold Ends sourceText
  rw [hcs']
  exact ⟨rfl, hc⟩

/-! ### Runs of tokens -/

/-- Lists that are related element by element have related elements at every place. -/
theorem exists_getElem?_of_forall₂ {R : Lexeme → Lexeme → Prop} (h : List.Forall₂ R a a')
    (hm : a[m]? = some l) : ∃ l', a'[m]? = some l' ∧ R l l' := by
  induction h generalizing m with
  | nil => cases hm
  | cons hl _ ih =>
    cases m with
    | zero =>
      obtain rfl := Option.some.inj hm
      exact ⟨_, rfl, hl⟩
    | succ m => exact ih hm

/-- At the end of the stretch nothing of it is left to pass. -/
theorem eq_zero_of_seam {o o' : Origin} {stop stop' : Nat} {b b' : List Lexeme}
    (h : Seam o o' stop stop' b b') (hon : b <:+ b.drop m) : b = [] ∧ b' = [] ∨ m = 0 := by
  cases h with
  | finish => exact .inl ⟨rfl, rfl⟩
  | broken =>
    right
    have hlength := hon.length_le
    simp only [List.length_drop, List.length_cons] at hlength
    omega

/-- An expression of no modelled shape that ends on the stretch is as long in both sources. -/
theorem looseLength?_matched {header : Bool} (h : List.Forall₂ W.Matched a a')
    (hm : looseLength? d header (a ++ W.behind) = some m)
    (hon : W.behind <:+ (a ++ W.behind).drop m) :
    looseLength? d header (a' ++ W.behind') = some m := by
  induction h generalizing d header m with
  | nil =>
    rw [List.nil_append] at hm hon ⊢
    have hseam := W.seam
    rcases eq_zero_of_seam hseam hon with ⟨hnil, hnil'⟩ | rfl
    · rw [hnil']
      rwa [hnil] at hm
    · generalize W.behind = b at hm hseam
      generalize W.behind' = b' at hseam ⊢
      cases hseam with
      | finish => exact hm
      | broken _ hnewline => exact if_pos (by rw [hnewline]; rfl)
  | @cons l l' a a' hl hmatched ih =>
    rw [List.cons_append] at hm hon ⊢
    have hstep : ∀ {e next}, (looseLength? e next (a ++ W.behind)).map (· + 1) = some m →
        (looseLength? e next (a' ++ W.behind')).map (· + 1) = some m := by
      intro e next hm
      obtain ⟨m, hm', rfl⟩ := Option.map_eq_some_iff.1 hm
      rw [ih hm' hon, Option.map_some]
    unfold looseLength? at hm ⊢
    rw [hl.token]
    cases d with
    | zero =>
      dsimp only at hm ⊢
      split_ifs at hm ⊢ <;> first | exact hm | exact hstep hm
    | succ d =>
      dsimp only at hm ⊢
      split_ifs at hm ⊢ <;> first | exact hm | exact hstep hm

/-- A group that ends on the stretch is as long in both sources. -/
theorem group?_matched {g : Group} (h : List.Forall₂ W.Matched a a')
    (hg : group? d (a ++ W.behind) = some g)
    (hon : W.behind <:+ (a ++ W.behind).drop g.length) :
    group? d (a' ++ W.behind') = some g := by
  induction h generalizing d g with
  | nil =>
    rw [List.nil_append] at hg hon ⊢
    have hseam := W.seam
    rcases eq_zero_of_seam hseam hon with ⟨hnil, hnil'⟩ | hzero
    · rw [hnil']
      rwa [hnil] at hg
    · generalize W.behind = b at hg hseam
      generalize W.behind' = b' at hseam ⊢
      cases hseam with
      | finish => exact hg
      | broken hsemicolon hnewline =>
        -- a semicolon belongs to a group
        unfold group? at hg
        rw [hsemicolon] at hg
        obtain ⟨g', _, rfl⟩ := Option.map_eq_some_iff.1 (show Option.map Group.grow _ = _ from hg)
        cases hzero
  | @cons l l' a a' hl hmatched ih =>
    rw [List.cons_append] at hg hon ⊢
    have hstep : ∀ {e}, (group? e (a ++ W.behind)).map Group.grow = some g →
        (group? e (a' ++ W.behind')).map Group.grow = some g := by
      intro e hg
      obtain ⟨g, hg', rfl⟩ := Option.map_eq_some_iff.1 hg
      rw [ih hg' hon, Option.map_some]
    unfold group? at hg ⊢
    rw [hl.token]
    split_ifs at hg ⊢
    · exact hstep hg
    · rcases d with _ | _ | d
      · exact hg
      · exact hg
      · exact hstep hg
    · exact hg
    · exact hstep hg

/-- A group that is closed has a closing bracket. -/
theorem length_pos_of_group? {g : Group} (hg : group? d ls = some g) (hclosed : g.closed = true) :
    0 < g.length := by
  cases ls with
  | nil =>
    obtain rfl := Option.some.inj hg
    cases hclosed
  | cons l ls =>
    have hgrow : ∀ {r : Option Group}, r.map Group.grow = some g → 0 < g.length := by
      intro r hr
      obtain ⟨g, _, rfl⟩ := Option.map_eq_some_iff.1 hr
      exact Nat.succ_pos _
    unfold group? at hg
    split_ifs at hg
    · exact hgrow hg
    · rcases d with _ | _ | d
      · cases hg
      · obtain rfl := Option.some.inj hg
        exact Nat.one_pos
      · exact hgrow hg
    · obtain rfl := Option.some.inj hg
      cases hclosed
    · exact hgrow hg

/-- As many string literals are ahead in both sources. -/
theorem stringCount_matched (h : List.Forall₂ W.Matched a a') :
    stringCount (a' ++ W.behind') = stringCount (a ++ W.behind) := by
  unfold stringCount
  induction h with
  | nil =>
    rw [List.nil_append, List.nil_append]
    have hseam := W.seam
    generalize W.behind = b at hseam
    generalize W.behind' = b' at hseam
    cases hseam with
    | finish => rfl
    | broken hsemicolon hnewline =>
      rw [List.takeWhile_cons_of_neg (by rw [hnewline]; decide),
        List.takeWhile_cons_of_neg (by rw [hsemicolon]; decide)]
  | @cons l l' a a' hl hmatched ih =>
    rw [List.cons_append, List.cons_append, List.takeWhile_cons, List.takeWhile_cons, hl.token]
    split
    · simp [ih]
    · rfl

/-- Matched literals have the same joined value. -/
theorem joinLiterals?_matched (h : List.Forall₂ W.Matched a a') :
    joinLiterals? a' = joinLiterals? a := by
  induction h with
  | nil => rfl
  | cons hl _ ih => rw [joinLiterals?, joinLiterals?, hl.token, ih]

/-- The tokens that are passed on the stretch are the same. -/
theorem take_matched (h : List.Forall₂ W.Matched a a')
    (hon : W.behind <:+ (a ++ W.behind).drop m) :
    List.Forall₂ W.Matched ((a ++ W.behind).take m) ((a' ++ W.behind').take m) := by
  by_cases hm : m ≤ a.length
  · rw [List.take_append_of_le_length hm, List.take_append_of_le_length (h.length_eq ▸ hm)]
    exact List.forall₂_take m h
  · have hlength := hon.length_le
    rw [List.length_drop, List.length_append] at hlength
    have hnil : W.behind = [] := List.length_eq_zero_iff.1 (by omega)
    have hnil' : W.behind' = [] := List.length_eq_zero_iff.1 (by rw [← length_behind_eq, hnil]; rfl)
    rw [hnil, hnil', List.append_nil, List.append_nil]
    exact List.forall₂_take m h

/-- The tokens ahead are matched, up to the end of the stretch. -/
theorem sim_ahead : W.Sim ahead ahead fun ls ls' => ∃ a a', ls = a ++ W.behind ∧
    ls' = a' ++ W.behind' ∧ List.Forall₂ W.Matched a a' := fun _ _ hc _ => ⟨hc.ahead, hc⟩

/-- String literals are passed in both sources, with the same value. -/
theorem sim_passStrings (n : Nat) : W.Sim (passStrings n) (passStrings n) Eq := fun c c' hc => by
  obtain ⟨a, a', hrest, hrest', hmatched⟩ := hc.ahead
  simp only [SimAt, passStrings, ends_bind, ends_ahead, ends_orFault_any, ends_pass, ends_pure]
  intro value hvalue hon
  have htake : joinLiterals? (c'.rest.take n) = some value := by
    rw [hrest']
    rw [hrest] at hvalue
    rw [Cursor.rest_advanceBy, hrest] at hon
    rw [joinLiterals?_matched (take_matched hmatched hon), hvalue]
  rw [htake]
  exact ⟨rfl, hc.advanceBy hon⟩

/-- The token ahead begins a group that ends on the stretch. -/
theorem Twins.located (h : W.Twins c c') {g : Group} (hg : group? d c.rest = some g)
    (hon : W.behind <:+ c.rest.drop g.length) : W.Located (c.place o) (c'.place o') := by
  rcases h.cases with ⟨l, l', hl, hl', hmatched, _⟩ | ⟨hrest, hrest'⟩
  · obtain ⟨ls, hls⟩ := List.head?_eq_some_iff.1 hl
    obtain ⟨ls', hls'⟩ := List.head?_eq_some_iff.1 hl'
    rw [Cursor.place, Cursor.place, hls, hls']
    exact hmatched.extent
  · have hseam := W.seam
    rw [hrest] at hg hon
    unfold Cursor.place
    rw [hrest, hrest']
    generalize W.behind = b at hseam hg hon
    generalize W.behind' = b' at hseam
    cases hseam with
    | finish hstop hstop' =>
      have hend : W.Offsets o.size o'.size := ⟨W.width, Nat.le_refl _, hstop, hstop'⟩
      exact ⟨hend, hend⟩
    | broken hsemicolon =>
      have hlength := hon.length_le
      unfold group? at hg
      rw [hsemicolon] at hg
      obtain ⟨g', _, rfl⟩ := Option.map_eq_some_iff.1 (show Option.map Group.grow _ = _ from hg)
      rw [List.length_drop, List.length_cons, Group.grow] at hlength
      dsimp only at hlength
      omega

/-- A group that ends on the stretch is passed in both sources. -/
theorem ends_passGroup_twins (hc : W.Twins c c') : Ends .any passGroup o c fun e d =>
    W.behind <:+ d.rest → Ends ⟨False, False⟩ passGroup o' c' fun e' d' => W.Located e e' ∧
      ∃ g, group? 0 c.rest = some g ∧ d = c.advanceBy g.length ∧ d' = c'.advanceBy g.length := by
  obtain ⟨a, a', hrest, hrest', hmatched⟩ := hc.ahead
  simp only [passGroup, ends_bind, ends_ahead, ends_peekPlace, ends_orFault_any, ends_pass,
    ends_ite]
  intro g hg
  have hbehind : W.behind <:+ (c.advanceBy g.length).rest → group? 0 c'.rest = some g ∧
      W.Located (c.place o) (c'.place o') := by
    intro hon
    rw [Cursor.rest_advanceBy] at hon
    refine ⟨?_, hc.located hg hon⟩
    rw [hrest] at hg hon
    exact hrest' ▸ group?_matched hmatched hg hon
  split
  · rename_i hclosed
    split
    · rename_i l hl
      intro hon
      obtain ⟨hg', hplace⟩ := hbehind hon
      have hpos := length_pos_of_group? hg hclosed
      rw [Cursor.rest_advanceBy, hrest] at hon
      -- the closing bracket is the last token that is passed
      have hlast : ((a ++ W.behind).take g.length)[g.length - 1]? = some l := by
        rw [List.getElem?_take_of_lt (Nat.sub_lt hpos Nat.one_pos), ← hrest]
        exact hl
      obtain ⟨l', hl', hsame⟩ := exists_getElem?_of_forall₂ (take_matched hmatched hon) hlast
      rw [List.getElem?_take_of_lt (Nat.sub_lt hpos Nat.one_pos), ← hrest'] at hl'
      rw [← hrest, ← Cursor.rest_advanceBy] at hon
      rw [hg', ends_orFault_some, if_pos hclosed, hl']
      exact ⟨⟨hplace.stop, hsame.extent.start⟩, g, hg, rfl, rfl⟩
    · trivial
  · rename_i hclosed
    simp only [ends_lastStop, ends_pure]
    intro hon
    obtain ⟨hg', hplace⟩ := hbehind hon
    rw [hg', ends_orFault_some, if_neg hclosed]
    exact ⟨⟨hplace.stop, hplace.stop.max (hc.advanceBy hon).lastStop⟩, g, hg, rfl, rfl⟩

/-- A group in brackets is a part of the stretch in both sources. -/
theorem sim_passGroup : W.Sim passGroup passGroup W.Located := fun _ _ hc =>
  (ends_passGroup_twins hc).mono fun _ _ hd hon => (hd hon).mono
    fun _ _ ⟨hlocated, _, _, hat, hat'⟩ =>
    ⟨hlocated, hat' ▸ hat ▸ hc.advanceBy (hat ▸ hon)⟩

end Parallel
end Outline
end Lineage
