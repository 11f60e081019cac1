/-
# How a reading ends

`Ends w x o c Q` says of the reading `x` at the place `c`: if it finds a value, then `Q`
holds of the value and of the place behind it, and no other ending occurs than `w` allows.
With `.safe` for `w` this is the absence of defects, with `.any` it is a statement about
what is found only.  The reading of a sequence ends as its parts do (`ends_bind`), so a
statement about a reading is taken apart by `simp` down to the readings it calls.  A loop
ends well if every round keeps an invariant and passes a token (`ends_repeatRounds`).
-/

import Lineage.Outline.Definition

namespace Lineage
namespace Outline

open Source

variable {α β σ : Type} {o : Origin} {c : Cursor} {t : Token} {n : Nat}

/-! ### Places -/

namespace Cursor

/-- The token ahead. -/
def next? (c : Cursor) : Option Token := c.rest.head?.map (·.token)

/-- The place of the token ahead, or the end of the source. -/
def place (o : Origin) (c : Cursor) : Extent :=
  match c.rest with
  | l :: _ => l.extent
  | [] => .point o.size

/-- A token is next if it is that of the first lexeme ahead. -/
theorem next?_eq_some_iff : c.next? = some t ↔ ∃ l ls, c.rest = l :: ls ∧ l.token = t := by
  unfold next?
  cases h : c.rest <;> simp

/-- No token is next where no lexeme is ahead. -/
@[simp] theorem next?_eq_none_iff : c.next? = none ↔ c.rest = [] := by
  unfold next?
  cases h : c.rest <;> simp

/-- Before the end there is a token ahead. -/
theorem exists_next? (h : ¬c.rest.isEmpty = true) : ∃ t, c.next? = some t := by
  cases hrest : c.rest with
  | nil => exact absurd (by rw [hrest]; rfl) h
  | cons l ls => exact ⟨l.token, next?_eq_some_iff.2 ⟨l, ls, hrest, rfl⟩⟩

/-- Behind some of the tokens ahead, the one after them is next. -/
theorem next?_advanceBy : (c.advanceBy n).next? = c.rest[n]?.map (·.token) := by
  rw [next?, rest_advanceBy, List.head?_drop]

/-- Passing no tokens keeps the place. -/
@[simp] theorem advanceBy_zero : advanceBy 0 c = c := rfl

/-- One token is passed. -/
@[simp] theorem advanceBy_one : advanceBy 1 c = c.advance := rfl

/-- Two tokens are passed, one after the other. -/
@[simp] theorem advanceBy_two : advanceBy 2 c = c.advance.advance := rfl

/-- Three tokens are passed, one after the other. -/
@[simp] theorem advanceBy_three : advanceBy 3 c = c.advance.advance.advance := rfl

/-- Passing a token leaves fewer ahead. -/
theorem length_advance_lt (h : c.next? = some t) : c.advance.rest.length < c.rest.length := by
  obtain ⟨l, ls, hrest, _⟩ := next?_eq_some_iff.1 h
  simp [hrest]

end Cursor

/-! ### Endings -/

namespace Reading

/-- Readings are a lawful monad: a value returned changes nothing, and sequences associate. -/
instance : LawfulMonad Reading := by
  refine LawfulMonad.mk' Reading (fun x => ?_) (fun _ _ => rfl) (fun x _ _ => ?_)
  · funext o c
    show (match x o c with
      | .done a c' => .done a c'
      | .refused e n => .refused e n
      | .defect d => .defect d) = x o c
    cases x o c <;> rfl
  · funext o c
    simp only [bind_apply]
    cases x o c <;> rfl

/-- The endings that are allowed besides a value. -/
structure Endings where
  refused : Prop
  defect : Prop

/-- A refusal is allowed, and a defect is not. -/
def Endings.safe : Endings := ⟨True, False⟩

/-- A defect is allowed, and a refusal is not. -/
def Endings.accepted : Endings := ⟨False, True⟩

/-- Every ending is allowed. -/
def Endings.any : Endings := ⟨True, True⟩

/-- Of the safe endings, a refusal is one. -/
@[simp] theorem Endings.refused_safe : Endings.safe.refused := trivial

/-- A refusal is allowed where every ending is. -/
@[simp] theorem Endings.refused_any : Endings.any.refused := trivial

variable {w : Endings} {x : Reading α} {f : α → Reading β} {Q Q' : α → Cursor → Prop}

/-- The reading ends with a value for which `Q` holds, or as `w` allows. -/
def Ends (w : Endings) (x : Reading α) (o : Origin) (c : Cursor) (Q : α → Cursor → Prop) : Prop :=
  match x o c with
  | .done a c' => Q a c'
  | .refused _ _ => w.refused
  | .defect _ => w.defect

/-- What holds of the value may be weakened. -/
theorem Ends.mono (h : Ends w x o c Q) (himp : ∀ a c', Q a c' → Q' a c') : Ends w x o c Q' := by
  unfold Ends at h ⊢
  cases hx : x o c with
  | done a c' =>
    rw [hx] at h
    exact himp a c' h
  | refused e n =>
    rw [hx] at h
    exact h
  | defect d =>
    rw [hx] at h
    exact h

/-- A reading that is safe ends as is allowed wherever refusals are. -/
theorem Ends.of_safe (h : Ends .safe x o c Q) (hw : w.refused) : Ends w x o c Q := by
  unfold Ends at h ⊢
  cases hx : x o c with
  | done a c' =>
    rw [hx] at h
    exact h
  | refused e n => exact hw
  | defect d =>
    rw [hx] at h
    exact h.elim

/-- Two statements about what is found are one. -/
theorem Ends.and (h : Ends w x o c Q) (h' : Ends w x o c Q') :
    Ends w x o c fun a c' => Q a c' ∧ Q' a c' := by
  unfold Ends at h h' ⊢
  cases hx : x o c with
  | done a c' =>
    rw [hx] at h h'
    exact ⟨h, h'⟩
  | refused e n =>
    rw [hx] at h
    exact h
  | defect d =>
    rw [hx] at h
    exact h

/-- If the value is known, the reading ends with it. -/
theorem ends_iff_of_done {a : α} {c' : Cursor} (hx : x o c = .done a c') :
    Ends w x o c Q ↔ Q a c' := by
  unfold Ends
  rw [hx]

/-- What is found is the value of the reading. -/
theorem Ends.found (h : Ends w x o c Q) :
    Ends w x o c fun a c' => x o c = .done a c' ∧ Q a c' := by
  cases hx : x o c with
  | done a c' => exact (ends_iff_of_done hx).2 ⟨rfl, (ends_iff_of_done hx).1 h⟩
  | refused e n =>
    unfold Ends at h ⊢
    rw [hx] at h ⊢
    exact h
  | defect d =>
    unfold Ends at h ⊢
    rw [hx] at h ⊢
    exact h

/-- A reading without refusals and without defects finds a value. -/
theorem Ends.exists_done (hsafe : Ends .safe x o c Q)
    (haccepted : Ends .accepted x o c fun _ _ => True) :
    ∃ a c', x o c = .done a c' := by
  unfold Ends at hsafe haccepted
  cases hx : x o c with
  | done a c' => exact ⟨a, c', rfl⟩
  | refused e n =>
    rw [hx] at haccepted
    exact haccepted.elim
  | defect d =>
    rw [hx] at hsafe
    exact hsafe.elim

/-- A reading that is to end with a value does so. -/
theorem exists_done_of_ends (h : Ends ⟨False, False⟩ x o c Q) :
    ∃ a d, x o c = .done a d ∧ Q a d := by
  unfold Ends at h
  cases hx : x o c with
  | done a d =>
    rw [hx] at h
    exact ⟨a, d, rfl, h⟩
  | refused e m =>
    rw [hx] at h
    exact h.elim
  | defect e =>
    rw [hx] at h
    exact h.elim

/-- What is found, and where, is an ending. -/
theorem done_iff_ends {a : α} {d : Cursor} :
    x o c = .done a d ↔ Ends ⟨False, False⟩ x o c fun b e => b = a ∧ e = d := by
  refine ⟨fun h => (ends_iff_of_done h).2 ⟨rfl, rfl⟩, fun h => ?_⟩
  obtain ⟨_, _, hdone, rfl, rfl⟩ := exists_done_of_ends h
  exact hdone

/-- Where every ending is allowed, what holds of every value holds at the end. -/
theorem ends_any (h : ∀ a c', Q a c') : Ends .any x o c Q := by
  unfold Ends
  cases x o c with
  | done a c' => exact h a c'
  | refused e n => trivial
  | defect d => trivial

/-- What a reading finds, it ends with. -/
theorem ends_done : Ends .any x o c fun a d => x o c = .done a d :=
  (ends_any (Q := fun _ _ => True) fun _ _ => trivial).found.mono fun _ _ => And.left

/-- A value that is there at once is found where the reading begins. -/
@[simp] theorem ends_pure {a : α} {Q : α → Cursor → Prop} :
    Ends w (pure a) o c Q ↔ Q a c := Iff.rfl

/-- **A sequence ends as its parts do.** -/
@[simp] theorem ends_bind {Q : β → Cursor → Prop} :
    Ends w (x >>= f) o c Q ↔ Ends w x o c fun a c' => Ends w (f a) o c' Q := by
  unfold Ends
  rw [bind_apply]
  cases x o c <;> rfl

/-- What is done with the value is done behind the reading. -/
@[simp] theorem ends_map {g : α → β} {Q : β → Cursor → Prop} :
    Ends w (g <$> x) o c Q ↔ Ends w x o c fun a c' => Q (g a) c' := ends_bind

/-- A choice ends as the reading that is chosen. -/
@[simp] theorem ends_ite {p : Prop} [Decidable p] {y : Reading α} :
    Ends w (if p then x else y) o c Q ↔ if p then Ends w x o c Q else Ends w y o c Q := by
  split <;> rfl

/-- A refusal is an ending of its own. -/
@[simp] theorem ends_refuse {e : ParseError} : Ends w (refuse e) o c Q ↔ w.refused := Iff.rfl

/-- A defect is an ending of its own. -/
@[simp] theorem ends_fault {d : Defect} : Ends w (fault d) o c Q ↔ w.defect := Iff.rfl

/-- A value that is there is found. -/
@[simp] theorem ends_orFault_some {d : Defect} {a : α} :
    Ends w (orFault d (some a)) o c Q ↔ Q a c := Iff.rfl

/-- A value that must be there is found, or is a defect. -/
theorem ends_orFault {d : Defect} {a : Option α} {Q : α → Cursor → Prop} :
    Ends w (orFault d a) o c Q ↔ (∀ b, a = some b → Q b c) ∧ (a = none → w.defect) := by
  cases a with
  | none => exact ⟨fun h => ⟨nofun, fun _ => h⟩, fun h => h.2 rfl⟩
  | some a => exact ⟨fun h => ⟨fun _ heq => Option.some.inj heq ▸ h, nofun⟩, fun h => h.1 a rfl⟩

/-- Where every ending is allowed, a value that must be there may be taken as found. -/
theorem ends_orFault_any {d : Defect} {a : Option α} {Q : α → Cursor → Prop} :
    Ends .any (orFault d a) o c Q ↔ ∀ b, a = some b → Q b c :=
  ends_orFault.trans (and_iff_left fun _ => trivial)

/-! ### Single readings -/

/-- Looking at the tokens ahead finds them. -/
@[simp] theorem ends_ahead {Q : List Lexeme → Cursor → Prop} :
    Ends w ahead o c Q ↔ Q c.rest c := Iff.rfl

/-- Looking at a token some places ahead finds it. -/
@[simp] theorem ends_peekAt {Q : Option Token → Cursor → Prop} :
    Ends w (peekAt n) o c Q ↔ Q (c.advanceBy n).next? c := by
  rw [Cursor.next?_advanceBy]
  exact Iff.rfl

/-- Looking at the next token finds it. -/
@[simp] theorem ends_peek {Q : Option Token → Cursor → Prop} :
    Ends w peek o c Q ↔ Q c.next? c := by
  rw [peek, ends_peekAt, Cursor.advanceBy_zero]

/-- The place of the next token is found. -/
@[simp] theorem ends_peekPlace {Q : Extent → Cursor → Prop} :
    Ends w peekPlace o c Q ↔ Q (c.place o) c := by
  unfold Ends peekPlace Cursor.place
  cases h : c.rest <;> simp

/-- The start of the next token is found. -/
@[simp] theorem ends_peekStart {Q : Nat → Cursor → Prop} :
    Ends w peekStart o c Q ↔ Q (c.place o).start c := by
  rw [peekStart, ends_bind, ends_peekPlace, ends_pure]

/-- The end of the source is found where nothing is ahead. -/
@[simp] theorem ends_atEnd {Q : Bool → Cursor → Prop} :
    Ends w atEnd o c Q ↔ Q c.rest.isEmpty c := Iff.rfl

/-- Comparing the next token tells whether it is the given one. -/
@[simp] theorem ends_check {Q : Bool → Cursor → Prop} :
    Ends w (check t) o c Q ↔ Q (c.next? == some t) c := by
  rw [check, ends_bind, ends_peek, ends_pure]

/-- Passing tokens ends behind them. -/
@[simp] theorem ends_pass {Q : Unit → Cursor → Prop} :
    Ends w (pass n) o c Q ↔ Q () (c.advanceBy n) := Iff.rfl

/-- A token that may be there is passed if it is next; otherwise the place is kept. -/
@[simp] theorem ends_accept {Q : Bool → Cursor → Prop} :
    Ends w (accept t) o c Q ↔
      (c.next? = some t → Q true c.advance) ∧ (c.next? ≠ some t → Q false c) := by
  by_cases h : c.next? = some t <;> simp [accept, h]

/-- What may stand behind a token is read if the token is next; otherwise the place is kept. -/
@[simp] theorem ends_ifNext {Q : Option α → Cursor → Prop} :
    Ends w (ifNext t x) o c Q ↔
      (c.next? = some t → Ends w x o c.advance fun a c' => Q (some a) c') ∧
        (c.next? ≠ some t → Q none c) := by
  by_cases h : c.next? = some t <;> simp [ifNext, h]

/-- A refusal of the next token is a refusal, whatever the token. -/
@[simp] theorem ends_refuseNext {e : Expected} : Ends w (refuseNext e) o c Q ↔ w.refused := by
  simp [refuseNext]

/-- A token that must be there is passed, or the reading is refused. -/
@[simp] theorem ends_expect {Q : Unit → Cursor → Prop} :
    Ends w (expect t) o c Q ↔
      (c.next? = some t → Q () c.advance) ∧ (c.next? ≠ some t → w.refused) := by
  by_cases h : c.next? = some t <;> simp [expect, h]

/-- A name that must be there is found, or the reading is refused. -/
theorem ends_expectIdentifier {Q : String → Cursor → Prop} (hrefused : w.refused)
    (h : ∀ text, c.next? = some (.identifier text) → Q text c.advance) :
    Ends w expectIdentifier o c Q := by
  simp only [expectIdentifier, ends_bind, ends_peek]
  split
  · rename_i text htext
    simpa using h text htext
  · simpa using hrefused

/-- An expression ends at a token that can stand behind one, and at the end of the source. -/
@[simp] theorem ends_atExpressionEnd {Q : Bool → Cursor → Prop} :
    Ends w atExpressionEnd o c Q ↔ Q (c.next?.all endsExpression) c := by
  simp only [atExpressionEnd, ends_bind, ends_peek]
  cases c.next? <;> rfl

/-- The end of what has been passed is found. -/
@[simp] theorem ends_lastStop {Q : Nat → Cursor → Prop} :
    Ends w lastStop o c Q ↔ Q c.lastStop c := Iff.rfl

/-- Whether a line end has just been passed is found. -/
@[simp] theorem ends_afterNewline {Q : Bool → Cursor → Prop} :
    Ends w afterNewline o c Q ↔ Q c.afterNewline c := Iff.rfl

/-- The size of the source is found. -/
@[simp] theorem ends_sourceSize {Q : Nat → Cursor → Prop} :
    Ends w sourceSize o c Q ↔ Q o.size c := Iff.rfl

/-- A span that is made has the next number. -/
@[simp] theorem ends_makeSpan {start stop : Nat} {Q : Span → Cursor → Prop} :
    Ends w (makeSpan start stop) o c Q ↔
      Q ⟨start, stop, spanId o.module (c.made + 1)⟩ { c with made := c.made + 1 } := Iff.rfl

/-- A span that is made ends with what has been passed. -/
@[simp] theorem ends_spanFrom {start : Nat} {Q : Span → Cursor → Prop} :
    Ends w (spanFrom start) o c Q ↔
      Q ⟨start, c.lastStop, spanId o.module (c.made + 1)⟩ { c with made := c.made + 1 } := Iff.rfl

/-- The source between two borders of characters can be cut out. -/
theorem ends_sourceText {start stop : Nat} {Q : List Char → Cursor → Prop}
    (hstart : Text.IsCut o.text start) (hstop : Text.IsCut o.text stop) (hle : start ≤ stop)
    (h : ∀ cs, Q cs c) : Ends w (sourceText start stop) o c Q := by
  obtain ⟨cs, hcs⟩ := Text.exists_slice? hstart hstop hle
  unfold Ends sourceText
  rw [hcs]
  exact h cs

/-- Where every ending is allowed, the text of a slice may be taken as found. -/
theorem ends_sourceText_any {start stop : Nat} {Q : List Char → Cursor → Prop} :
    Ends .any (sourceText start stop) o c Q ↔
      ∀ cs, Text.slice? o.text start stop = some cs → Q cs c := by
  unfold Ends sourceText
  cases h : Text.slice? o.text start stop with
  | none => exact ⟨fun _ _ h => (nomatch h), fun _ => trivial⟩
  | some cs => exact ⟨fun h _ heq => Option.some.inj heq ▸ h, fun h => h cs rfl⟩

/-- The text of a slice that exists is found. -/
theorem ends_sourceText_of_slice {start stop : Nat} {Q : List Char → Cursor → Prop} {cs : List Char}
    (hcs : Text.slice? o.text start stop = some cs) :
    Ends w (sourceText start stop) o c Q ↔ Q cs c :=
  ends_iff_of_done (by rw [sourceText, hcs])

/-- A reading that is tried goes back to its start if it finds nothing. -/
theorem ends_tentative {x : Reading (Option α)} {Q : Option α → Cursor → Prop}
    (hnone : ∀ made, Q none { c with made })
    (h : Ends ⟨True, w.defect⟩ x o c fun a c' => ∀ b, a = some b → Q (some b) c') :
    Ends w (tentative x) o c Q := by
  unfold Ends tentative at *
  cases hx : x o c with
  | done a c' =>
    rw [hx] at h
    cases a with
    | none => exact hnone c'.made
    | some b => exact h b rfl
  | refused e n => exact hnone n
  | defect d =>
    rw [hx] at h
    exact h

/-- A reading that finds something is tried with that. -/
theorem ends_tentative_of_accepted {x : Reading (Option α)} {Q : Option α → Cursor → Prop}
    (hw : w.defect) (h : Ends .accepted x o c fun a c' => ∃ b, a = some b ∧ Q (some b) c') :
    Ends w (tentative x) o c Q := by
  unfold Ends tentative at *
  cases hx : x o c with
  | done a c' =>
    rw [hx] at h
    obtain ⟨b, rfl, hQ⟩ := h
    exact hQ
  | refused e n =>
    rw [hx] at h
    exact h.elim
  | defect d => exact hw

/-! ### Loops -/

/-- What holds behind a round: `I` if the loop goes on, `Q` if it stops. -/
def AfterRound (I : σ → Cursor → Prop) (Q : α → Cursor → Prop) : Round σ α → Cursor → Prop
  | .again s, c => I s c
  | .stop a, c => Q a c

/-- Behind a round that is not the last, the invariant holds. -/
@[simp] theorem afterRound_again {I : σ → Cursor → Prop} {s : σ} :
    AfterRound I Q (.again s) c ↔ I s c := Iff.rfl

/-- Behind the last round, what is said of its value holds. -/
@[simp] theorem afterRound_stop {I : σ → Cursor → Prop} {a : α} :
    AfterRound I Q (.stop a : Round σ α) c ↔ Q a c := Iff.rfl

/-- **A loop ends well** if every round keeps the invariant, and there are no more rounds
than `n`, or the lack of rounds is allowed. -/
theorem ends_rounds {step : σ → Reading (Round σ α)} {I : Nat → σ → Cursor → Prop}
    (hnone : ∀ s c, I 0 s c → w.defect)
    (hstep : ∀ n s c, I (n + 1) s c → Ends w (step s) o c (AfterRound (I n) Q)) {s : σ}
    (h : I n s c) : Ends w (rounds step n s) o c Q := by
  induction n generalizing s c with
  | zero => exact hnone s c h
  | succ n ih =>
    rw [rounds, ends_bind]
    refine (hstep n s c h).mono fun r c' hr => ?_
    cases r with
    | again s' => exact ih hr
    | stop a => exact hr

/-- A loop whose rounds keep the invariant and pass a token ends well. -/
theorem ends_repeatRounds {step : σ → Reading (Round σ α)} {I : σ → Cursor → Prop}
    (hstep : ∀ s c, I s c → Ends w (step s) o c
      (AfterRound (fun s' c' => I s' c' ∧ c'.rest.length < c.rest.length) Q)) {s : σ}
    (h : I s c) : Ends w (repeatRounds step s) o c Q := by
  refine ends_rounds (I := fun n s c => I s c ∧ c.rest.length < n)
    (fun _ _ hs => absurd hs.2 (Nat.not_lt_zero _)) (fun n s c hs => ?_)
    ⟨h, Nat.lt_succ_self c.rest.length⟩
  refine (hstep s c hs.1).mono fun r c' hr => ?_
  cases r with
  | again s' => exact ⟨hr.1, by have := hs.2; have := hr.2; omega⟩
  | stop a => exact hr

/-- Whatever the loop finds from this state on, `Q` holds of it. -/
def Finds (step : σ → Reading (Round σ α)) (o : Origin) (Q : α → Cursor → Prop) (s : σ)
    (c : Cursor) : Prop :=
  ∀ n, Ends .any (rounds step n s) o c Q

/-- What is found from a state on is found from the states behind one round on. -/
theorem finds_of_round {step : σ → Reading (Round σ α)} {s : σ}
    (h : Ends .any (step s) o c (AfterRound (Finds step o Q) Q)) : Finds step o Q s c := by
  rintro (_ | n)
  · trivial
  · rw [rounds, ends_bind]
    refine h.mono fun r c' hr => ?_
    cases r with
    | again s' => exact hr n
    | stop a => exact hr

/-- If the rounds keep the invariant, what is found is what they stop with. -/
theorem finds_of_invariant {step : σ → Reading (Round σ α)} {I : σ → Cursor → Prop}
    (hstep : ∀ s c, I s c → Ends .any (step s) o c (AfterRound I Q)) {s : σ} (h : I s c) :
    Finds step o Q s c := fun _ =>
  ends_rounds (I := fun _ => I) (fun _ _ _ => trivial) (fun _ => hstep) h

/-- What a loop finds, if its rounds keep the invariant. -/
theorem ends_repeatRounds_any {step : σ → Reading (Round σ α)} {I : σ → Cursor → Prop}
    (hstep : ∀ s c, I s c → Ends .any (step s) o c (AfterRound I Q)) {s : σ} (h : I s c) :
    Ends .any (repeatRounds step s) o c Q := finds_of_invariant hstep h _

/-! ### Items with commas between them -/

/-- The reading answers from what is ahead, and passes nothing. -/
def Looks (x : Reading α) : Prop := ∀ o c, ∃ a, x o c = .done a c

/-- Comparing the next token passes nothing. -/
theorem looks_check (t : Token) : Looks (check t) := fun _ _ => ⟨_, rfl⟩

/-- Asking whether an expression ends here passes nothing. -/
theorem looks_atExpressionEnd : Looks atExpressionEnd := fun _ _ =>
  ⟨_, done_iff_ends.2 (ends_atExpressionEnd.2 ⟨rfl, rfl⟩)⟩

/-- What answers from what is ahead ends where it begins. -/
theorem Looks.ends (hx : Looks x) (h : ∀ a, Q a c) : Ends w x o c Q := by
  obtain ⟨a, ha⟩ := hx o c
  exact (ends_iff_of_done ha).2 (h a)

/-- One more item of a list: each follows a comma, and a last comma may stand alone where the
list has ended. -/
def commaRound (item : Reading α) (ended : Reading Bool) (found : List α) :
    Reading (Round (List α) (List α)) := do
  if ← accept .comma then
    if ← ended then return .stop found
    return .again (found ++ [← item])
  else return .stop found

/-- One more element of a tuple is one more item up to the closing bracket. -/
theorem tupleRound_eq (inner : Reading Expression) :
    tupleRound inner = commaRound inner (check .closeParen) := rfl

/-- One more expression of a list is one more item up to the end of the expression. -/
theorem expressionRound_eq : expressionRound = commaRound expression atExpressionEnd := rfl

end Reading
end Outline
end Lineage
