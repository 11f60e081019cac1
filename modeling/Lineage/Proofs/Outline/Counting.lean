/-
# How many spans are made

The spans of a source are numbered in the order they are made, and a number that has been
given is not given again: a reading only adds to the spans made, also where it refuses the
source, so a later one is numbered apart from those of an attempt that was given up.
`Counts o n x Q` says this of the reading `x` from any place behind `n` spans, and that `Q`
holds of what it finds and of the number of spans by then.  A sequence counts on where its
first part ends (`Counts.bind`), and most readings make no spans at all (`Silent`).
-/

import Lineage.Proofs.Outline.Reading

namespace Lineage
namespace Outline
namespace Reading

open Source

variable {α β σ : Type} {o : Origin} {n m : Nat} {t : Token} {x y : Reading α}
  {f : α → Reading β} {step : σ → Reading (Round σ α)} {Q Q' : α → Nat → Prop}
  {R : β → Nat → Prop} {I : σ → Nat → Prop}

/-- Behind `n` spans, the reading makes more or none, and `Q` holds of what it finds and of
the number of spans made by then. -/
def Counts (o : Origin) (n : Nat) (x : Reading α) (Q : α → Nat → Prop) : Prop :=
  ∀ c : Cursor, c.made = n →
    match x o c with
    | .done a c' => n ≤ c'.made ∧ Q a c'.made
    | .refused _ made => n ≤ made
    | .defect _ => True

/-- What the reading finds, it finds without a span. -/
def Silent (o : Origin) (x : Reading α) : Prop := ∀ n, Counts o n x fun _ n' => n' = n

/-- What holds behind a round: `I` if the loop goes on, `Q` if it stops. -/
def Round.Holds (I : σ → Nat → Prop) (Q : α → Nat → Prop) : Round σ α → Nat → Prop
  | .again s, n => I s n
  | .stop a, n => Q a n

/-- A count of spans is one of values at any place. -/
theorem Counts.ends {c : Cursor} (h : Counts o c.made x Q) :
    Ends .any x o c fun a c' => Q a c'.made := by
  have hx := h c rfl
  unfold Ends
  split
  · rename_i a c' hdone
    rw [hdone] at hx
    exact hx.2
  · trivial
  · trivial

/-! ### Sequences and loops -/

/-- What is found may be replaced by what follows from it. -/
theorem Counts.mono (h : Counts o n x Q) (himp : ∀ a m, n ≤ m → Q a m → Q' a m) :
    Counts o n x Q' := by
  intro c hc
  have hx := h c hc
  split
  · rename_i a c' hdone
    rw [hdone] at hx
    exact ⟨hx.1, himp a c'.made hx.1 hx.2⟩
  · rename_i e made hrefused
    rw [hrefused] at hx
    exact hx
  · trivial

/-- To give a value makes no span. -/
theorem counts_pure {a : α} (h : Q a n) : Counts o n (pure a) Q :=
  fun _ hc => ⟨Nat.le_of_eq hc.symm, hc.symm ▸ h⟩

/-- A refusal finds nothing. -/
theorem counts_refuse (e : ParseError) : Counts o n (refuse e) Q := fun _ hc => Nat.le_of_eq hc.symm

/-- A defect finds nothing. -/
theorem counts_fault (d : Defect) : Counts o n (fault d) Q := fun _ _ => trivial

/-- **A sequence counts on where its first part ends.** -/
theorem Counts.bind (h : Counts o n x Q) (hf : ∀ a m, Q a m → Counts o m (f a) R) :
    Counts o n (x >>= f) R := by
  intro c hc
  have hx := h c hc
  rw [bind_apply]
  cases hdone : x o c with
  | done a c' =>
    rw [hdone] at hx
    have hrest := hf a c'.made hx.2 c' rfl
    dsimp only
    split
    · rename_i b c'' hb
      rw [hb] at hrest
      exact ⟨Nat.le_trans hx.1 hrest.1, hrest.2⟩
    · rename_i e made hrefused
      rw [hrefused] at hrest
      exact Nat.le_trans hx.1 hrest
    · trivial
  | refused e made =>
    rw [hdone] at hx
    exact hx
  | defect d => trivial

/-- A reading that makes no span may stand before one that counts. -/
theorem Silent.then (h : Silent o x) (hf : ∀ a, Counts o n (f a) R) : Counts o n (x >>= f) R :=
  (h n).bind fun a _ hm => hm ▸ hf a

/-- To give a value is silent. -/
theorem silent_pure (a : α) : Silent o (pure a) := fun _ => counts_pure rfl

/-- A sequence of silent readings is silent. -/
theorem Silent.bind (h : Silent o x) (hf : ∀ a, Silent o (f a)) : Silent o (x >>= f) :=
  fun n => h.then fun a => hf a n

/-- A choice of silent readings is silent. -/
theorem Silent.ite {p : Prop} [Decidable p] (hx : Silent o x) (hy : Silent o y) :
    Silent o (if p then x else y) := by
  split
  · exact hx
  · exact hy

/-- **A loop counts on as its rounds do.** -/
theorem counts_repeatRounds (hstep : ∀ s n, I s n → Counts o n (step s) (Round.Holds I Q)) {s : σ}
    (h : I s n) : Counts o n (repeatRounds step s) Q := by
  have hrounds : ∀ bound s n, I s n → Counts o n (rounds step bound s) Q := by
    intro bound
    induction bound with
    | zero => exact fun _ _ _ => counts_fault _
    | succ bound ih =>
      intro s n hs
      rw [rounds]
      refine (hstep s n hs).bind fun r m hr => ?_
      cases r with
      | again s' => exact ih s' m hr
      | stop a => exact counts_pure hr
  exact fun c hc => hrounds _ s n h c hc

/-- A loop of silent rounds is silent. -/
theorem Silent.repeatRounds (h : ∀ s, Silent o (step s)) (s : σ) :
    Silent o (repeatRounds step s) := by
  intro n
  refine counts_repeatRounds (I := fun _ m => m = n) (fun s m hm => ?_) rfl
  refine (h s m).mono fun r m' _ hm' => ?_
  cases r <;> exact hm'.trans hm

/-- What an attempt makes that is given up still counts. -/
theorem Counts.tentative {x : Reading (Option α)} {Q : Option α → Nat → Prop}
    (h : Counts o n x Q) (hnone : ∀ m, n ≤ m → Q none m) : Counts o n (tentative x) Q := by
  intro c hc
  have hx := h c hc
  unfold Reading.tentative
  cases hdone : x o c with
  | done a c' =>
    rw [hdone] at hx
    cases a with
    | none => exact hx
    | some b => exact hx
  | refused e made =>
    rw [hdone] at hx
    exact ⟨hx, hnone made hx⟩
  | defect d => trivial

/-! ### Readings without spans -/

/-- A reading that always finds something and leaves the number alone makes no spans. -/
private theorem silent_of_done (h : ∀ c, ∃ a c', x o c = .done a c' ∧ c'.made = c.made) :
    Silent o x := by
  intro n c hc
  obtain ⟨a, c', hdone, hmade⟩ := h c
  rw [hdone]
  exact ⟨Nat.le_of_eq (hc.symm.trans hmade.symm), hmade.trans hc⟩

/-- To look at what is ahead is silent. -/
theorem silent_ahead : Silent o ahead := silent_of_done fun _ => ⟨_, _, rfl, rfl⟩

/-- To look at a token further on is silent. -/
theorem silent_peekAt (k : Nat) : Silent o (peekAt k) := silent_of_done fun _ => ⟨_, _, rfl, rfl⟩

/-- To look at the next token is silent. -/
theorem silent_peek : Silent o peek := silent_peekAt 0

/-- To look at the next place is silent. -/
theorem silent_peekPlace : Silent o peekPlace := by
  refine silent_of_done fun c => ?_
  unfold peekPlace
  split
  · exact ⟨_, _, rfl, rfl⟩
  · exact ⟨_, _, rfl, rfl⟩

/-- To look where the next token starts is silent. -/
theorem silent_peekStart : Silent o peekStart := silent_peekPlace.bind fun _ => silent_pure _

/-- To look for the end is silent. -/
theorem silent_atEnd : Silent o atEnd := silent_of_done fun _ => ⟨_, _, rfl, rfl⟩

/-- To check the next token is silent. -/
theorem silent_check (t : Token) : Silent o (check t) := silent_peek.bind fun _ => silent_pure _

/-- To pass tokens is silent. -/
theorem silent_pass (k : Nat) : Silent o (pass k) :=
  silent_of_done fun c => ⟨_, _, rfl, Cursor.made_advanceBy k c⟩

/-- To look back at the last token is silent. -/
theorem silent_lastStop : Silent o lastStop := silent_of_done fun _ => ⟨_, _, rfl, rfl⟩

/-- To look back for a `newline` is silent. -/
theorem silent_afterNewline : Silent o afterNewline := silent_of_done fun _ => ⟨_, _, rfl, rfl⟩

/-- To ask for the size of the source is silent. -/
theorem silent_sourceSize : Silent o sourceSize := silent_of_done fun _ => ⟨_, _, rfl, rfl⟩

/-- To take a text of the source is silent. -/
theorem silent_sourceText (start stop : Nat) : Silent o (sourceText start stop) := by
  intro n c hc
  unfold sourceText
  cases Text.slice? o.text start stop with
  | none => trivial
  | some cs => exact ⟨Nat.le_of_eq hc.symm, hc⟩

/-- To go on with an optional value is silent. -/
theorem silent_orFault (d : Defect) (a : Option α) : Silent o (orFault d a) := by
  cases a with
  | none => exact fun _ => counts_fault d
  | some a => exact silent_pure a

/-- To refuse the next token finds nothing. -/
theorem counts_refuseNext (expected : Expected) : Counts o n (refuseNext expected) Q :=
  silent_peekPlace.then fun _ => silent_peek.then fun _ => counts_refuse _

/-- To accept a token is silent. -/
theorem silent_accept (t : Token) : Silent o (accept t) :=
  (silent_check t).bind fun _ =>
    ((silent_pass 1).bind fun _ => silent_pure _).ite (silent_pure _)

/-- To expect a token is silent. -/
theorem silent_expect (t : Token) : Silent o (expect t) :=
  (silent_check t).bind fun _ => (silent_pass 1).ite <| silent_atEnd.bind fun _ =>
    (silent_peekStart.bind fun _ _ => counts_refuse _).ite fun _ => counts_refuseNext _

/-- To expect an identifier is silent. -/
theorem silent_expectIdentifier : Silent o expectIdentifier := by
  refine silent_peek.bind fun next => ?_
  split
  · exact (silent_pass 1).bind fun _ => silent_pure _
  · exact fun _ => counts_refuseNext _

/-- To look whether an expression has ended is silent. -/
theorem silent_atExpressionEnd : Silent o atExpressionEnd := by
  refine silent_peek.bind fun next => ?_
  split <;> exact silent_pure _

/-- To pass a group in brackets is silent. -/
theorem silent_passGroup : Silent o passGroup := by
  refine silent_ahead.bind fun tokens => silent_peekPlace.bind fun _ =>
    (silent_orFault _ _).bind fun g => (silent_pass _).bind fun _ => ?_
  refine .ite ?_ (silent_lastStop.bind fun _ => silent_pure _)
  split
  · exact silent_pure _
  · exact fun _ => counts_fault _

/-- To pass string literals is silent. -/
theorem silent_passStrings (k : Nat) : Silent o (passStrings k) :=
  silent_ahead.bind fun _ => (silent_orFault _ _).bind fun _ => (silent_pass k).bind fun _ =>
    silent_pure _

/-- To read the stars of an argument is silent. -/
theorem silent_argumentStars : Silent o argumentStars := by
  refine silent_peek.bind fun next => ?_
  split
  · exact (silent_pass 1).bind fun _ => silent_pure _
  · exact (silent_pass 1).bind fun _ => silent_pure _
  · exact silent_pure _

/-- To read the keyword of an argument is silent. -/
theorem silent_argumentKeyword (unpacking : Unpacking) : Silent o (argumentKeyword unpacking) := by
  refine silent_peek.bind fun next => (silent_peekAt 1).bind fun second => ?_
  split
  · exact (silent_pass 2).bind fun _ => silent_pure _
  · exact silent_pure _

/-- To pass a block is silent. -/
theorem silent_passBlock : Silent o passBlock :=
  silent_ahead.bind fun _ => (silent_orFault _ _).bind fun k => silent_pass k

/-- To pass a statement is silent. -/
theorem silent_passStatement : Silent o passStatement :=
  silent_ahead.bind fun _ => (silent_pass _).bind fun _ =>
    .ite ((silent_check _).bind fun _ => silent_passBlock.ite (silent_pure _)) (silent_pure _)

/-- To end a simple statement is silent. -/
theorem silent_finishStatement : Silent o finishStatement :=
  (silent_accept _).bind fun _ =>
    ((silent_accept _).bind fun _ => silent_pure _).ite silent_passStatement

/-- To read the names of a target list is silent. -/
theorem silent_targetNames : Silent o targetNames :=
  .repeatRounds (fun _ => silent_expectIdentifier.bind fun _ => (silent_accept _).bind fun _ =>
    .ite ((silent_check _).bind fun _ => (silent_pure _).ite (silent_pure _)) (silent_pure _)) _

/-- To read the targets on the receiver is silent. -/
theorem silent_receiverTargets (receiver : String) : Silent o (receiverTargets receiver) := by
  refine .repeatRounds (fun targets => ?_) _
  refine silent_peek.bind fun first => (silent_peekAt 1).bind fun second =>
    (silent_peekAt 2).bind fun third => ?_
  split
  · refine .ite ((silent_pass 3).bind fun _ => (silent_accept _).bind fun _ => ?_) (silent_pure _)
    exact (silent_pure _).ite (silent_pure _)
  · exact silent_pure _

/-- To look for a function is silent. -/
theorem silent_atFunction : Silent o atFunction := by
  refine silent_peek.bind fun next => (silent_peekAt 1).bind fun second => ?_
  split <;> exact silent_pure _

/-- To read a docstring is silent. -/
theorem silent_docstring : Silent o docstring :=
  silent_ahead.bind fun _ => (silent_peekAt _).bind fun _ => .ite (silent_pure _) <|
    (silent_passStrings _).bind fun _ => (silent_accept _).bind fun _ => silent_pure _

end Reading
end Outline
end Lineage
