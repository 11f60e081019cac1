/-
# Encoding with references is canonical

A text has one canonical form for given escapes: plain runs that are as long as they can be,
and a reference for each escaped character between them (`Canonical`).  The form is decided
by the text, node by node from the front: an escaped character is a reference, and a run
goes on up to the next reference (`pieces_run_append`), for two runs never stand side by
side.  So the nodes of a canonical form are those that encoding makes of what they stand
for (`eq_encodeEntities`).
-/

import Lineage.Proofs.Markup.Building
import Mathlib.Data.List.Chain

namespace Lineage
namespace Markup

variable {flags : Char → Bool} {c : Char} {cs run : List Char} {nodes : List Node}
  {n : Node} {p : Piece} {ps : List Piece} {s text : String}

/-! ### The canonical form -/

/-- At most one of the nodes is a plain run. -/
def Node.Apart (a b : Node) : Prop := ¬ (a.isText = true ∧ b.isText = true)

/-- The character that the node escapes. -/
def Node.escaped? : Node → Option Char
  | .reference c _ => some c
  | _ => none

/-- The nodes are plain runs and the references of escaped characters.  No run is empty,
has an escaped character in it or stands next to another run. -/
structure Canonical (flags : Char → Bool) (nodes : List Node) : Prop where
  plain : ∀ s, .text s ∈ nodes → s ≠ "" ∧ ∀ c ∈ s.toList, flags c = false
  apart : nodes.IsChain Node.Apart
  escaped : ∀ n ∈ nodes, n.isText = false →
    ∃ c, flags c = true ∧ n = .reference c (charReference c)

/-- What is behind the first node of a canonical list is canonical. -/
theorem Canonical.tail (h : Canonical flags (n :: nodes)) : Canonical flags nodes where
  plain s hs := h.plain s (List.mem_cons_of_mem n hs)
  apart := (List.isChain_cons.1 h.apart).2
  escaped m hm := h.escaped m (List.mem_cons_of_mem n hm)

/-- What is no run at the front of a canonical form is a reference there. -/
theorem Canonical.cases (h : Canonical flags (n :: nodes)) :
    (∃ s, n = .text s ∧ s ≠ "" ∧ (∀ c ∈ s.toList, flags c = false) ∧
        ∀ m ∈ nodes.head?, m.isText = false) ∨
      ∃ c, n = referenceTo c ∧ flags c = true := by
  by_cases hn : n.isText = true
  · cases n with
    | text s =>
      obtain ⟨hne, hplain⟩ := h.plain s List.mem_cons_self
      refine .inl ⟨s, rfl, hne, hplain, fun m hm => Bool.eq_false_iff.2 fun hm' => ?_⟩
      exact (List.isChain_cons.1 h.apart).1 m hm ⟨rfl, hm'⟩
    | reference c written => cases hn
    | cdata s => cases hn
  · obtain ⟨c, hc, rfl⟩ := h.escaped n List.mem_cons_self (Bool.eq_false_iff.2 hn)
    exact .inr ⟨c, rfl, hc⟩

/-! ### Pieces of a text -/

/-- The piece is a run. -/
def Piece.isRun : Piece → Bool
  | .run _ => true
  | .flagged _ => false

/-- A piece is a run just when its node is one. -/
theorem Piece.isText_node (p : Piece) : p.node.isText = p.isRun := by
  cases p <;> rfl

/-- A character joins the run at the front, or is a run of its own. -/
theorem prependPlain_cases (c : Char) (ps : List Piece) :
    (∃ cs ps', ps = .run cs :: ps' ∧ prependPlain c ps = .run (c :: cs) :: ps') ∨
      (∀ p ∈ ps.head?, p.isRun = false) ∧ prependPlain c ps = .run [c] :: ps := by
  cases ps with
  | nil => exact .inr ⟨fun p hp => (nomatch hp), rfl⟩
  | cons p ps =>
    cases p with
    | run cs => exact .inl ⟨cs, ps, rfl, rfl⟩
    | flagged d =>
      refine .inr ⟨fun p hp => ?_, rfl⟩
      obtain rfl := Option.some.inj hp
      rfl

/-- A run in the pieces of a text has characters, and none that is escaped. -/
theorem plain_of_mem_pieces (h : .run run ∈ pieces flags cs) :
    run ≠ [] ∧ ∀ c ∈ run, flags c = false := by
  induction cs generalizing run with
  | nil => cases h
  | cons c cs ih =>
    unfold pieces at h
    split at h
    · rcases List.mem_cons.1 h with heq | h
      · cases heq
      · exact ih h
    · rename_i hc
      rcases prependPlain_cases c (pieces flags cs) with ⟨run', ps, heq, hprep⟩ | ⟨_, hprep⟩
      · rw [hprep] at h
        rcases List.mem_cons.1 h with heq' | h
        · obtain rfl := Piece.run.inj heq'
          have hrun : .run run' ∈ pieces flags cs := heq ▸ List.mem_cons_self
          exact ⟨List.cons_ne_nil c run',
            List.forall_mem_cons.2 ⟨Bool.eq_false_iff.2 hc, (ih hrun).2⟩⟩
        · exact ih (heq ▸ List.mem_cons_of_mem _ h)
      · rw [hprep] at h
        rcases List.mem_cons.1 h with heq' | h
        · obtain rfl := Piece.run.inj heq'
          exact ⟨List.cons_ne_nil c [],
            List.forall_mem_singleton.2 (Bool.eq_false_iff.2 hc)⟩
        · exact ih h

/-- A piece that stands for a character is a flagged one. -/
theorem flagged_of_mem_pieces (h : .flagged c ∈ pieces flags cs) : flags c = true := by
  induction cs with
  | nil => cases h
  | cons d cs ih =>
    unfold pieces at h
    split at h
    · rename_i hd
      rcases List.mem_cons.1 h with heq | h
      · obtain rfl := Piece.flagged.inj heq
        exact hd
      · exact ih h
    · rcases mem_prependPlain h with h | ⟨run, heq⟩
      · exact ih h
      · cases heq

/-- No two runs of a text's pieces are neighbours. -/
theorem isChain_pieces (flags : Char → Bool) (cs : List Char) :
    (pieces flags cs).IsChain fun p q => ¬ (p.isRun = true ∧ q.isRun = true) := by
  induction cs with
  | nil => exact List.isChain_nil
  | cons c cs ih =>
    unfold pieces
    split
    · exact List.isChain_cons.2 ⟨fun q _ hboth => Bool.noConfusion hboth.1, ih⟩
    · rcases prependPlain_cases c (pieces flags cs) with ⟨run, ps, heq, hprep⟩ | ⟨hhead, hprep⟩
      · -- The longer run has the neighbour that the run had.
        rw [heq] at ih
        rw [hprep]
        exact List.isChain_cons.2 (List.isChain_cons.1 ih)
      · rw [hprep]
        refine List.isChain_cons.2 ⟨fun q hq hboth => ?_, ih⟩
        rw [hhead q hq] at hboth
        exact Bool.noConfusion hboth.2

/-- A text in which flagged characters are escaped is canonical. -/
theorem canonical_encodeEntities (flags : Char → Bool) (text : String) :
    Canonical flags (encodeEntities flags text) where
  plain s hs := by
    obtain ⟨p, hp, hnode⟩ := List.mem_map.1 hs
    cases p with
    | run run =>
      obtain rfl := Node.text.inj hnode
      obtain ⟨hne, hplain⟩ := plain_of_mem_pieces hp
      refine ⟨fun hempty => hne ?_, fun c hc => hplain c ?_⟩
      · simpa using congrArg String.toList hempty
      · simpa using hc
    | flagged c => cases hnode
  apart := by
    refine List.isChain_map _ |>.2 ((isChain_pieces flags text.toList).imp fun p q hpq => ?_)
    rwa [Node.Apart, Piece.isText_node, Piece.isText_node]
  escaped n hn htext := by
    obtain ⟨p, hp, rfl⟩ := List.mem_map.1 hn
    cases p with
    | run run => cases htext
    | flagged c => exact ⟨c, flagged_of_mem_pieces hp, rfl⟩

/-! ### Only one form -/

/-- A run goes on up to what is no run. -/
theorem pieces_run_append (hplain : ∀ d ∈ c :: run, flags d = false)
    (hnext : ∀ p ∈ (pieces flags cs).head?, p.isRun = false) :
    pieces flags (c :: (run ++ cs)) = .run (c :: run) :: pieces flags cs := by
  induction run generalizing c with
  | nil =>
    have hc : ¬ flags c = true := Bool.eq_false_iff.1 (hplain c List.mem_cons_self)
    rcases prependPlain_cases c (pieces flags cs) with ⟨run, ps, heq, _⟩ | ⟨_, hprep⟩
    · rw [heq] at hnext
      exact Bool.noConfusion (hnext _ rfl)
    · rw [List.nil_append, pieces, if_neg hc, hprep]
  | cons d run ih =>
    have hc : ¬ flags c = true := Bool.eq_false_iff.1 (hplain c List.mem_cons_self)
    have hrest := ih (fun e he => hplain e (List.mem_cons_of_mem c he))
    rw [List.cons_append, pieces, if_neg hc, hrest, prependPlain]

/-- A canonical form is what encoding makes of the text that it stands for. -/
theorem Canonical.eq_encodeEntities (h : Canonical flags nodes) :
    nodes = encodeEntities flags (decodeNodes nodes) := by
  induction nodes with
  | nil => rfl
  | cons n nodes ih =>
    have hrest := ih h.tail
    rcases h.cases with ⟨s, rfl, hne, hplain, hnext⟩ | ⟨c, rfl, hc⟩
    · obtain ⟨c, run, hs⟩ := List.exists_cons_of_ne_nil
        fun hnil => hne (String.toList_injective hnil)
      have hcut : ∀ p ∈ (pieces flags (decodeNodes nodes).toList).head?, p.isRun = false := by
        intro p hp
        rw [← Piece.isText_node]
        refine hnext p.node ?_
        rw [hrest, encodeEntities, List.head?_map]
        exact Option.mem_map_of_mem _ hp
      have hpieces := pieces_run_append (hs ▸ hplain) hcut
      have hlist : (decodeNodes (.text s :: nodes)).toList =
          c :: (run ++ (decodeNodes nodes).toList) := by
        rw [toList_decodeNodes, toList_decodeNodes, List.flatMap_cons, Node.decoded, hs,
          List.cons_append]
      rw [encodeEntities, hlist, hpieces, List.map_cons, Piece.node, ← hs, String.ofList_toList]
      exact congrArg _ hrest
    · have hlist : (decodeNodes (referenceTo c :: nodes)).toList =
          c :: (decodeNodes nodes).toList := by
        rw [toList_decodeNodes, toList_decodeNodes, List.flatMap_cons, decoded_referenceTo]
        simp
      rw [encodeEntities, hlist, pieces, if_pos hc, List.map_cons, Piece.node]
      exact congrArg _ hrest

/-! ### References -/

/-- A plain character adds no escape. -/
theorem escaped?_prependPlain (c : Char) (ps : List Piece) :
    (prependPlain c ps).filterMap (·.node.escaped?) = ps.filterMap (·.node.escaped?) := by
  rcases prependPlain_cases c ps with ⟨run, ps', rfl, hprep⟩ | ⟨_, hprep⟩
  · rw [hprep]
    rfl
  · rw [hprep]
    rfl

/-- The references are those of the escaped characters, one for each and in their order. -/
theorem escaped?_pieces (flags : Char → Bool) (cs : List Char) :
    (pieces flags cs).filterMap (·.node.escaped?) = cs.filter flags := by
  induction cs with
  | nil => rfl
  | cons c cs ih =>
    unfold pieces
    split
    · rename_i hc
      rw [List.filter_cons_of_pos hc, List.filterMap_cons, ih]
      rfl
    · rename_i hc
      rw [List.filter_cons_of_neg hc, escaped?_prependPlain, ih]

/-- **Encoding with references is canonical.**  For any text and any escapes, the nodes of a
fresh fragment are the one canonical form that stands for the text.  Its references are those
of the escaped characters of the text, one for each and in their order, and a text without
escaped characters is one run. -/
theorem encodeIn_entities_canonical (flags : Char → Bool) (text : String) :
    (∀ nodes, nodes = (Fragment.empty.encodeIn .entities flags text).nodes ↔
        Canonical flags nodes ∧ decodeNodes nodes = text) ∧
      (Fragment.empty.encodeIn .entities flags text).nodes.filterMap Node.escaped? =
        text.toList.filter flags ∧
      (text ≠ "" → (∀ c ∈ text.toList, flags c = false) →
        (Fragment.empty.encodeIn .entities flags text).nodes = [.text text]) := by
  have hnodes : (Fragment.empty.encodeIn .entities flags text).nodes =
      encodeEntities flags text := rfl
  have hiff : ∀ nodes, nodes = encodeEntities flags text ↔
      Canonical flags nodes ∧ decodeNodes nodes = text := by
    refine fun nodes => ⟨?_, ?_⟩
    · rintro rfl
      exact ⟨canonical_encodeEntities flags text, decodeNodes_encodeNodes .entities flags text⟩
    · rintro ⟨hcanonical, rfl⟩
      exact hcanonical.eq_encodeEntities
  rw [hnodes]
  refine ⟨hiff, ?_, fun hne hplain => ((hiff [.text text]).2 ⟨?_, ?_⟩).symm⟩
  · rw [encodeEntities, List.filterMap_map]
    exact escaped?_pieces flags text.toList
  · refine ⟨fun s hs => ?_, List.isChain_singleton _, fun n hn htext => ?_⟩
    · obtain rfl := Node.text.inj (List.mem_singleton.1 hs)
      exact ⟨hne, hplain⟩
    · obtain rfl := List.mem_singleton.1 hn
      cases htext
  · refine String.toList_injective ?_
    rw [toList_decodeNodes, List.flatMap_singleton, Node.decoded]

end Markup
end Lineage
