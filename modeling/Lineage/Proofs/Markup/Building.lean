/-
# What a fragment keeps of its operations

A fragment is built by operations of four kinds, in any order and any number: a plain run,
a section, a reference, and a text encoded in either mode with any escapes.  Each appends
nodes that stand for its payload (`decodeNodes_nodes`) and are faithful
(`faithful_of_mem_nodes`): no run among them is empty, and a reference names its own
character.  Appending keeps the table in step with the nodes (`Lists.append`): it has the
payloads of the runs and sections, each once.  So a fragment decodes to the payloads one
behind the other, whatever was done before (`ofOperations_keeps`).
-/

import Lineage.Proofs.Markup.RoundTrip
import Mathlib.Data.Finset.Card
import Mathlib.Data.List.Dedup

namespace Lineage
namespace Markup

variable {flags : Char → Bool} {n : Node} {s : String}

/-! ### Operations -/

/-- A step in the building of a fragment. -/
inductive Operation where
  | run (text : String)
  | cdata (text : String)
  | reference (c : Char)
  | encoded (payload : Payload)

namespace Operation

/-- The text that the operation adds. -/
def payload : Operation → String
  | run text => text
  | cdata text => text
  | reference c => c.toString
  | encoded p => p.text

/-- The fragment after the operation. -/
def apply (f : Fragment) : Operation → Fragment
  | run text => f.pushText text
  | cdata text => f.pushSection text
  | reference c => f.pushReference c
  | encoded p => f.encodeIn p.mode p.flags p.text

/-- The nodes that the operation appends. -/
def nodes : Operation → List Node
  | run text => runNodes text
  | cdata text => [.cdata text]
  | reference c => [referenceTo c]
  | encoded p => encodeNodes p.mode p.flags p.text

/-- An operation appends its nodes. -/
theorem apply_eq_append (f : Fragment) (o : Operation) : o.apply f = f.append o.nodes := by
  cases o <;> rfl

end Operation

/-- The fragment that operations build, the first one first. -/
def Fragment.ofOperations (ops : List Operation) : Fragment :=
  ops.foldl Operation.apply .empty

/-! ### Faithful nodes -/

/-- The node is no empty run, and a reference names its character. -/
def Node.Faithful : Node → Prop
  | .text value => value ≠ ""
  | .reference c written => decodeReference? written = some c
  | .cdata _ => True

/-- The reference that is written for a character names it. -/
theorem decodeReference?_charReference (c : Char) :
    decodeReference? (charReference c) = some c := by
  obtain ⟨body, hwritten, _, href⟩ := exists_body_charReference c
  have htext : referenceText? ('&' :: (body ++ [';'])) = some body := by
    simp [referenceText?]
  rw [decodeReference?, hwritten, htext, Option.bind_some, href]

/-- The reference to a character is a faithful node. -/
theorem faithful_referenceTo (c : Char) : (referenceTo c).Faithful :=
  decodeReference?_charReference c

/-- The reference to a character is decoded to it. -/
theorem decoded_referenceTo (c : Char) : (referenceTo c).decoded = c.toString := by
  rw [referenceTo, Node.decoded, decodeReference?_charReference, Option.getD_some]

/-- A run that is appended is not empty. -/
theorem faithful_of_mem_runNodes (h : n ∈ runNodes s) : n.Faithful := by
  unfold runNodes at h
  split at h
  · cases h
  · rename_i hempty
    obtain rfl := List.mem_singleton.1 h
    exact fun heq => hempty (String.isEmpty_iff.2 heq)

/-! ### Decoding nodes -/

/-- Nodes are decoded one after another. -/
theorem toList_decodeNodes (nodes : List Node) :
    (decodeNodes nodes).toList = nodes.flatMap (·.decoded.toList) := by
  rw [decodeNodes, String.toList_join, List.flatMap_map]

/-- Nodes behind each other are decoded to texts behind each other. -/
theorem decodeNodes_append (a b : List Node) :
    decodeNodes (a ++ b) = decodeNodes a ++ decodeNodes b := by
  apply String.toList_injective
  rw [String.toList_append, toList_decodeNodes, toList_decodeNodes, toList_decodeNodes,
    List.flatMap_append]

/-- A run is decoded to its text. -/
theorem decodeNodes_runNodes (text : String) : decodeNodes (runNodes text) = text := by
  unfold runNodes
  split
  · rename_i hempty
    rw [String.isEmpty_iff.1 hempty]
    rfl
  · exact String.toList_injective (by simp [toList_decodeNodes, Node.decoded])

/-! ### Encoded texts -/

/-- A piece is a flagged character, or a run with a character in it. -/
theorem mem_prependPlain {c : Char} {p : Piece} {ps : List Piece} (h : p ∈ prependPlain c ps) :
    p ∈ ps ∨ ∃ cs, p = .run (c :: cs) := by
  unfold prependPlain at h
  split at h
  · rcases List.mem_cons.1 h with rfl | h
    · exact .inr ⟨_, rfl⟩
    · exact .inl (List.mem_cons_of_mem _ h)
  · rcases List.mem_cons.1 h with rfl | h
    · exact .inr ⟨_, rfl⟩
    · exact .inl h

/-- The pieces of a text are faithful nodes. -/
theorem faithful_of_mem_pieces {p : Piece} {cs : List Char} (h : p ∈ pieces flags cs) :
    p.node.Faithful := by
  induction cs with
  | nil => cases h
  | cons c cs ih =>
    unfold pieces at h
    split at h
    · rcases List.mem_cons.1 h with rfl | h
      · exact faithful_referenceTo c
      · exact ih h
    · rcases mem_prependPlain h with h | ⟨run, rfl⟩
      · exact ih h
      · intro hempty
        have hlist := congrArg String.toList hempty
        simp at hlist

/-- The run in front of pieces takes one more character, and no piece loses one. -/
theorem flatMap_decoded_prependPlain (c : Char) (ps : List Piece) :
    (prependPlain c ps).flatMap (·.node.decoded.toList) =
      c :: ps.flatMap (·.node.decoded.toList) := by
  unfold prependPlain
  split <;> simp [Piece.node, Node.decoded]

/-- The pieces of a text are decoded to it. -/
theorem flatMap_decoded_pieces (cs : List Char) :
    (pieces flags cs).flatMap (·.node.decoded.toList) = cs := by
  induction cs with
  | nil => rfl
  | cons c cs ih =>
    unfold pieces
    split
    · rw [List.flatMap_cons, ih, Piece.node, decoded_referenceTo]
      simp
    · rw [flatMap_decoded_prependPlain, ih]

/-- An encoded text has faithful nodes in any mode. -/
theorem faithful_of_mem_encodeNodes {mode : EncodeMode} (h : n ∈ encodeNodes mode flags s) :
    n.Faithful := by
  cases mode with
  | entities =>
    obtain ⟨p, hp, rfl⟩ := List.mem_map.1 h
    exact faithful_of_mem_pieces hp
  | cdata =>
    rw [encodeNodes, encodeSections] at h
    split at h
    · obtain ⟨part, _, rfl⟩ := List.mem_map.1 h
      exact trivial
    · exact faithful_of_mem_runNodes h

/-- **An encoded text decodes to itself**, whatever is escaped. -/
theorem decodeNodes_encodeNodes (mode : EncodeMode) (flags : Char → Bool) (text : String) :
    decodeNodes (encodeNodes mode flags text) = text := by
  cases mode with
  | entities =>
    apply String.toList_injective
    rw [toList_decodeNodes, encodeNodes, encodeEntities, List.flatMap_map, flatMap_decoded_pieces]
  | cdata =>
    rw [encodeNodes, encodeSections]
    split
    · apply String.toList_injective
      rw [toList_decodeNodes, List.flatMap_map]
      simp only [Node.decoded, String.toList_ofList]
      rw [List.flatMap_id', flatten_sectionParts]
    · exact decodeNodes_runNodes text

/-! ### One operation -/

/-- Every operation appends faithful nodes. -/
theorem faithful_of_mem_nodes {o : Operation} (h : n ∈ o.nodes) : n.Faithful := by
  cases o with
  | run text => exact faithful_of_mem_runNodes h
  | cdata text =>
    obtain rfl := List.mem_singleton.1 h
    exact trivial
  | reference c =>
    obtain rfl := List.mem_singleton.1 h
    exact faithful_referenceTo c
  | encoded p => exact faithful_of_mem_encodeNodes h

/-- The nodes of an operation stand for its payload. -/
theorem decodeNodes_nodes (o : Operation) : decodeNodes o.nodes = o.payload := by
  cases o with
  | run text => exact decodeNodes_runNodes text
  | cdata text => exact String.toList_injective (by simp [toList_decodeNodes, Operation.nodes,
      Operation.payload, Node.decoded])
  | reference c =>
    apply String.toList_injective
    rw [toList_decodeNodes, Operation.nodes, List.flatMap_singleton, decoded_referenceTo]
    rfl
  | encoded p => exact decodeNodes_encodeNodes p.mode p.flags p.text

/-! ### The table -/

/-- The table has the payloads of the nodes and nothing else, each once. -/
structure TextTable.Lists (t : TextTable) (nodes : List Node) : Prop where
  nodup : t.entries.Nodup
  mem_iff : ∀ s, s ∈ t.entries ↔ s ∈ nodes.filterMap Node.payload?

/-- Interning a text repeats none. -/
theorem TextTable.nodup_intern {t : TextTable} (h : t.entries.Nodup) (text : String) :
    (t.intern text).entries.Nodup := by
  unfold intern
  split
  · exact h
  · rename_i hnew
    refine List.nodup_append.2 ⟨h, List.nodup_singleton text, fun s hs d hd => ?_⟩
    obtain rfl := List.mem_singleton.1 hd
    rintro rfl
    exact hnew (List.contains_iff_mem.2 hs)

/-- The table with the payload of one more node has the payloads of all. -/
theorem TextTable.Lists.internPayload {t : TextTable} {a : List Node} (h : t.Lists a)
    (n : Node) : (t.internPayload n).Lists (a ++ [n]) := by
  unfold TextTable.internPayload
  split
  · rename_i text htext
    refine ⟨nodup_intern h.nodup text, fun s => ?_⟩
    simp [mem_intern, h.mem_iff, htext, eq_comm]
  · rename_i hnone
    refine ⟨h.nodup, fun s => ?_⟩
    simp [h.mem_iff, hnone]

/-- The table with the payloads of more nodes has the payloads of all. -/
theorem TextTable.Lists.append {t : TextTable} {a : List Node} (h : t.Lists a) (b : List Node) :
    (b.foldl TextTable.internPayload t).Lists (a ++ b) := by
  induction b generalizing t a with
  | nil => simpa using h
  | cons n b ih => simpa using ih (h.internPayload n)

/-- The entries are the texts of the runs and sections. -/
theorem TextTable.Lists.mem_entries_iff {t : TextTable} {a : List Node} (h : t.Lists a) :
    s ∈ t.entries ↔ .text s ∈ a ∨ .cdata s ∈ a := by
  rw [h.mem_iff, List.mem_filterMap]
  constructor
  · rintro ⟨n, hn, hpayload⟩
    cases n with
    | text value =>
      obtain rfl := Option.some.inj hpayload
      exact .inl hn
    | reference c written => cases hpayload
    | cdata value =>
      obtain rfl := Option.some.inj hpayload
      exact .inr hn
  · rintro (hn | hn)
    · exact ⟨_, hn, rfl⟩
    · exact ⟨_, hn, rfl⟩

/-- A table is as large as there are payloads that differ. -/
theorem TextTable.Lists.size_eq {t : TextTable} {a : List Node} (h : t.Lists a) :
    t.size = (a.filterMap Node.payload?).toFinset.card := by
  rw [TextTable.size, ← List.toFinset_card_of_nodup h.nodup]
  congr 1
  ext s
  rw [List.mem_toFinset, List.mem_toFinset, h.mem_iff]

/-! ### All operations -/

/-- Operations keep the table that of the nodes. -/
theorem lists_foldl_apply {f : Fragment} (ops : List Operation) (h : f.table.Lists f.nodes) :
    (ops.foldl Operation.apply f).table.Lists (ops.foldl Operation.apply f).nodes := by
  induction ops generalizing f with
  | nil => exact h
  | cons o ops ih =>
    rw [List.foldl_cons, Operation.apply_eq_append]
    exact ih (h.append o.nodes)

/-- Operations append their nodes, the first one first. -/
theorem nodes_foldl_apply (f : Fragment) (ops : List Operation) :
    (ops.foldl Operation.apply f).nodes = f.nodes ++ ops.flatMap Operation.nodes := by
  induction ops generalizing f with
  | nil => simp
  | cons o ops ih =>
    rw [List.foldl_cons, ih, Operation.apply_eq_append]
    simp [Fragment.append]

/-- The nodes of a fragment are those of its operations. -/
theorem nodes_ofOperations (ops : List Operation) :
    (Fragment.ofOperations ops).nodes = ops.flatMap Operation.nodes := by
  rw [Fragment.ofOperations, nodes_foldl_apply]
  rfl

/-- The nodes of operations are decoded to their payloads, joined. -/
theorem decodeNodes_flatMap_nodes (ops : List Operation) :
    decodeNodes (ops.flatMap Operation.nodes) = String.join (ops.map Operation.payload) := by
  induction ops with
  | nil => rfl
  | cons o ops ih =>
    rw [List.flatMap_cons, decodeNodes_append, ih, decodeNodes_nodes, List.map_cons,
      String.join_cons]

/-- **A fragment keeps what was put into it**, by whatever operations: it decodes to the
payloads in their order, its references name their own characters, none of its runs is
empty, and its table has the distinct texts of its runs and sections. -/
theorem ofOperations_keeps (ops : List Operation) :
    (Fragment.ofOperations ops).decode = String.join (ops.map Operation.payload) ∧
      decodeNodes (Fragment.ofOperations ops).nodes = String.join (ops.map Operation.payload) ∧
      (∀ c written, .reference c written ∈ (Fragment.ofOperations ops).nodes →
        decodeReference? written = some c) ∧
      (∀ value, .text value ∈ (Fragment.ofOperations ops).nodes → value ≠ "") ∧
      (∀ s, s ∈ (Fragment.ofOperations ops).table.entries ↔
        .text s ∈ (Fragment.ofOperations ops).nodes ∨
          .cdata s ∈ (Fragment.ofOperations ops).nodes) ∧
      (Fragment.ofOperations ops).table.entries.Nodup ∧
      (Fragment.ofOperations ops).table.size =
        ((Fragment.ofOperations ops).nodes.filterMap Node.payload?).toFinset.card := by
  have hdecode : decodeNodes (Fragment.ofOperations ops).nodes =
      String.join (ops.map Operation.payload) := by
    rw [nodes_ofOperations, decodeNodes_flatMap_nodes]
  have hfaithful : ∀ n ∈ (Fragment.ofOperations ops).nodes, n.Faithful := fun n hn => by
    rw [nodes_ofOperations] at hn
    obtain ⟨o, _, hn⟩ := List.mem_flatMap.1 hn
    exact faithful_of_mem_nodes hn
  have hlists : (Fragment.ofOperations ops).table.Lists (Fragment.ofOperations ops).nodes :=
    lists_foldl_apply ops ⟨List.nodup_nil, fun s => Iff.rfl⟩
  exact ⟨hdecode, hdecode, fun c written => hfaithful _, fun value => hfaithful _,
    fun _ => hlists.mem_entries_iff, hlists.nodup, hlists.size_eq⟩

end Markup
end Lineage
