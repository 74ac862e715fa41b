import VectorIndex.Metadata.Codec
import VectorIndex.Proofs.WellFormed

/-!
# `VectorIndex.Proofs.Codec` — what is written is read back

Every field of a record is read back from the front of the bytes and leaves the rest. A node is read back if
its counts fit their words (`Node.Encodable`); a node of a sound draft always does, since a list of distinct
ids is shorter than there are ids.

## Contents
- **Nodes.** `Node.Encodable`, `Node.decode_encode`, `Draft.Sound.encodable`.
- **Descriptions.** `Metadata.decode_encode`.
-/

namespace VectorIndex

theorem toNat_lt_wordCount_four (x : UInt32) : x.toNat < wordCount 4 := x.toNat_lt

theorem toNat_lt_wordCount_eight (x : UInt64) : x.toNat < wordCount 8 := x.toNat_lt

/-! ## Nodes -/

/-- The counts of a node fit the words they are stored in. -/
structure Node.Encodable (node : Node) : Prop where
  layers_pos : 1 ≤ node.links.length
  layers_le : node.links.length ≤ 255
  dimension_lt : node.embedding.length < wordCount 4
  links_lt : ∀ links ∈ node.links, links.length < wordCount 4

theorem readWords_wordsBytes (words : List UInt32) (rest : Bytes) :
    readWords words.length (Node.wordsBytes words ++ rest) = some (words, rest) := by
  induction words with
  | nil => rfl
  | cons word words ih =>
      have hbytes : Node.wordsBytes (word :: words) ++ rest =
          wordBytes 4 word.toNat ++ (Node.wordsBytes words ++ rest) := by
        rw [← List.append_assoc]
        rfl
      rw [hbytes, List.length_cons, readWords, readWord_wordBytes (toNat_lt_wordCount_four word)]
      simp only [Option.bind_eq_bind, Option.bind_some, ih, UInt32.ofNat_toNat]
      rfl

namespace Node

theorem readLayers_layerBytes {layers : List (List ItemId)} (h : ∀ links ∈ layers, links.length < wordCount 4)
    (rest : Bytes) : readLayers layers.length (layers.flatMap layerBytes ++ rest) = some (layers, rest) := by
  induction layers with
  | nil => rfl
  | cons links layers ih =>
      have hbytes : (links :: layers).flatMap layerBytes ++ rest =
          wordBytes 4 links.length ++ (wordsBytes links ++ (layers.flatMap layerBytes ++ rest)) := by
        simp only [List.flatMap_cons, layerBytes, List.append_assoc]
      rw [hbytes, List.length_cons, readLayers, readWord_wordBytes (h links List.mem_cons_self)]
      simp only [Option.bind_eq_bind, Option.bind_some, readWords_wordsBytes,
        ih fun l hl => h l (List.mem_cons_of_mem links hl)]
      rfl

/-- The payload of a node after the layer count. -/
def body (node : Node) : Bytes :=
  wordBytes 4 node.embedding.length ++ wordsBytes (node.embedding.map Single.bits) ++
    node.links.flatMap layerBytes

/-- The body of a payload is read back. -/
theorem readNode_body {node : Node} (h : node.Encodable) (rest : Bytes) :
    readNode node.links.length (node.body ++ rest) = some (node, rest) := by
  have hwords := readWords_wordsBytes (node.embedding.map Single.bits) (node.links.flatMap layerBytes ++ rest)
  have hlayers := readLayers_layerBytes h.links_lt rest
  rw [List.length_map] at hwords
  have hcomponents : (node.embedding.map Single.bits).map Single.mk = node.embedding := by
    rw [List.map_map]
    exact List.map_id' node.embedding
  unfold readNode body
  rw [List.append_assoc, List.append_assoc, readWord_wordBytes h.dimension_lt]
  simp only [Option.bind_eq_bind, Option.bind_some, hwords, hlayers, hcomponents]
  rfl

/-- **A node is read back from its record.** -/
theorem decode_encode {node : Node} (h : node.Encodable) : decode node.encode = .ok node := by
  have hcount : (UInt8.ofNat node.links.length).toNat = node.links.length := by
    have hle := h.layers_le
    rw [UInt8.toNat_ofNat']
    omega
  have hchecked : checkedPayload node.encode = .ok node.payload := by
    unfold checkedPayload encode
    rw [readWord_wordBytes (toNat_lt_wordCount_four _)]
    dsimp only
    rw [if_pos rfl]
  have hne : UInt8.ofNat node.links.length ≠ 0 := by
    have hpos := h.layers_pos
    rw [Ne, ← UInt8.toNat_inj, hcount]
    exact Nat.ne_of_gt hpos
  have hbody := readNode_body h []
  rw [List.append_nil] at hbody
  have hlayers : layerCount node.payload = .ok (node.links.length, node.body) := by
    unfold layerCount payload
    dsimp only
    rw [if_neg hne, hcount]
    rfl
  unfold decode
  simp only [hchecked, hlayers, bind, Except.bind, hbody]

end Node

/-- The nodes of a sound draft fit the words they are stored in. -/
theorem Draft.Sound.encodable {d : Draft} {nodes : IdMap Node} (h : d.Sound nodes) {id : ItemId} {node : Node}
    (hnode : nodes[id]? = some node) : node.Encodable := by
  have hfits := h.holds.wired.fits id node hnode
  refine ⟨hfits.layers_pos, Nat.le_trans hfits.layers_le h.valid.layerLimit_le, ?_, fun links hlinks => ?_⟩
  · rw [hfits.length]
    exact toNat_lt_wordCount_four _
  · -- the node itself is missing from its list, so the list is shorter than there are ids
    obtain ⟨layer, hlayer⟩ := List.getElem?_of_mem hlinks
    have hlist := h.holds.wired.links id node layer hnode
    have hat : node.linksAt layer = links := by rw [Node.linksAt, hlayer]; rfl
    rw [hat] at hlist
    have hle := length_le_of_nodup_ids (List.nodup_cons.mpr ⟨hlist.irrefl, hlist.nodup⟩)
    rw [List.length_cons] at hle
    exact Nat.lt_of_succ_le hle

theorem decodeNode_encode {node : Node} (h : node.Encodable) : decodeNode node.encode = .ok node := by
  unfold decodeNode
  rw [Node.decode_encode h]
  rfl

/-! ## Descriptions -/

namespace Metadata

theorem readField_wordBytes {width n : Nat} (hn : n < wordCount width) (rest : Bytes) :
    readField width (wordBytes width n ++ rest) = .ok (n, rest) := by
  unfold readField
  rw [readWord_wordBytes hn]

theorem readMetric_wordBytes (metric : Metric) (rest : Bytes) :
    readMetric (wordBytes 4 metric.index ++ rest) = .ok (metric, rest) := by
  have hindex : metric.index < wordCount 4 := by cases metric <;> decide
  unfold readMetric
  rw [readField_wordBytes hindex]
  simp only [bind, Except.bind, Metric.ofIndex?_eq_some_iff.mpr rfl]

theorem readOption_optionBytes (entryPoint : Option ItemId) (rest : Bytes) :
    readOption (optionBytes entryPoint ++ rest) = .ok (entryPoint, rest) := by
  cases entryPoint with
  | none => rfl
  | some id =>
      have htag : readField 1 (optionBytes (some id) ++ rest) = .ok (1, wordBytes 4 id.toNat ++ rest) := rfl
      unfold readOption
      simp only [htag, bind, Except.bind, readField_wordBytes (toNat_lt_wordCount_four id), pure, Except.pure,
        UInt32.ofNat_toNat]

theorem readParams_paramsBytes (params : Params) (rest : Bytes) :
    readParams (paramsBytes params ++ rest) = .ok (params, rest) := by
  unfold readParams paramsBytes
  simp only [List.append_assoc, bind, Except.bind, pure, Except.pure,
    readField_wordBytes (toNat_lt_wordCount_eight _), UInt64.ofNat_toNat]

theorem readPayload_payload (metadata : Metadata) (rest : Bytes) :
    readPayload (metadata.payload ++ rest) = .ok (metadata, rest) := by
  have htop : metadata.topLevel.toNat < wordCount 1 := metadata.topLevel.toNat_lt
  unfold readPayload payload
  simp only [List.append_assoc, bind, Except.bind, pure, Except.pure,
    readField_wordBytes (toNat_lt_wordCount_four _), readMetric_wordBytes,
    readField_wordBytes (toNat_lt_wordCount_eight _), readOption_optionBytes, readField_wordBytes htop,
    readParams_paramsBytes, UInt32.ofNat_toNat, UInt64.ofNat_toNat, UInt8.ofNat_toNat]

/-- **A description is read back from its row**, whatever bytes follow it. -/
theorem decode_encode (metadata : Metadata) (rest : Bytes) :
    decode (metadata.encode ++ rest) = .ok metadata := by
  unfold decode encode
  rw [List.append_assoc, readWord_wordBytes (toNat_lt_wordCount_four _)]
  simp only [Nat.lt_irrefl, if_false, readPayload_payload]

end Metadata

end VectorIndex
