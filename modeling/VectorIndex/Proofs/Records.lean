import VectorIndex.Proofs.Codec
import VectorIndex.Proofs.LiveScan

/-!
# `VectorIndex.Proofs.Records` — one record for each value

Reading goes through the bytes from the front. Whatever a reader accepts is what the writer of that field
puts there, followed by the rest; so the bytes that a field takes are determined by its value. For a node,
whose record must end with its last link, this makes the records of the encodable nodes exactly the accepted
byte strings (`Node.decode_eq_ok_iff`). A row of a description may go on after its last field, and its version
may be older, but the fields themselves have one written form (`Metadata.decode_eq_ok_iff`).

## Contents
- **Nodes.** What each reader accepts, `Node.decode_eq_ok_iff`, the faults that are seen before the body is
  read (`Node.HeaderFault`), and `node_records`.
- **Descriptions.** What each reader accepts, `Metadata.decode_eq_ok_iff`, and `metadata_rows`.
-/

namespace VectorIndex

/-! ## Nodes -/

/-- A word can be read unless the bytes run out. -/
theorem readWord_eq_none_iff {width : Nat} {bytes : Bytes} :
    readWord width bytes = none ↔ bytes.length < width := by
  induction width generalizing bytes with
  | zero => simp [readWord]
  | succ width ih =>
      cases bytes with
      | nil => simp [readWord]
      | cons b bytes =>
          rw [readWord, Option.map_eq_none_iff, ih, List.length_cons]
          omega

/-- Words of the same bytes are the same. -/
theorem wordBytes_inj {width n m : Nat} (hn : n < wordCount width) (hm : m < wordCount width)
    (h : wordBytes width n = wordBytes width m) : n = m := by
  have hread := readWord_wordBytes hn []
  rw [h, readWord_wordBytes hm] at hread
  exact (Prod.mk.inj (Option.some.inj hread)).1.symm

/-- Words that were read are the words written there. -/
theorem eq_wordsBytes_of_readWords {count : Nat} {bytes rest : Bytes} {words : List UInt32}
    (h : readWords count bytes = some (words, rest)) :
    bytes = Node.wordsBytes words ++ rest ∧ words.length = count := by
  induction count generalizing bytes words with
  | zero =>
      rw [readWords, Option.some.injEq, Prod.mk.injEq] at h
      obtain ⟨rfl, rfl⟩ := h
      exact ⟨rfl, rfl⟩
  | succ count ih =>
      rw [readWords] at h
      simp only [Option.bind_eq_bind, Option.bind_eq_some_iff, Prod.exists] at h
      obtain ⟨word, bytes₁, hword, words', bytes₂, hwords, heq⟩ := h
      obtain ⟨rfl, rfl⟩ := Prod.mk.inj (Option.some.inj heq)
      obtain ⟨rfl, hlt⟩ := eq_wordBytes_of_readWord hword
      obtain ⟨rfl, rfl⟩ := ih hwords
      refine ⟨?_, rfl⟩
      simp only [Node.wordsBytes, List.flatMap_cons, UInt32.toNat_ofNat_of_lt' hlt, List.append_assoc]

namespace Node

theorem eq_layerBytes_of_readLayers {count : Nat} {bytes rest : Bytes} {layers : List (List ItemId)}
    (h : readLayers count bytes = some (layers, rest)) :
    bytes = layers.flatMap layerBytes ++ rest ∧ ∀ links ∈ layers, links.length < wordCount 4 := by
  induction count generalizing bytes layers with
  | zero =>
      rw [readLayers, Option.some.injEq, Prod.mk.injEq] at h
      obtain ⟨rfl, rfl⟩ := h
      exact ⟨rfl, fun links hlinks => absurd hlinks List.not_mem_nil⟩
  | succ count ih =>
      rw [readLayers] at h
      simp only [Option.bind_eq_bind, Option.bind_eq_some_iff, Prod.exists] at h
      obtain ⟨length, bytes₁, hlength, links, bytes₂, hlinks, layers', bytes₃, hlayers, heq⟩ := h
      obtain ⟨rfl, rfl⟩ := Prod.mk.inj (Option.some.inj heq)
      obtain ⟨rfl, hlt⟩ := eq_wordBytes_of_readWord hlength
      obtain ⟨rfl, rfl⟩ := eq_wordsBytes_of_readWords hlinks
      obtain ⟨rfl, hall⟩ := ih hlayers
      refine ⟨?_, ?_⟩
      · simp only [List.flatMap_cons, layerBytes, List.append_assoc]
      · intro other hother
        rcases List.mem_cons.mp hother with rfl | hother
        · exact hlt
        · exact hall other hother

theorem eq_body_of_readNode {layers : Nat} {bytes rest : Bytes} {node : Node}
    (h : readNode layers bytes = some (node, rest)) :
    bytes = node.body ++ rest ∧ node.links.length = layers ∧ node.embedding.length < wordCount 4 ∧
      ∀ links ∈ node.links, links.length < wordCount 4 := by
  unfold readNode at h
  simp only [Option.bind_eq_bind, Option.bind_eq_some_iff, Prod.exists] at h
  obtain ⟨dimension, bytes₁, hdimension, components, bytes₂, hcomponents, links, bytes₃, hlinks, heq⟩ := h
  obtain ⟨rfl, rfl⟩ := Prod.mk.inj (Option.some.inj heq)
  obtain ⟨rfl, hlt⟩ := eq_wordBytes_of_readWord hdimension
  obtain ⟨rfl, rfl⟩ := eq_wordsBytes_of_readWords hcomponents
  obtain ⟨rfl, hall⟩ := eq_layerBytes_of_readLayers hlinks
  have hbits : (components.map Single.mk).map Single.bits = components := by
    rw [List.map_map]
    exact List.map_id' components
  refine ⟨?_, length_readLayers hlinks, by rw [List.length_map]; exact hlt, hall⟩
  simp only [body, hbits, List.length_map, List.append_assoc]

/-- A payload passes the check exactly behind its own checksum. -/
theorem checkedPayload_eq_ok_iff {bytes payload : Bytes} :
    checkedPayload bytes = .ok payload ↔ bytes = wordBytes 4 (crc32 payload).toNat ++ payload := by
  unfold checkedPayload
  constructor
  · intro h
    split at h
    · cases h
    · rename_i checksum rest hread
      obtain ⟨rfl, _⟩ := eq_wordBytes_of_readWord hread
      split at h
      · rename_i hcrc
        obtain rfl := Except.ok.inj h
        rw [hcrc]
      · cases h
  · rintro rfl
    rw [readWord_wordBytes (toNat_lt_wordCount_four _)]
    exact if_pos rfl

theorem layerCount_eq_ok_iff {payload rest : Bytes} {layers : Nat} :
    layerCount payload = .ok (layers, rest) ↔
      ∃ count : UInt8, count ≠ 0 ∧ count.toNat = layers ∧ payload = count :: rest := by
  unfold layerCount
  cases payload with
  | nil => simp
  | cons count body =>
      dsimp only
      by_cases hzero : count = 0
      · rw [if_pos hzero]
        simp [hzero]
      · rw [if_neg hzero]
        simp only [Except.ok.injEq, Prod.mk.injEq, List.cons.injEq]
        constructor
        · rintro ⟨hlayers, hrest⟩
          exact ⟨count, hzero, hlayers, rfl, hrest⟩
        · rintro ⟨_, _, hlayers, rfl, hrest⟩
          exact ⟨hlayers, hrest⟩

/-- **The accepted byte strings are the records of the encodable nodes.** -/
theorem decode_eq_ok_iff {bytes : Bytes} {node : Node} :
    decode bytes = .ok node ↔ node.Encodable ∧ bytes = node.encode := by
  constructor
  · intro h
    unfold decode at h
    rw [bind_eq_ok] at h
    obtain ⟨payload, hpayload, h⟩ := h
    rw [bind_eq_ok] at h
    obtain ⟨⟨layers, rest⟩, hcount, h⟩ := h
    obtain ⟨count, hpos, rfl, rfl⟩ := layerCount_eq_ok_iff.mp hcount
    have hread : readNode count.toNat rest = some (node, []) := by
      dsimp only at h
      split at h
      · cases h
      · rename_i found hfound
        rw [hfound, Except.ok.inj h]
      · cases h
    obtain ⟨hrest, hlayers, hdimension, hlinks⟩ := eq_body_of_readNode hread
    have hcount : UInt8.ofNat node.links.length = count := by
      rw [hlayers]
      exact UInt8.ofNat_toNat
    refine ⟨⟨?_, ?_, hdimension, hlinks⟩, ?_⟩
    · rw [hlayers]
      exact Nat.pos_of_ne_zero fun hzero => hpos (UInt8.toNat_inj.mp hzero)
    · rw [hlayers]
      exact Nat.le_of_lt_succ count.toNat_lt
    · have hpayload' : count :: rest = node.payload := by
        rw [hrest, List.append_nil, payload, hcount, body]
      rw [checkedPayload_eq_ok_iff.mp hpayload, hpayload']
      rfl
  · rintro ⟨hnode, rfl⟩
    exact decode_encode hnode

/-- No record begins with another record. -/
theorem eq_nil_of_decode_append {bytes rest : Bytes} {node other : Node} (h : decode bytes = .ok node)
    (hmore : decode (bytes ++ rest) = .ok other) : rest = [] := by
  obtain ⟨hnode, rfl⟩ := decode_eq_ok_iff.mp h
  obtain ⟨hother, heq⟩ := decode_eq_ok_iff.mp hmore
  have hpayload : node.payload ++ rest = other.payload := by
    unfold encode at heq
    rw [List.append_assoc] at heq
    exact (List.append_inj heq (by rw [length_wordBytes, length_wordBytes])).2
  obtain ⟨hcount, (hbody : node.body ++ rest = other.body)⟩ := List.cons.inj hpayload
  have hlayers : node.links.length = other.links.length := by
    have hle := hnode.layers_le
    have hle' := hother.layers_le
    have := congrArg UInt8.toNat hcount
    rw [UInt8.toNat_ofNat', UInt8.toNat_ofNat'] at this
    omega
  -- the same bytes are read as the first node with the rest, and as the second node alone
  have hfirst := readNode_body hnode rest
  have hsecond := readNode_body hother []
  rw [List.append_nil] at hsecond
  rw [hlayers, hbody, hsecond] at hfirst
  exact (Prod.mk.inj (Option.some.inj hfirst)).2.symm

/-! ### Faults seen before the body -/

/-- Why a record is refused before its body is looked at. -/
inductive HeaderFault : Bytes → RecordDamage → Prop
  | tooShort {bytes : Bytes} : bytes.length < 4 → HeaderFault bytes .nodeTooShort
  | checksum {stored : UInt32} {payload : Bytes} : stored ≠ crc32 payload →
      HeaderFault (wordBytes 4 stored.toNat ++ payload) .nodeChecksum
  | nothing : HeaderFault (wordBytes 4 (crc32 []).toNat ++ []) .nodeTruncated
  | withoutLayers {rest : Bytes} :
      HeaderFault (wordBytes 4 (crc32 (0 :: rest)).toNat ++ 0 :: rest) .nodeWithoutLayers

theorem checkedPayload_eq_error_iff {bytes : Bytes} {damage : RecordDamage} :
    checkedPayload bytes = .error damage ↔ bytes.length < 4 ∧ damage = .nodeTooShort ∨
      ∃ (stored : UInt32) (payload : Bytes), stored ≠ crc32 payload ∧
        bytes = wordBytes 4 stored.toNat ++ payload ∧ damage = .nodeChecksum := by
  unfold checkedPayload
  constructor
  · intro h
    split at h
    · rename_i hread
      exact Or.inl ⟨readWord_eq_none_iff.mp hread, (Except.error.inj h).symm⟩
    · rename_i stored payload hread
      obtain ⟨rfl, hlt⟩ := eq_wordBytes_of_readWord hread
      split at h
      · cases h
      · rename_i hcrc
        have hstored : (UInt32.ofNat stored).toNat = stored := UInt32.toNat_ofNat_of_lt' hlt
        refine Or.inr ⟨UInt32.ofNat stored, payload, fun heq => hcrc ?_, ?_, (Except.error.inj h).symm⟩
        · rw [← heq, hstored]
        · rw [hstored]
  · rintro (⟨hlength, rfl⟩ | ⟨stored, payload, hne, rfl, rfl⟩)
    · rw [readWord_eq_none_iff.mpr hlength]
    · rw [readWord_wordBytes (toNat_lt_wordCount_four stored)]
      exact if_neg fun heq => hne (UInt32.toNat_inj.mp heq).symm

theorem layerCount_eq_error_iff {payload : Bytes} {damage : RecordDamage} :
    layerCount payload = .error damage ↔
      payload = [] ∧ damage = .nodeTruncated ∨ ∃ rest, payload = 0 :: rest ∧ damage = .nodeWithoutLayers := by
  unfold layerCount
  cases payload with
  | nil => simp [eq_comm (a := damage)]
  | cons count rest =>
      dsimp only
      by_cases hzero : count = 0
      · simp [hzero, eq_comm (a := damage)]
      · simp [hzero]

/-- The payload is checked, then its layer count. -/
theorem header_eq_error_iff {bytes : Bytes} {damage : RecordDamage} :
    (checkedPayload bytes >>= layerCount) = .error damage ↔ HeaderFault bytes damage := by
  simp only [bind_eq_error, checkedPayload_eq_error_iff, checkedPayload_eq_ok_iff, layerCount_eq_error_iff]
  constructor
  · rintro ((⟨hlength, rfl⟩ | ⟨stored, payload, hne, rfl, rfl⟩) | ⟨payload, rfl, ⟨rfl, rfl⟩ | ⟨rest, rfl, rfl⟩⟩)
    · exact .tooShort hlength
    · exact .checksum hne
    · exact .nothing
    · exact .withoutLayers
  · intro h
    cases h with
    | tooShort hlength => exact Or.inl (Or.inl ⟨hlength, rfl⟩)
    | @checksum stored payload hne => exact Or.inl (Or.inr ⟨stored, payload, hne, rfl, rfl⟩)
    | nothing => exact Or.inr ⟨[], rfl, Or.inl ⟨rfl, rfl⟩⟩
    | @withoutLayers rest => exact Or.inr ⟨0 :: rest, rfl, Or.inr ⟨rest, rfl, rfl⟩⟩

/-- The level is read off the header. -/
theorem decodeLevel_eq (bytes : Bytes) :
    decodeLevel bytes = (checkedPayload bytes >>= layerCount).map fun header => header.1 - 1 := by
  unfold decodeLevel
  cases checkedPayload bytes with
  | error found => rfl
  | ok payload => cases layerCount payload <;> rfl

/-- The level is refused exactly for a fault of the header. -/
theorem decodeLevel_eq_error_iff {bytes : Bytes} {damage : RecordDamage} :
    decodeLevel bytes = .error damage ↔ HeaderFault bytes damage := by
  rw [decodeLevel_eq, ← header_eq_error_iff]
  cases checkedPayload bytes >>= layerCount with
  | error found =>
      constructor
      · intro h
        exact congrArg _ (Except.error.inj h)
      · intro h
        exact congrArg _ (Except.error.inj h)
  | ok header =>
      constructor
      · intro h
        cases h
      · intro h
        cases h

/-- So is the node, for the same reason. -/
theorem HeaderFault.decode_eq {bytes : Bytes} {damage : RecordDamage} (h : HeaderFault bytes damage) :
    decode bytes = .error damage := by
  have hheader := header_eq_error_iff.mpr h
  unfold decode
  cases hchecked : checkedPayload bytes with
  | error found =>
      rw [hchecked] at hheader
      exact congrArg _ (Except.error.inj hheader)
  | ok payload =>
      rw [hchecked] at hheader
      have hcount : layerCount payload = .error damage := hheader
      simp only [bind, Except.bind, hcount]

end Node

/-- **Nodes and their records.** The accepted byte strings are the records of the nodes whose counts fit, one
    for each; none begins with another. The front of an accepted record tells the level, and the reader of
    the level refuses a record only for a fault of its header, with the error that the whole reader gives. -/
theorem node_records (bytes : Bytes) :
    (∀ node, Node.decode bytes = .ok node ↔ node.Encodable ∧ bytes = node.encode) ∧
    (∀ other node, Node.decode bytes = .ok node → Node.decode other = .ok node → other = bytes) ∧
    (∀ rest node other, Node.decode bytes = .ok node → Node.decode (bytes ++ rest) = .ok other → rest = []) ∧
    (∀ node, Node.decode bytes = .ok node → Node.decodeLevel bytes = .ok node.level) ∧
    (∀ damage, Node.decodeLevel bytes = .error damage ↔ Node.HeaderFault bytes damage) ∧
    (∀ damage, Node.HeaderFault bytes damage → Node.decode bytes = .error damage) := by
  refine ⟨fun node => Node.decode_eq_ok_iff, ?_, ?_, ?_, ?_, ?_⟩
  · intro other node h hother
    rw [(Node.decode_eq_ok_iff.mp h).2, (Node.decode_eq_ok_iff.mp hother).2]
  · intro rest node other h hmore
    exact Node.eq_nil_of_decode_append h hmore
  · intro node h
    exact Node.decodeLevel_of_decode h
  · intro damage
    exact Node.decodeLevel_eq_error_iff
  · intro damage h
    exact h.decode_eq

/-- A node on two layers with a NaN in its vector and a link to an item that need not exist. -/
theorem node_records_twoLayers : ∃ node : Node, node.Encodable ∧ node.links.length = 2 ∧
    Node.decode node.encode = .ok node ∧ Node.decodeLevel node.encode = .ok 1 ∧
    ∀ rest other, Node.decode (node.encode ++ rest) = .ok other → rest = [] := by
  let node : Node := ⟨[⟨0x7fc00001⟩, ⟨0x80000000⟩], [[4, 7, 9], [0xffffffff]]⟩
  have hnode : node.Encodable := ⟨by decide, by decide, by decide, by decide⟩
  have h := node_records node.encode
  have hdecode : Node.decode node.encode = .ok node := (h.1 node).mpr ⟨hnode, rfl⟩
  exact ⟨node, hnode, rfl, hdecode, h.2.2.2.1 node hdecode, fun rest other => h.2.2.1 rest node other hdecode⟩

/-! ## Descriptions -/

namespace Metadata

variable {bytes rest : Bytes}

theorem eq_wordBytes_of_readField {width n : Nat} (h : readField width bytes = .ok (n, rest)) :
    bytes = wordBytes width n ++ rest ∧ n < wordCount width := by
  unfold readField at h
  split at h
  · cases h
  · rename_i field hread
    obtain rfl := Except.ok.inj h
    exact eq_wordBytes_of_readWord hread

theorem eq_wordBytes_of_readMetric {metric : Metric} (h : readMetric bytes = .ok (metric, rest)) :
    bytes = wordBytes 4 metric.index ++ rest := by
  unfold readMetric at h
  rw [bind_eq_ok] at h
  obtain ⟨⟨index, rest'⟩, hread, h⟩ := h
  obtain ⟨rfl, _⟩ := eq_wordBytes_of_readField hread
  dsimp only at h
  split at h
  · cases h
  · rename_i found hindex
    obtain ⟨rfl, rfl⟩ := Prod.mk.inj (Except.ok.inj h)
    rw [Metric.ofIndex?_eq_some_iff.mp hindex]

theorem eq_optionBytes_of_readOption {entryPoint : Option ItemId}
    (h : readOption bytes = .ok (entryPoint, rest)) : bytes = optionBytes entryPoint ++ rest := by
  unfold readOption at h
  rw [bind_eq_ok] at h
  obtain ⟨⟨tag, rest'⟩, hread, h⟩ := h
  obtain ⟨rfl, _⟩ := eq_wordBytes_of_readField hread
  dsimp only at h
  split at h
  · obtain ⟨rfl, rfl⟩ := Prod.mk.inj (Except.ok.inj h)
    rfl
  · rw [bind_eq_ok] at h
    obtain ⟨⟨id, rest''⟩, hid, h⟩ := h
    obtain ⟨rfl, hlt⟩ := eq_wordBytes_of_readField hid
    obtain ⟨rfl, rfl⟩ := Prod.mk.inj (Except.ok.inj h)
    simp only [optionBytes, UInt32.toNat_ofNat_of_lt' hlt]
    rfl
  · cases h

theorem eq_paramsBytes_of_readParams {params : Params} (h : readParams bytes = .ok (params, rest)) :
    bytes = paramsBytes params ++ rest := by
  unfold readParams at h
  obtain ⟨⟨degree, bytes₁⟩, h₁, h⟩ := bind_eq_ok.mp h
  obtain ⟨⟨baseDegree, bytes₂⟩, h₂, h⟩ := bind_eq_ok.mp h
  obtain ⟨⟨buildBeam, bytes₃⟩, h₃, h⟩ := bind_eq_ok.mp h
  obtain ⟨⟨levelScale, bytes₄⟩, h₄, h⟩ := bind_eq_ok.mp h
  obtain ⟨⟨layerLimit, bytes₅⟩, h₅, h⟩ := bind_eq_ok.mp h
  obtain ⟨rfl, rfl⟩ := Prod.mk.inj (Except.ok.inj h)
  obtain ⟨rfl, hlt₁⟩ := eq_wordBytes_of_readField h₁
  obtain ⟨rfl, hlt₂⟩ := eq_wordBytes_of_readField h₂
  obtain ⟨rfl, hlt₃⟩ := eq_wordBytes_of_readField h₃
  obtain ⟨rfl, hlt₄⟩ := eq_wordBytes_of_readField h₄
  obtain ⟨rfl, hlt₅⟩ := eq_wordBytes_of_readField h₅
  simp only [paramsBytes, UInt64.toNat_ofNat_of_lt' hlt₁, UInt64.toNat_ofNat_of_lt' hlt₂,
    UInt64.toNat_ofNat_of_lt' hlt₃, UInt64.toNat_ofNat_of_lt' hlt₄, UInt64.toNat_ofNat_of_lt' hlt₅,
    List.append_assoc]

theorem eq_payload_of_readPayload {metadata : Metadata} (h : readPayload bytes = .ok (metadata, rest)) :
    bytes = metadata.payload ++ rest := by
  unfold readPayload at h
  obtain ⟨⟨dimension, bytes₁⟩, h₁, h⟩ := bind_eq_ok.mp h
  obtain ⟨⟨metric, bytes₂⟩, h₂, h⟩ := bind_eq_ok.mp h
  obtain ⟨⟨size, bytes₃⟩, h₃, h⟩ := bind_eq_ok.mp h
  obtain ⟨⟨entryPoint, bytes₄⟩, h₄, h⟩ := bind_eq_ok.mp h
  obtain ⟨⟨topLevel, bytes₅⟩, h₅, h⟩ := bind_eq_ok.mp h
  obtain ⟨⟨params, bytes₆⟩, h₆, h⟩ := bind_eq_ok.mp h
  obtain ⟨rfl, rfl⟩ := Prod.mk.inj (Except.ok.inj h)
  obtain ⟨rfl, hlt₁⟩ := eq_wordBytes_of_readField h₁
  obtain rfl := eq_wordBytes_of_readMetric h₂
  obtain ⟨rfl, hlt₃⟩ := eq_wordBytes_of_readField h₃
  obtain rfl := eq_optionBytes_of_readOption h₄
  obtain ⟨rfl, hlt₅⟩ := eq_wordBytes_of_readField h₅
  obtain rfl := eq_paramsBytes_of_readParams h₆
  have htop : (UInt8.ofNat topLevel).toNat = topLevel := UInt8.toNat_ofNat_of_lt' hlt₅
  simp only [payload, UInt32.toNat_ofNat_of_lt' hlt₁, UInt64.toNat_ofNat_of_lt' hlt₃, htop, List.append_assoc]

/-- **The accepted rows**: a version that is not too new, the fields in their one written form, and then
    anything. -/
theorem decode_eq_ok_iff {metadata : Metadata} :
    decode bytes = .ok metadata ↔ ∃ (version : UInt32) (rest : Bytes), version ≤ supportedVersion ∧
      bytes = wordBytes 4 version.toNat ++ metadata.payload ++ rest := by
  constructor
  · intro h
    unfold decode at h
    split at h
    · cases h
    · rename_i version fields hread
      obtain ⟨rfl, hlt⟩ := eq_wordBytes_of_readWord hread
      split at h
      · cases h
      · rename_i hversion
        have hstored : (UInt32.ofNat version).toNat = version := UInt32.toNat_ofNat_of_lt' hlt
        split at h
        · rename_i found rest hfields
          obtain rfl := Except.ok.inj h
          refine ⟨UInt32.ofNat version, rest, ?_, ?_⟩
          · rw [UInt32.le_iff_toNat_le, hstored]
            exact Nat.le_of_not_lt hversion
          · rw [hstored, eq_payload_of_readPayload hfields, List.append_assoc]
        · cases h
  · rintro ⟨version, rest, hversion, rfl⟩
    have hold : ¬ supportedVersion.toNat < version.toNat :=
      Nat.not_lt_of_le (UInt32.le_iff_toNat_le.mp hversion)
    unfold decode
    rw [List.append_assoc, readWord_wordBytes (toNat_lt_wordCount_four _)]
    simp only [if_neg hold, readPayload_payload]

/-- A row is refused for its version exactly when the version is too new. -/
theorem decode_eq_incompatible_iff (version found supported : UInt32) (rest : Bytes) :
    decode (wordBytes 4 version.toNat ++ rest) = .error (.incompatibleVersion found supported) ↔
      supportedVersion < version ∧ found = version ∧ supported = supportedVersion := by
  unfold decode
  rw [readWord_wordBytes (toNat_lt_wordCount_four _), UInt32.lt_iff_toNat_lt]
  dsimp only
  by_cases hnew : supportedVersion.toNat < version.toNat
  · rw [if_pos hnew, UInt32.ofNat_toNat]
    simp only [Except.error.injEq, StorageError.incompatibleVersion.injEq]
    constructor
    · rintro ⟨rfl, rfl⟩
      exact ⟨hnew, rfl, rfl⟩
    · rintro ⟨_, rfl, rfl⟩
      exact ⟨rfl, rfl⟩
  · rw [if_neg hnew]
    constructor
    · intro h
      split at h <;> cases h
    · rintro ⟨h, _⟩
      exact absurd h hnew

/-- A row that breaks off is damaged. -/
theorem decode_eq_corrupted_of_isPrefix {metadata : Metadata} {front : Bytes} (h : front <+: metadata.encode)
    (hne : front ≠ metadata.encode) : ∃ damage, decode front = .error (.corrupted damage) := by
  obtain ⟨missing, happend⟩ := h
  have hmissing : missing ≠ [] := by
    rintro rfl
    exact hne (by rw [← happend, List.append_nil])
  unfold decode
  cases hread : readWord 4 front with
  | none => exact ⟨_, rfl⟩
  | some found =>
      obtain ⟨version, fields⟩ := found
      obtain ⟨rfl, hlt⟩ := eq_wordBytes_of_readWord hread
      unfold encode at happend
      rw [List.append_assoc] at happend
      obtain ⟨hversion, hfields⟩ := List.append_inj happend (by rw [length_wordBytes, length_wordBytes])
      obtain rfl := wordBytes_inj hlt (toNat_lt_wordCount_four _) hversion
      dsimp only
      rw [if_neg (Nat.lt_irrefl _)]
      cases hpayload : readPayload fields with
      | error damage => exact ⟨damage, rfl⟩
      | ok found =>
          obtain ⟨other, rest⟩ := found
          -- the fields that were read, the rest and what is missing are the fields of the whole row
          obtain rfl := eq_payload_of_readPayload hpayload
          have hwhole := readPayload_payload metadata []
          rw [List.append_nil, ← hfields, List.append_assoc, readPayload_payload] at hwhole
          have hend := (Prod.mk.inj (Except.ok.inj hwhole)).2
          exact absurd (List.append_eq_nil_iff.mp hend).2 hmissing

/-- A row that is long enough begins with a version. -/
theorem exists_version (hlength : 4 ≤ bytes.length) :
    ∃ (version : UInt32) (rest : Bytes), bytes = wordBytes 4 version.toNat ++ rest := by
  cases hread : readWord 4 bytes with
  | none => exact absurd (readWord_eq_none_iff.mp hread) (Nat.not_lt_of_le hlength)
  | some found =>
      obtain ⟨version, rest⟩ := found
      obtain ⟨heq, hlt⟩ := eq_wordBytes_of_readWord hread
      refine ⟨UInt32.ofNat version, rest, ?_⟩
      rw [UInt32.toNat_ofNat_of_lt' hlt]
      exact heq

theorem drop_of_decode {metadata : Metadata} (h : decode bytes = .ok metadata) :
    ∃ rest, bytes.drop 4 = metadata.payload ++ rest := by
  obtain ⟨version, rest, _, rfl⟩ := decode_eq_ok_iff.mp h
  refine ⟨rest, ?_⟩
  rw [List.append_assoc]
  exact List.drop_left' (length_wordBytes 4 version.toNat)

/-- The fields of one description do not begin with those of another. -/
theorem eq_of_payload_append {metadata metadata' : Metadata} {rest' : Bytes}
    (h : metadata.payload ++ rest = metadata'.payload ++ rest') : metadata = metadata' := by
  have hread := readPayload_payload metadata rest
  rw [h, readPayload_payload] at hread
  exact (Prod.mk.inj (Except.ok.inj hread)).1.symm

end Metadata

/-- **Descriptions and their rows.** A description is read back from its row, whatever follows, also in the
    older layout; a row that breaks off is refused as damaged. A row is refused for its version exactly when
    its first word is too new. What is accepted has after the version the bytes that would be written for it,
    so that rows with the same bytes there are not read as different descriptions. -/
theorem metadata_rows :
    (∀ (metadata : Metadata) (rest : Bytes), Metadata.decode (metadata.encode ++ rest) = .ok metadata ∧
      Metadata.decode (wordBytes 4 0 ++ metadata.payload ++ rest) = .ok metadata) ∧
    (∀ (metadata : Metadata) (front : Bytes), front <+: metadata.encode → front ≠ metadata.encode →
      ∃ damage, Metadata.decode front = .error (.corrupted damage)) ∧
    (∀ bytes : Bytes, 4 ≤ bytes.length → ∃ (version : UInt32) (rest : Bytes),
      bytes = wordBytes 4 version.toNat ++ rest ∧
      ∀ found supported, Metadata.decode bytes = .error (.incompatibleVersion found supported) ↔
        1 < version ∧ found = version ∧ supported = 1) ∧
    (∀ (bytes : Bytes) (metadata : Metadata), Metadata.decode bytes = .ok metadata →
      metadata.encode.drop 4 <+: bytes.drop 4 ∧
      ∀ (other : Bytes) (metadata' : Metadata), Metadata.decode other = .ok metadata' →
        other.drop 4 = bytes.drop 4 → metadata' = metadata) := by
  refine ⟨fun metadata rest => ⟨Metadata.decode_encode metadata rest, ?_⟩, ?_, ?_, ?_⟩
  · exact Metadata.decode_eq_ok_iff.mpr ⟨0, rest, by decide, rfl⟩
  · intro metadata front hfront hne
    exact Metadata.decode_eq_corrupted_of_isPrefix hfront hne
  · intro bytes hlength
    obtain ⟨version, rest, rfl⟩ := Metadata.exists_version hlength
    refine ⟨version, rest, rfl, fun found supported => ?_⟩
    exact Metadata.decode_eq_incompatible_iff version found supported rest
  · intro bytes metadata h
    obtain ⟨rest, hrest⟩ := Metadata.drop_of_decode h
    refine ⟨⟨rest, ?_⟩, fun other metadata' hother heq => ?_⟩
    · have hfields : metadata.encode.drop 4 = metadata.payload := List.drop_left' (length_wordBytes 4 _)
      rw [hrest, hfields]
    · obtain ⟨rest', hrest'⟩ := Metadata.drop_of_decode hother
      exact Metadata.eq_of_payload_append (hrest'.symm.trans (heq.trans hrest))

/-- A row with an entry point and a NaN among its parameters, cut off after the tag of the entry point. -/
theorem metadata_rows_withEntry : ∃ metadata : Metadata, metadata.entryPoint = some 5 ∧
    Metadata.decode (wordBytes 4 0 ++ metadata.payload ++ [9, 9]) = .ok metadata ∧
    (∃ damage, Metadata.decode (metadata.encode.take 21) = .error (.corrupted damage)) ∧
    Metadata.decode (metadata.encode ++ [7]) = .ok metadata ∧
    metadata.encode.drop 4 <+: (metadata.encode ++ [7]).drop 4 := by
  let metadata : Metadata := ⟨3, .cosine, 12, some 5, 2, ⟨4, 8, 32, ⟨0x7ff8000000000001⟩, 16⟩⟩
  obtain ⟨hback, hcut, _, hfields⟩ := metadata_rows
  have hrow := (hback metadata [7]).1
  refine ⟨metadata, rfl, (hback metadata [9, 9]).2, ?_, hrow, (hfields _ metadata hrow).1⟩
  exact hcut metadata _ (List.take_prefix 21 metadata.encode) (by decide)

end VectorIndex
