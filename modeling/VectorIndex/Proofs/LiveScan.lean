import VectorIndex.Draft.Deletion
import VectorIndex.Proofs.Mirror

/-!
# `VectorIndex.Proofs.LiveScan` — scans of a draft

A draft keeps its live nodes in two places: the nodes it touched, and the rows that it neither touched nor
deleted. A scan goes through both. When the draft shows a map of nodes, the two together are that map
(`Draft.getElem?_eq_some_iff`), and so each scan answers for the map.

## Contents
- **Both places.** `Draft.mem_untouchedRows`, `Draft.getElem?_eq_some_iff`, `Draft.contains_eq`.
- **The scans.** `Draft.mem_liveIds`, `Draft.currentBacklinks_eq`, `Draft.levels_eq`.
-/

namespace VectorIndex

/-! ## The level of a record -/

theorem Node.length_readLayers {count : Nat} {bytes rest : Bytes} {layers : List (List ItemId)}
    (h : Node.readLayers count bytes = some (layers, rest)) : layers.length = count := by
  induction count generalizing bytes rest layers with
  | zero =>
      rw [Node.readLayers, Option.some.injEq, Prod.mk.injEq] at h
      rw [← h.1]
      rfl
  | succ count ih =>
      rw [Node.readLayers] at h
      simp only [Option.bind_eq_bind, Option.bind_eq_some_iff, Prod.exists] at h
      obtain ⟨length, bytes₁, _, links, bytes₂, _, layers', bytes₃, hlayers, heq⟩ := h
      obtain ⟨rfl, _⟩ := Prod.mk.inj (Option.some.inj heq)
      rw [List.length_cons, ih hlayers]

/-- The front of a record tells the level of its node. -/
theorem Node.decodeLevel_of_decode {record : Bytes} {node : Node} (h : Node.decode record = .ok node) :
    Node.decodeLevel record = .ok node.level := by
  unfold Node.decode at h
  rw [bind_eq_ok] at h
  obtain ⟨payload, hpayload, h⟩ := h
  rw [bind_eq_ok] at h
  obtain ⟨⟨layers, body⟩, hcount, h⟩ := h
  have hlevel : layers - 1 = node.level := by
    dsimp only at h
    split at h
    · cases h
    · rename_i found hread
      obtain rfl := Except.ok.inj h
      unfold Node.readNode at hread
      simp only [Option.bind_eq_bind, Option.bind_eq_some_iff, Prod.exists] at hread
      obtain ⟨_, _, _, _, _, _, links, _, hlinks, heq⟩ := hread
      obtain ⟨rfl, _⟩ := Prod.mk.inj (Option.some.inj heq)
      rw [← Node.length_readLayers hlinks]
      rfl
    · cases h
  unfold Node.decodeLevel
  rw [hpayload]
  simp only [bind, Except.bind, hcount, hlevel]
  rfl

theorem decodeNodeLevel_of_decodeNode {record : Bytes} {node : Node} (h : decodeNode record = .ok node) :
    decodeNodeLevel record = .ok node.level := by
  unfold decodeNode at h
  unfold decodeNodeLevel
  rw [mapError_eq_ok] at h ⊢
  exact Node.decodeLevel_of_decode h

/-! ## Both places -/

namespace Draft

variable {d : Draft} {nodes : IdMap Node}

theorem mem_untouchedRows {id : ItemId} {record : Bytes} :
    (id, record) ∈ d.untouchedRows ↔ d.stored[id]? = some record ∧ id ∉ d.touched ∧ id ∉ d.deleted := by
  unfold untouchedRows
  rw [List.mem_filter, Std.ExtTreeMap.mem_toList_iff_getElem?_eq_some]
  simp [← Bool.not_eq_true]

theorem touched_node (h : d.graph.Shows nodes) {id : ItemId} {node : Node}
    (hnode : d.touched[id]? = some node) : nodes[id]? = some node := by
  have hid : d.node id = .ok nodes[id]? := h id
  unfold Draft.node at hid
  rw [hnode, Except.ok.injEq] at hid
  exact hid.symm

/-- A row that counts is not damaged, and its node is live. -/
theorem untouched_node (h : d.graph.Shows nodes) {id : ItemId} {record : Bytes}
    (hrow : (id, record) ∈ d.untouchedRows) :
    ∃ node, decodeNode record = .ok node ∧ nodes[id]? = some node := by
  obtain ⟨hstored, htouched, hdeleted⟩ := mem_untouchedRows.mp hrow
  have hid : d.node id = .ok nodes[id]? := h id
  have hkept : ¬d.deleted.contains id = true := fun hc => hdeleted (Std.ExtTreeSet.mem_iff_contains.mpr hc)
  unfold Draft.node Rows.node at hid
  rw [not_mem_iff.mp htouched, hstored] at hid
  dsimp only at hid
  rw [if_neg hkept] at hid
  cases hdecode : decodeNode record with
  | error e =>
      rw [hdecode] at hid
      cases hid
  | ok node =>
      rw [hdecode] at hid
      exact ⟨node, rfl, (Except.ok.inj hid).symm⟩

theorem exists_decoded (h : d.graph.Shows nodes) :
    ∀ id record, (id, record) ∈ d.untouchedRows → ∃ node, decodeNode record = .ok node :=
  fun _ _ hrow => (untouched_node h hrow).imp fun _ hnode => hnode.1

/-- **The live nodes are the touched ones and those of the untouched rows.** -/
theorem getElem?_eq_some_iff (h : d.graph.Shows nodes) {id : ItemId} {node : Node} :
    nodes[id]? = some node ↔ (id, node) ∈ d.touched.toList ∨
      ∃ record, (id, record) ∈ d.untouchedRows ∧ decodeNode record = .ok node := by
  rw [Std.ExtTreeMap.mem_toList_iff_getElem?_eq_some]
  constructor
  · intro hnode
    have hid : d.node id = .ok nodes[id]? := h id
    unfold Draft.node Rows.node at hid
    rw [hnode] at hid
    -- the read looks at the touched nodes first, then at the rows that are not deleted
    cases htouched : d.touched[id]? with
    | some node' =>
        rw [htouched] at hid
        exact Or.inl (Except.ok.inj hid)
    | none =>
        rw [htouched] at hid
        dsimp only at hid
        by_cases hdeleted : d.deleted.contains id = true
        · rw [if_pos hdeleted] at hid
          cases Except.ok.inj hid
        · rw [if_neg hdeleted] at hid
          cases hstored : d.stored[id]? with
          | none =>
              rw [hstored] at hid
              cases Except.ok.inj hid
          | some record =>
              have hrow : (id, record) ∈ d.untouchedRows := by
                refine mem_untouchedRows.mpr ⟨hstored, not_mem_iff.mpr htouched, fun hc => hdeleted ?_⟩
                exact Std.ExtTreeSet.mem_iff_contains.mp hc
              obtain ⟨node', hdecode, hnode'⟩ := untouched_node h hrow
              obtain rfl := Option.some.inj (hnode'.symm.trans hnode)
              exact Or.inr ⟨record, hrow, hdecode⟩
  · rintro (htouched | ⟨record, hrow, hdecode⟩)
    · exact touched_node h htouched
    · obtain ⟨node', hdecode', hnode'⟩ := untouched_node h hrow
      obtain rfl := Except.ok.inj (hdecode'.symm.trans hdecode)
      exact hnode'

theorem mem_iff_touched_or_row (h : d.graph.Shows nodes) {id : ItemId} :
    id ∈ nodes ↔ id ∈ d.touched ∨ ∃ record, (id, record) ∈ d.untouchedRows := by
  rw [mem_iff_exists, mem_iff_exists]
  simp only [getElem?_eq_some_iff h, Std.ExtTreeMap.mem_toList_iff_getElem?_eq_some]
  constructor
  · rintro ⟨node, hnode | ⟨record, hrow, _⟩⟩
    · exact Or.inl ⟨node, hnode⟩
    · exact Or.inr ⟨record, hrow⟩
  · rintro (⟨node, hnode⟩ | ⟨record, hrow⟩)
    · exact ⟨node, Or.inl hnode⟩
    · obtain ⟨node, hdecode, _⟩ := untouched_node h hrow
      exact ⟨node, Or.inr ⟨record, hrow, hdecode⟩⟩

/-- The membership test looks at the map. -/
theorem contains_eq (h : d.graph.Shows nodes) (id : ItemId) : d.contains id = true ↔ id ∈ nodes := by
  have hrow : (∃ record, (id, record) ∈ d.untouchedRows) ↔
      id ∈ d.stored ∧ id ∉ d.touched ∧ id ∉ d.deleted := by
    rw [mem_iff_exists]
    simp only [mem_untouchedRows, exists_and_right]
  rw [mem_iff_touched_or_row h, hrow]
  unfold Draft.contains
  simp only [Bool.or_eq_true, Bool.and_eq_true, Bool.not_eq_true', ← Bool.not_eq_true,
    ← Std.ExtTreeMap.mem_iff_contains, ← Std.ExtTreeSet.mem_iff_contains]
  by_cases htouched : id ∈ d.touched
  · simp [htouched]
  · simp [htouched, and_comm]

/-! ## The scans -/

theorem mem_foldl_insert {ids : List ItemId} {s : IdSet} {id : ItemId} :
    id ∈ ids.foldl (·.insert ·) s ↔ id ∈ ids ∨ id ∈ s := by
  induction ids generalizing s with
  | nil => simp
  | cons other ids ih =>
      rw [List.foldl_cons, ih, mem_insert_id, List.mem_cons]
      constructor
      · rintro (hid | rfl | hs)
        · exact Or.inl (Or.inr hid)
        · exact Or.inl (Or.inl rfl)
        · exact Or.inr hs
      · rintro ((rfl | hid) | hs)
        · exact Or.inr (Or.inl rfl)
        · exact Or.inl hid
        · exact Or.inr (Or.inr hs)

/-- The scanned ids are those of the map. -/
theorem mem_liveIds (h : d.graph.Shows nodes) (id : ItemId) : id ∈ d.liveIds ↔ id ∈ nodes := by
  unfold liveIds
  rw [mem_foldl_insert, List.mem_append, Std.ExtTreeMap.mem_keys, mem_iff_touched_or_row h]
  simp only [List.mem_map, Prod.exists, exists_and_right, exists_eq_right, Std.ExtTreeSet.not_mem_empty,
    or_false]

/-- Every link leads to a live item. -/
def Resolves (nodes : IdMap Node) : Prop :=
  ∀ (source : ItemId) (node : Node) (layer : Nat) (target : ItemId), nodes[source]? = some node →
    target ∈ node.linksAt layer → target ∈ nodes

/-- The nodes of the rows that decode. -/
def decodedRows (rows : List (ItemId × Bytes)) : List (ItemId × Node) :=
  rows.filterMap fun (id, record) => (decodeNode record).toOption.map fun node => (id, node)

theorem mem_decodedRows {rows : List (ItemId × Bytes)} {id : ItemId} {node : Node} :
    (id, node) ∈ decodedRows rows ↔ ∃ record, (id, record) ∈ rows ∧ decodeNode record = .ok node := by
  unfold decodedRows
  rw [List.mem_filterMap]
  constructor
  · rintro ⟨⟨id', record⟩, hrow, heq⟩
    obtain ⟨node', hdecode, hpair⟩ := Option.map_eq_some_iff.mp heq
    obtain ⟨rfl, rfl⟩ := Prod.mk.inj hpair
    exact ⟨record, hrow, toOption_eq_some.mp hdecode⟩
  · rintro ⟨record, hrow, hdecode⟩
    exact ⟨(id, record), hrow, by simp only [hdecode, Except.toOption, Option.map_some]⟩

theorem decodedRows_cons {rows : List (ItemId × Bytes)} {id : ItemId} {record : Bytes} {node : Node}
    (h : decodeNode record = .ok node) :
    decodedRows ((id, record) :: rows) = (id, node) :: decodedRows rows := by
  unfold decodedRows
  rw [List.filterMap_cons_some]
  simp only [h, Except.toOption, Option.map_some]

/-- If all rows decode, a scan of them goes through. -/
theorem addStored_eq {rows : List (ItemId × Bytes)} (b : Backlinks)
    (h : ∀ id record, (id, record) ∈ rows → ∃ node, decodeNode record = .ok node) :
    addStored b rows = .ok ((decodedRows rows).foldl (fun b (id, node) => b.addNode id node) b) := by
  induction rows generalizing b with
  | nil => rfl
  | cons row rows ih =>
      obtain ⟨id, record⟩ := row
      obtain ⟨node, hdecode⟩ := h id record List.mem_cons_self
      unfold addStored
      rw [hdecode, ok_bind, decodedRows_cons hdecode, List.foldl_cons]
      exact ih (b.addNode id node) fun id' record' hrow => h id' record' (List.mem_cons_of_mem _ hrow)

theorem storedLevels_eq {rows : List (ItemId × Bytes)}
    (h : ∀ id record, (id, record) ∈ rows → ∃ node, decodeNode record = .ok node) :
    storedLevels rows = .ok ((decodedRows rows).map fun (id, node) => (id, node.level)) := by
  induction rows with
  | nil => rfl
  | cons row rows ih =>
      obtain ⟨id, record⟩ := row
      obtain ⟨node, hdecode⟩ := h id record List.mem_cons_self
      unfold storedLevels
      rw [decodeNodeLevel_of_decodeNode hdecode, ok_bind,
        ih fun id' record' hrow => h id' record' (List.mem_cons_of_mem _ hrow), decodedRows_cons hdecode]
      rfl

/-- A scan finds the reverse of the live links, if no link dangles. -/
theorem scannedBacklinks_eq (h : d.graph.Shows nodes) (hlinks : Resolves nodes) :
    ∃ b, d.scannedBacklinks = .ok b ∧ b.Mirrors nodes := by
  refine ⟨_, addStored_eq _ (exists_decoded h), fun layer source target => ?_⟩
  rw [Backlinks.mem_sourceSet_addNodes, Backlinks.mem_sourceSet_addNodes, Backlinks.sourceSet_empty]
  have hsource : ((∃ node, (source, node) ∈ decodedRows d.untouchedRows ∧ target ∈ node.linksAt layer) ∨
      ∃ node, (source, node) ∈ d.touched.toList ∧ target ∈ node.linksAt layer) ↔
      ∃ node, nodes[source]? = some node ∧ target ∈ node.linksAt layer := by
    simp only [mem_decodedRows, getElem?_eq_some_iff h, or_and_right, exists_or]
    exact or_comm
  rw [← or_assoc, hsource]
  unfold Follows
  constructor
  · rintro (⟨node, hnode, hlink⟩ | hempty)
    · exact ⟨⟨node, hnode, hlink⟩, hlinks source node layer target hnode hlink⟩
    · exact absurd hempty Std.ExtTreeSet.not_mem_empty
  · exact fun hlink => Or.inl hlink.1

theorem currentBacklinks_eq (h : d.graph.Shows nodes) (hlinks : Resolves nodes)
    (hkept : ∀ b, d.backlinks = some b → b.Mirrors nodes) :
    ∃ b, d.currentBacklinks = .ok b ∧ b.Mirrors nodes := by
  unfold currentBacklinks
  cases hb : d.backlinks with
  | none => exact scannedBacklinks_eq h hlinks
  | some b => exact ⟨b, rfl, hkept b hb⟩

/-- The scanned levels are those of the live nodes. -/
theorem levels_eq (h : d.graph.Shows nodes) :
    ∃ levels, d.levels = .ok levels ∧
      ∀ id level, (id, level) ∈ levels ↔ ∃ node, nodes[id]? = some node ∧ node.level = level := by
  refine ⟨(d.touched.toList ++ decodedRows d.untouchedRows).map fun (id, node) => (id, node.level), ?_,
    fun id level => ?_⟩
  · unfold levels
    rw [storedLevels_eq (exists_decoded h), ok_bind, List.map_append]
    rfl
  · simp only [getElem?_eq_some_iff h, ← mem_decodedRows, ← List.mem_append]
    rw [List.mem_map]
    constructor
    · rintro ⟨⟨id', node⟩, hnode, heq⟩
      obtain ⟨rfl, rfl⟩ := Prod.mk.inj heq
      exact ⟨node, hnode, rfl⟩
    · rintro ⟨node, hnode, rfl⟩
      exact ⟨(id, node), hnode, rfl⟩

end Draft

end VectorIndex
