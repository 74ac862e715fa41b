import Mathlib.Algebra.Order.BigOperators.Group.List
import Mathlib.Algebra.Order.Ring.Nat
import VectorIndex.Proofs.Search

/-!
# `VectorIndex.Proofs.Counts` — statistics are counts

A scan records one node after another and lengthens its list of layers whenever a higher node comes. What it has
in the end is said at one go (`Statistics.layers_ofNodes`): a layer for every list of the highest node, and for
each layer the number of nodes that have it and the number of links on it. Sums and maxima do not depend on the
order, so neither do the statistics (`Statistics.ofNodes_perm`).

A committed index adds that the highest level is the one in its description, that the base layer has every node,
and that lists keep to their caps.

## Contents
- **One node.** `countAt`, `length_addLists`, `countAt_addLists`, `nodeTotal_addLists`, `linkTotal_addLists`.
- **All nodes.** `depth`, `nodesOn`, `linksOn`, `layers_ofNodes`, `ofNodes_perm`, `listCount_ofNodes`,
  `linkCount_ofNodes`.
- **Committed indexes.** `liveNodes`, `Committed.statistics_eq`, `WellFormed.depth_liveNodes`,
  `WellFormed.listTotal_lt`.
- **Result.** `statistics_count`.
-/

namespace VectorIndex

namespace Statistics

/-! ## One node -/

/-- The counts of a layer, zero if nothing was recorded there. -/
def countAt (counts : List LayerCount) (layer : Nat) : LayerCount := counts[layer]?.getD ⟨0, 0⟩

theorem countAt_nil (layer : Nat) : countAt [] layer = ⟨0, 0⟩ := rfl

theorem countAt_cons_zero (count : LayerCount) (counts : List LayerCount) :
    countAt (count :: counts) 0 = count := rfl

theorem countAt_cons_succ (count : LayerCount) (counts : List LayerCount) (layer : Nat) :
    countAt (count :: counts) (layer + 1) = countAt counts layer := rfl

/-- The list of layers grows to the height of the node. -/
theorem length_addLists (counts : List LayerCount) (lists : List (List ItemId)) :
    (addLists counts lists).length = max counts.length lists.length := by
  induction lists generalizing counts with
  | nil => cases counts <;> simp [addLists]
  | cons list lists ih =>
      cases counts with
      | nil => simp [addLists, ih]
      | cons count counts => simp only [addLists, List.length_cons, ih, Nat.succ_max_succ]

/-- Every layer of the node has one node more, and the links of its list. -/
theorem countAt_addLists (counts : List LayerCount) (lists : List (List ItemId)) (layer : Nat) :
    countAt (addLists counts lists) layer =
      ⟨(countAt counts layer).nodes + if layer < lists.length then 1 else 0,
        (countAt counts layer).links + (lists[layer]?.getD []).length⟩ := by
  induction lists generalizing counts layer with
  | nil => cases counts <;> simp [addLists]
  | cons list lists ih =>
      cases counts with
      | nil =>
          cases layer with
          | zero => simp [addLists, countAt_cons_zero, countAt_nil]
          | succ layer => simp [addLists, countAt_cons_succ, countAt_nil, ih]
      | cons count counts =>
          cases layer with
          | zero => simp [addLists, countAt_cons_zero]
          | succ layer => simp [addLists, countAt_cons_succ, ih]

theorem nodeTotal_addLists (counts : List LayerCount) (lists : List (List ItemId)) :
    ((addLists counts lists).map LayerCount.nodes).sum =
      (counts.map LayerCount.nodes).sum + lists.length := by
  induction lists generalizing counts with
  | nil => cases counts <;> simp [addLists]
  | cons list lists ih =>
      cases counts with
      | nil => simp [addLists, ih]; omega
      | cons count counts => simp [addLists, ih]; omega

theorem linkTotal_addLists (counts : List LayerCount) (lists : List (List ItemId)) :
    ((addLists counts lists).map LayerCount.links).sum =
      (counts.map LayerCount.links).sum + (lists.map List.length).sum := by
  induction lists generalizing counts with
  | nil => cases counts <;> simp [addLists]
  | cons list lists ih =>
      cases counts with
      | nil => simp [addLists, ih]
      | cons count counts => simp [addLists, ih]; omega

/-! ## All nodes -/

/-- The number of layers of the highest node. -/
def depth (nodes : List Node) : Nat := (nodes.map fun node => node.links.length).foldr max 0

/-- How many nodes have the layer. -/
def nodesOn (nodes : List Node) (layer : Nat) : Nat := nodes.countP fun node => layer < node.links.length

/-- How many links the nodes have on the layer. -/
def linksOn (nodes : List Node) (layer : Nat) : Nat := (nodes.map fun node => (node.linksAt layer).length).sum

/-- The number of link lists of some nodes. -/
def listTotal (nodes : List Node) : Nat := (nodes.map fun node => node.links.length).sum

/-- The number of links of some nodes. -/
def linkTotal (nodes : List Node) : Nat := (nodes.map fun node => (node.links.map List.length).sum).sum

/-- The node recorded last. -/
theorem ofNodes_snoc (nodes : List Node) (node : Node) :
    ofNodes (nodes ++ [node]) = (ofNodes nodes).record node := List.foldl_append

theorem items_ofNodes (nodes : List Node) : (ofNodes nodes).items = nodes.length := by
  induction nodes using List.reverseRecOn with
  | nil => rfl
  | append_singleton nodes node ih =>
      rw [ofNodes_snoc, List.length_append]
      exact congrArg (· + 1) ih

theorem depth_snoc (nodes : List Node) (node : Node) :
    depth (nodes ++ [node]) = max (depth nodes) node.links.length := by
  unfold depth
  induction nodes with
  | nil => simp
  | cons first nodes ih =>
      rw [List.cons_append, List.map_cons, List.map_cons, List.foldr_cons, List.foldr_cons, ih, Nat.max_assoc]

theorem length_ofNodes (nodes : List Node) : (ofNodes nodes).layers.length = depth nodes := by
  induction nodes using List.reverseRecOn with
  | nil => rfl
  | append_singleton nodes node ih =>
      rw [ofNodes_snoc, depth_snoc, ← ih]
      exact length_addLists _ node.links

theorem countAt_ofNodes (nodes : List Node) (layer : Nat) :
    countAt (ofNodes nodes).layers layer = ⟨nodesOn nodes layer, linksOn nodes layer⟩ := by
  induction nodes using List.reverseRecOn with
  | nil => rfl
  | append_singleton nodes node ih =>
      rw [ofNodes_snoc]
      refine (countAt_addLists _ node.links layer).trans ?_
      rw [ih]
      simp [nodesOn, linksOn, Node.linksAt, List.countP_append]

/-- **What a scan has counted**: for each layer up to the highest, the nodes and the links on it. -/
theorem layers_ofNodes (nodes : List Node) :
    (ofNodes nodes).layers =
      (List.range (depth nodes)).map fun layer => ⟨nodesOn nodes layer, linksOn nodes layer⟩ := by
  apply List.ext_getElem?
  intro layer
  have hcount := countAt_ofNodes nodes layer
  have hlength := length_ofNodes nodes
  unfold countAt at hcount
  rw [List.getElem?_map]
  by_cases hlt : layer < depth nodes
  · rw [List.getElem?_range hlt, Option.map_some, ← hcount, List.getElem?_eq_getElem (by omega)]
    rfl
  · rw [List.getElem?_eq_none (by omega), List.getElem?_eq_none (by rw [List.length_range]; omega)]
    rfl

/-- **The order of recording does not matter.** -/
theorem ofNodes_perm {nodes nodes' : List Node} (h : nodes.Perm nodes') : ofNodes nodes = ofNodes nodes' := by
  have hdepth : depth nodes = depth nodes' := (h.map fun node : Node => node.links.length).foldr_op_eq
  have hcount : ∀ layer, nodesOn nodes layer = nodesOn nodes' layer := fun layer => h.countP_eq _
  have hlinks : ∀ layer, linksOn nodes layer = linksOn nodes' layer := fun layer =>
    (h.map fun node : Node => (node.linksAt layer).length).sum_nat
  have hlayers : (ofNodes nodes).layers = (ofNodes nodes').layers := by
    simp only [layers_ofNodes, hdepth, hcount, hlinks]
  have hitems : (ofNodes nodes).items = (ofNodes nodes').items := by
    rw [items_ofNodes, items_ofNodes, h.length_eq]
  cases hs : ofNodes nodes
  cases hs' : ofNodes nodes'
  simp_all

theorem listCount_ofNodes (nodes : List Node) : (ofNodes nodes).listCount = listTotal nodes := by
  unfold listTotal
  induction nodes using List.reverseRecOn with
  | nil => rfl
  | append_singleton nodes node ih =>
      rw [ofNodes_snoc, List.map_append, List.sum_append, List.map_singleton, List.sum_singleton, ← ih]
      exact nodeTotal_addLists _ node.links

theorem linkCount_ofNodes (nodes : List Node) : (ofNodes nodes).linkCount = linkTotal nodes := by
  unfold linkTotal
  induction nodes using List.reverseRecOn with
  | nil => rfl
  | append_singleton nodes node ih =>
      rw [ofNodes_snoc, List.map_append, List.sum_append, List.map_singleton, List.sum_singleton, ← ih]
      exact linkTotal_addLists _ node.links

theorem getD_layerDistribution (s : Statistics) (layer : Nat) :
    s.layerDistribution.getD layer 0 = (countAt s.layers layer).nodes := by
  unfold layerDistribution countAt
  rw [List.getD_eq_getElem?_getD, List.getElem?_map]
  cases s.layers[layer]? <;> rfl

theorem getD_linksPerLayer (s : Statistics) (layer : Nat) :
    s.linksPerLayer.getD layer 0 = (countAt s.layers layer).links := by
  unfold linksPerLayer countAt
  rw [List.getD_eq_getElem?_getD, List.getElem?_map]
  cases s.layers[layer]? <;> rfl

/-- A node of a lower layer is on the layer above at most. -/
theorem nodesOn_mono (nodes : List Node) {lower layer : Nat} (h : lower ≤ layer) :
    nodesOn nodes layer ≤ nodesOn nodes lower := by
  refine List.countP_mono_left fun node _ hnode => ?_
  rw [decide_eq_true_eq] at hnode ⊢
  exact Nat.lt_of_le_of_lt h hnode

/-- Nodes have lists: there are none only if there is no node. -/
theorem listTotal_eq_zero_iff {nodes : List Node} (hpos : ∀ node ∈ nodes, 1 ≤ node.links.length) :
    listTotal nodes = 0 ↔ nodes = [] := by
  cases nodes with
  | nil => exact iff_of_true rfl rfl
  | cons first rest =>
      have hfirst := hpos first List.mem_cons_self
      have htotal : listTotal (first :: rest) = first.links.length + listTotal rest := List.sum_cons
      exact iff_of_false (by omega) (List.cons_ne_nil first rest)

/-- Lists within a cap add up to the cap for each node. -/
theorem linksOn_le {nodes : List Node} {layer cap : Nat}
    (hcap : ∀ node ∈ nodes, (node.linksAt layer).length ≤ cap) :
    linksOn nodes layer ≤ cap * nodesOn nodes layer := by
  induction nodes with
  | nil => exact Nat.zero_le _
  | cons node nodes ih =>
      have hrest := ih fun other hother => hcap other (List.mem_cons_of_mem node hother)
      have hnode := hcap node List.mem_cons_self
      unfold linksOn nodesOn at hrest ⊢
      rw [List.map_cons, List.sum_cons, List.countP_cons]
      by_cases hlt : layer < node.links.length
      · rw [if_pos (decide_eq_true hlt), Nat.mul_add, Nat.mul_one]
        omega
      · -- a node that does not have the layer has no links there
        have hnil : node.linksAt layer = [] := by
          unfold Node.linksAt
          rw [List.getElem?_eq_none (Nat.not_lt.mp hlt)]
          rfl
        rw [if_neg (by simpa using hlt), hnil, List.length_nil, Nat.add_zero, Nat.zero_add]
        exact hrest

end Statistics

/-! ## Committed indexes -/

/-- The nodes of an index, by ascending id. -/
def liveNodes (nodes : IdMap Node) : List Node := nodes.toList.map Prod.snd

section Committed

variable {x : Searcher} {nodes : IdMap Node}

theorem mem_liveNodes {node : Node} : node ∈ liveNodes nodes ↔ ∃ id : ItemId, nodes[id]? = some node := by
  unfold liveNodes
  rw [List.mem_map]
  constructor
  · rintro ⟨⟨id, found⟩, hmem, rfl⟩
    exact ⟨id, Std.ExtTreeMap.mem_toList_iff_getElem?_eq_some.mp hmem⟩
  · rintro ⟨id, hnode⟩
    exact ⟨(id, node), Std.ExtTreeMap.mem_toList_iff_getElem?_eq_some.mpr hnode, rfl⟩

theorem length_liveNodes (nodes : IdMap Node) : (liveNodes nodes).length = nodes.size := by
  unfold liveNodes
  rw [List.length_map, Std.ExtTreeMap.length_toList]

theorem liveNodes_eq (nodes : IdMap Node) :
    liveNodes nodes = nodes.keys.filterMap fun id : ItemId => nodes[id]? := by
  rw [← Std.ExtTreeMap.map_fst_toList_eq_keys, List.filterMap_map, liveNodes, ← List.filterMap_eq_map]
  refine List.filterMap_congr fun item hitem => ?_
  exact (Std.ExtTreeMap.mem_toList_iff_getElem?_eq_some.mp hitem).symm

/-- Records that all decode are scanned to the end. -/
theorem decodeAll_eq {records : List (ItemId × Bytes)}
    (h : ∀ row ∈ records, ∃ node, decodeNode row.2 = .ok node ∧ nodes[row.1]? = some node) :
    Searcher.decodeAll records = .ok (records.filterMap fun row => nodes[row.1]?) := by
  induction records with
  | nil => rfl
  | cons row records ih =>
      obtain ⟨node, hdecode, hnode⟩ := h row List.mem_cons_self
      rw [List.filterMap_cons_some (f := fun row : ItemId × Bytes => nodes[row.1]?) hnode]
      unfold Searcher.decodeAll
      rw [hdecode, ok_bind, ih fun other hother => h other (List.mem_cons_of_mem row hother)]
      rfl

/-- The rows are stored under the ids of the nodes, in the same order. -/
theorem Committed.keys_eq (h : Committed x.head x.rows nodes) : x.rows.keys = nodes.keys := by
  have hperm : x.rows.keys.Perm nodes.keys := by
    refine (List.perm_ext_iff_of_nodup Std.ExtTreeMap.nodup_keys Std.ExtTreeMap.nodup_keys).mpr fun id => ?_
    rw [Std.ExtTreeMap.mem_keys, Std.ExtTreeMap.mem_keys]
    exact h.mem_rows
  refine hperm.eq_of_pairwise (fun a b _ _ hab hba => ?_) Std.ExtTreeMap.ordered_keys
    Std.ExtTreeMap.ordered_keys
  exact absurd (Std.compare_eq_lt.mp hba) (UInt32.lt_asymm (Std.compare_eq_lt.mp hab))

/-- The scan of a committed index meets no damaged record. -/
theorem Committed.statistics_eq (h : Committed x.head x.rows nodes) :
    x.statistics = .ok (Statistics.ofNodes (liveNodes nodes)) := by
  have hscan : Searcher.decodeAll x.rows.toList = .ok (liveNodes nodes) := by
    rw [decodeAll_eq fun row hrow => h.row (Std.ExtTreeMap.mem_toList_iff_getElem?_eq_some.mp hrow),
      liveNodes_eq, ← h.keys_eq, ← Std.ExtTreeMap.map_fst_toList_eq_keys, List.filterMap_map]
    rfl
  unfold Searcher.statistics
  rw [hscan]
  rfl

/-- The depth of nodes that are no higher than one of them. -/
theorem Statistics.depth_eq {live : List Node} {highest : Node} (hmem : highest ∈ live)
    (hle : ∀ node ∈ live, node.links.length ≤ highest.links.length) :
    Statistics.depth live = highest.links.length := by
  unfold Statistics.depth
  apply Nat.le_antisymm
  · clear hmem
    induction live with
    | nil => exact Nat.zero_le _
    | cons node live ih =>
        rw [List.map_cons, List.foldr_cons]
        exact Nat.max_le.mpr ⟨hle node List.mem_cons_self,
          ih fun other hother => hle other (List.mem_cons_of_mem node hother)⟩
  · clear hle
    induction live with
    | nil => exact absurd hmem List.not_mem_nil
    | cons node live ih =>
        rw [List.map_cons, List.foldr_cons]
        rcases List.mem_cons.mp hmem with rfl | hmem
        · exact Nat.le_max_left _ _
        · exact Nat.le_trans (ih hmem) (Nat.le_max_right _ _)

/-- No node is higher than the entry point, which is on every layer of the index. -/
theorem WellFormed.depth_liveNodes {head : Metadata} (h : WellFormed head nodes) :
    Statistics.depth (liveNodes nodes) =
      if head.entryPoint = none then 0 else head.topLevel.toNat + 1 := by
  cases hentry : head.entryPoint with
  | none =>
      rw [if_pos rfl, h.entry_none.mp hentry]
      rfl
  | some e =>
      obtain ⟨top, htop, hlevel⟩ := h.entry_some e hentry
      have hheight : ∀ (id : ItemId) (node : Node), nodes[id]? = some node →
          node.links.length = node.level + 1 := by
        intro id node hnode
        have hpos := (h.layers id node hnode).1
        unfold Node.level
        omega
      rw [if_neg (Option.some_ne_none e), ← hlevel, ← hheight e top htop]
      refine Statistics.depth_eq (mem_liveNodes.mpr ⟨e, htop⟩) fun node hmem => ?_
      obtain ⟨id, hnode⟩ := mem_liveNodes.mp hmem
      rw [hheight id node hnode, hheight e top htop, hlevel]
      exact Nat.succ_le_succ (h.level_le id node hnode)

/-- A file has room for 2^32 items of 255 layers: the number of lists fits a word. -/
theorem WellFormed.listTotal_lt {head : Metadata} (h : WellFormed head nodes) (hvalid : head.params.Valid) :
    Statistics.listTotal (liveNodes nodes) < UInt64.size := by
  have hsum : Statistics.listTotal (liveNodes nodes) ≤ (liveNodes nodes).length * 255 := by
    unfold Statistics.listTotal
    rw [← List.length_map fun node : Node => node.links.length]
    refine List.sum_le_card_nsmul _ 255 fun count hcount => ?_
    obtain ⟨node, hmem, rfl⟩ := List.mem_map.mp hcount
    obtain ⟨id, hnode⟩ := mem_liveNodes.mp hmem
    exact Nat.le_trans (h.layers id node hnode).2 hvalid.layerLimit_le
  have hsize : nodes.size ≤ UInt32.size := size_le_of_ids
  rw [length_liveNodes] at hsum
  simp only [UInt32.size, UInt64.size] at hsize ⊢
  omega

end Committed

/-! ## Result -/

/-- **What statistics say** of the nodes of an index with the description `head`. -/
structure Statistics.Count (head : Metadata) (nodes : List Node) (stats : Statistics) : Prop where
  items : stats.items = nodes.length
  size : stats.items = head.size.toNat
  /-- A layer up to the highest level, none in an empty index. -/
  layers : stats.layers.length = if head.entryPoint = none then 0 else head.topLevel.toNat + 1
  /-- On a layer are the nodes whose level is not below it. -/
  layerDistribution : stats.layerDistribution =
    (List.range stats.layers.length).map fun layer => nodes.countP fun node => layer ≤ node.level
  linksPerLayer : stats.linksPerLayer = (List.range stats.layers.length).map fun layer =>
    (nodes.map fun node => (node.linksAt layer).length).sum
  /-- The quotient of the number of links and that of lists, as 64-bit words, in binary64. -/
  meanDegree : stats.meanDegree = if nodes = [] then ⟨0⟩ else
    .ofValue ((UInt64.ofNat (linkTotal nodes)).toFloat / (UInt64.ofNat (listTotal nodes)).toFloat)
  /-- There are fewer lists than words; the totals are those of the layers. -/
  totals : listTotal nodes < UInt64.size ∧ stats.layerDistribution.sum = listTotal nodes ∧
    stats.linksPerLayer.sum = linkTotal nodes
  base : stats.layerDistribution.headD 0 = stats.items
  descending : stats.layerDistribution.Pairwise (· ≥ ·)
  capped : ∀ layer, stats.linksPerLayer.getD layer 0 ≤
    head.params.cap layer * stats.layerDistribution.getD layer 0
  anyOrder : ∀ order : List Node, order.Perm nodes → Statistics.ofNodes order = stats

/-- A committed index is counted layer by layer. -/
theorem Committed.count_ofNodes {x : Searcher} {nodes : IdMap Node} (h : Committed x.head x.rows nodes) :
    (Statistics.ofNodes (liveNodes nodes)).Count x.head (liveNodes nodes) := by
  have hlength := Statistics.length_ofNodes (liveNodes nodes)
  have hlayers := Statistics.layers_ofNodes (liveNodes nodes)
  -- every node has a base layer, and its level is the number of layers above
  have hpos : ∀ node ∈ liveNodes nodes, 1 ≤ node.links.length := by
    intro node hmem
    obtain ⟨id, hnode⟩ := mem_liveNodes.mp hmem
    exact (h.wellFormed.layers id node hnode).1
  have hlevels : ∀ layer, Statistics.nodesOn (liveNodes nodes) layer =
      (liveNodes nodes).countP fun node => layer ≤ node.level := by
    intro layer
    refine List.countP_congr fun node hmem => ?_
    have := hpos node hmem
    rw [decide_eq_true_eq, decide_eq_true_eq, Node.level]
    omega
  refine ⟨Statistics.items_ofNodes _, ?_, ?_, ?_, ?_, ?_, ⟨?_, ?_, ?_⟩, ?_, ?_, ?_, ?_⟩
  · rw [Statistics.items_ofNodes, length_liveNodes]
    exact h.wellFormed.size.symm
  · rw [hlength]
    exact h.wellFormed.depth_liveNodes
  · unfold Statistics.layerDistribution
    rw [hlength, hlayers, List.map_map]
    exact List.map_congr_left fun layer _ => hlevels layer
  · unfold Statistics.linksPerLayer
    rw [hlength, hlayers, List.map_map]
    rfl
  · unfold Statistics.meanDegree
    rw [Statistics.listCount_ofNodes, Statistics.linkCount_ofNodes]
    simp only [Statistics.listTotal_eq_zero_iff hpos]
  · exact h.wellFormed.listTotal_lt h.valid
  · exact Statistics.listCount_ofNodes _
  · exact Statistics.linkCount_ofNodes _
  · have hall : Statistics.nodesOn (liveNodes nodes) 0 = (liveNodes nodes).length :=
      List.countP_eq_length.mpr fun node hmem => decide_eq_true (hpos node hmem)
    rw [List.headD_eq_getD, Statistics.getD_layerDistribution, Statistics.countAt_ofNodes, hall,
      Statistics.items_ofNodes]
  · unfold Statistics.layerDistribution
    rw [hlayers, List.map_map, List.pairwise_map]
    exact List.pairwise_lt_range.imp fun hlt => Statistics.nodesOn_mono _ (Nat.le_of_lt hlt)
  · intro layer
    rw [Statistics.getD_linksPerLayer, Statistics.getD_layerDistribution, Statistics.countAt_ofNodes]
    refine Statistics.linksOn_le fun node hmem => ?_
    obtain ⟨id, hnode⟩ := mem_liveNodes.mp hmem
    exact (h.wellFormed.links id node hnode layer).1
  · exact fun order horder => Statistics.ofNodes_perm horder

section Results

variable {distances : Metric → Ranking} {steps : List Step} {s : Session} {index : IndexId} {x : Searcher}

/-- **Statistics are counts.** After every run the statistics of a committed index go through, and count the
    nodes and links that a searcher sees. -/
theorem statistics_count (hrun : World.run distances steps = .opened s) (hx : s.db.searcher index = .ok x) :
    ∃ (nodes : IdMap Node) (stats : Statistics), (∀ id, x.rows.node id = .ok nodes[id]?) ∧
      x.statistics = .ok stats ∧ stats.Count x.head (liveNodes nodes) := by
  obtain ⟨nodes, hc⟩ := (Session.Sound.of_run hrun).tables.of_searcher hx
  exact ⟨nodes, _, hc.shows, hc.statistics_eq, hc.count_ofNodes⟩

theorem threeItems_statistics : ((World.run Metric.rank threeItems).session.any fun s =>
    (s.db.searcher 7).toOption.any fun x => x.statistics.toOption == some ⟨2, [⟨2, 2⟩]⟩) = true := by
  decide +kernel

theorem statistics_count_threeItems : ∃ (s : Session) (x : Searcher) (nodes : IdMap Node),
    World.run Metric.rank threeItems = .opened s ∧ s.db.searcher 7 = .ok x ∧
      x.statistics = .ok ⟨2, [⟨2, 2⟩]⟩ ∧
      Statistics.Count x.head (liveNodes nodes) ⟨2, [⟨2, 2⟩]⟩ := by
  obtain ⟨s, hs, hshows⟩ := (Option.any_eq_true _ _).mp threeItems_statistics
  obtain ⟨x, hx, hstats⟩ := (Option.any_eq_true _ _).mp hshows
  have hrun := World.session_eq_some.mp hs
  have hsearcher := toOption_eq_some.mp hx
  have hfound := toOption_eq_some.mp (beq_iff_eq.mp hstats)
  obtain ⟨nodes, stats, _, heq, hcount⟩ := statistics_count hrun hsearcher
  obtain rfl := Except.ok.inj (heq.symm.trans hfound)
  exact ⟨s, x, nodes, hrun, hsearcher, hfound, hcount⟩

end Results

end VectorIndex
