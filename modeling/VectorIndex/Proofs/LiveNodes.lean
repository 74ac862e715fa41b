import VectorIndex.Graph
import Mathlib.Logic.Relation

/-!
# `VectorIndex.Proofs.LiveNodes` — a graph as a finite map of nodes

A snapshot and a draft answer reads one id at a time, and a read can fail. When none does, what they hold is
a finite map from ids to nodes, and every statement about a graph below is a statement about that map.

## Contents
- **The map.** `Graph.Shows g nodes`: reading `g` is looking up `nodes`.
- **Frames.** `Node.frame` is a node without its links; linking never changes `frames nodes`.
- **Layers and links.** `OnLayer`, `Follows`, and `Reaches`, its reflexive transitive closure.
- **Scores.** `scoreOf`, `candidatesOf`, and the equations that run `Graph.score`, `Graph.scoreAll`,
  `Graph.candidates` and `Graph.choose` on the map.
-/

namespace VectorIndex

/-! ## Maps and sets of ids -/

section Maps

variable {κ α : Type} [Ord κ] [Std.TransOrd κ] {m : Std.ExtTreeMap κ α} {id other : κ}

theorem mem_iff_exists : id ∈ m ↔ ∃ a, m[id]? = some a := by
  rw [Std.ExtTreeMap.mem_iff_isSome_getElem?, Option.isSome_iff_exists]

theorem not_mem_iff : id ∉ m ↔ m[id]? = none := by
  rw [mem_iff_exists]
  cases m[id]? <;> simp

variable [Std.LawfulEqOrd κ]

theorem mem_insert_key {a : α} : other ∈ m.insert id a ↔ id = other ∨ other ∈ m := by
  rw [Std.ExtTreeMap.mem_insert, Std.LawfulEqCmp.compare_eq_iff_eq]

theorem mem_erase_key : other ∈ m.erase id ↔ id ≠ other ∧ other ∈ m := by
  rw [Std.ExtTreeMap.mem_erase, Ne, Std.LawfulEqCmp.compare_eq_iff_eq]

variable [DecidableEq κ] (m id other)

/-- Insertion is seen at one key. -/
theorem getElem?_insert_id (a : α) : (m.insert id a)[other]? = if id = other then some a else m[other]? := by
  simp [Std.ExtTreeMap.getElem?_insert, Std.LawfulEqCmp.compare_eq_iff_eq]

/-- Erasure is seen at one key. -/
theorem getElem?_erase_id : (m.erase id)[other]? = if id = other then none else m[other]? := by
  simp [Std.ExtTreeMap.getElem?_erase, Std.LawfulEqCmp.compare_eq_iff_eq]

theorem getElem?_of_insert {m : Std.ExtTreeMap κ α} {id other : κ} {a b : α}
    (h : (m.insert id a)[other]? = some b) : a = b ∨ m[other]? = some b := by
  rw [getElem?_insert_id] at h
  split at h
  · exact Or.inl (Option.some.inj h)
  · exact Or.inr h

theorem getElem?_of_erase {m : Std.ExtTreeMap κ α} {id other : κ} {a : α}
    (h : (m.erase id)[other]? = some a) : m[other]? = some a := by
  rw [getElem?_erase_id] at h
  split at h
  · cases h
  · exact h

end Maps

/-- A map from ids has at most one entry per id. -/
theorem size_le_of_ids {α : Type} {m : IdMap α} : m.size ≤ UInt32.size := by
  rw [← Std.ExtTreeMap.length_keys]
  exact length_le_of_nodup_ids Std.ExtTreeMap.nodup_keys

theorem mem_insert_id {s : IdSet} {id other : ItemId} : other ∈ s.insert id ↔ id = other ∨ other ∈ s := by
  simp [Std.ExtTreeSet.mem_insert, Std.LawfulEqCmp.compare_eq_iff_eq]

theorem nodup_toList (s : IdSet) : s.toList.Nodup :=
  (Std.ExtTreeSet.distinct_toList (t := s)).imp fun h heq => h (by simp [heq])

/-- A subset of the same size is the whole set. -/
theorem mem_of_size_eq {s t : IdSet} (hsub : ∀ id ∈ s, id ∈ t) (hsize : s.size = t.size) {id : ItemId}
    (hid : id ∈ t) : id ∈ s := by
  apply Classical.byContradiction
  intro hout
  have hnodup : (id :: s.toList).Nodup :=
    List.nodup_cons.mpr ⟨fun hc => hout (Std.ExtTreeSet.mem_toList.mp hc), nodup_toList s⟩
  have hsub' : id :: s.toList ⊆ t.toList := by
    intro a ha
    rcases List.mem_cons.mp ha with rfl | ha
    · exact Std.ExtTreeSet.mem_toList.mpr hid
    · exact Std.ExtTreeSet.mem_toList.mpr (hsub a (Std.ExtTreeSet.mem_toList.mp ha))
  have hle := hnodup.length_le_of_subset hsub'
  rw [List.length_cons, Std.ExtTreeSet.length_toList, Std.ExtTreeSet.length_toList] at hle
  omega

/-! ## Running a computation that may fail -/

theorem ok_bind {α β : Type} (a : α) (f : α → Except Error β) : (Except.ok a >>= f) = f a := rfl

/-- What went through went through step by step. -/
theorem bind_eq_ok {ε α β : Type} {x : Except ε α} {f : α → Except ε β} {b : β} :
    (x >>= f) = .ok b ↔ ∃ a, x = .ok a ∧ f a = .ok b := by
  cases x with
  | error e => simp [bind, Except.bind]
  | ok a => simp [bind, Except.bind]

theorem bind_eq_error {ε α β : Type} {x : Except ε α} {f : α → Except ε β} {e : ε} :
    (x >>= f) = .error e ↔ x = .error e ∨ ∃ a, x = .ok a ∧ f a = .error e := by
  cases x with
  | error e => simp [bind, Except.bind]
  | ok a => simp [bind, Except.bind]

theorem mapError_eq_ok {ε ε' α : Type} {x : Except ε α} {f : ε → ε'} {a : α} :
    x.mapError f = .ok a ↔ x = .ok a := by
  cases x with
  | error e =>
      constructor
      · intro h
        cases h
      · intro h
        cases h
  | ok b =>
      constructor
      · intro h
        exact congrArg Except.ok (Except.ok.inj h)
      · intro h
        exact congrArg Except.ok (Except.ok.inj h)

theorem toOption_eq_some {ε α : Type} {x : Except ε α} {a : α} : x.toOption = some a ↔ x = .ok a := by
  cases x with
  | error e => simp [Except.toOption]
  | ok a => simp [Except.toOption]

/-! ## The map -/

/-- Reading the graph is looking up `nodes`: no read fails, and exactly the items of `nodes` resolve. -/
def Graph.Shows (g : Graph) (nodes : IdMap Node) : Prop := ∀ id, g.node id = .ok nodes[id]?

/-! ## Frames -/

/-- What linking leaves alone: the embedding and the number of layers. -/
def Node.frame (node : Node) : Embedding × Nat := (node.embedding, node.links.length)

/-- The nodes without their links. -/
def frames (nodes : IdMap Node) : IdMap (Embedding × Nat) := nodes.map fun _ node => node.frame

theorem getElem?_frames (nodes : IdMap Node) (id : ItemId) :
    (frames nodes)[id]? = nodes[id]?.map Node.frame := by
  simp [frames]

@[simp] theorem frame_setLinks (node : Node) (layer : Nat) (links : List ItemId) :
    (node.setLinks layer links).frame = node.frame := by
  simp [Node.frame, Node.setLinks]

theorem level_eq_of_frame {node node' : Node} (h : node'.frame = node.frame) : node'.level = node.level := by
  simp only [Node.frame, Prod.mk.injEq] at h
  simp only [Node.level, h.2]

section Frames

variable {nodes nodes' : IdMap Node}

/-- Replacing a node by one of the same frame changes no frame. -/
theorem frames_insert_of_frame {id : ItemId} {node node' : Node} (hnode : nodes[id]? = some node)
    (hframe : node'.frame = node.frame) : frames (nodes.insert id node') = frames nodes := by
  apply Std.ExtTreeMap.ext_getElem?
  intro other
  rw [getElem?_frames, getElem?_insert_id, getElem?_frames]
  by_cases h : id = other
  · subst h
    rw [if_pos rfl, hnode, Option.map_some, Option.map_some, hframe]
  · rw [if_neg h]

theorem size_of_frames (hf : frames nodes' = frames nodes) : nodes'.size = nodes.size := by
  have hsize := congrArg (·.size) hf
  simpa only [frames, Std.ExtTreeMap.size_map] using hsize

/-- Equal frames: each node has a counterpart that differs in links only. -/
theorem exists_of_frames (hf : frames nodes' = frames nodes) {id : ItemId} {node' : Node}
    (hnode : nodes'[id]? = some node') : ∃ node, nodes[id]? = some node ∧ node'.frame = node.frame := by
  have h := congrArg (·[id]?) hf
  simp only [getElem?_frames, hnode, Option.map_some] at h
  obtain ⟨node, hnode', heq⟩ := Option.map_eq_some_iff.mp h.symm
  exact ⟨node, hnode', heq.symm⟩

theorem mem_iff_of_frames (hf : frames nodes' = frames nodes) {id : ItemId} : id ∈ nodes' ↔ id ∈ nodes := by
  constructor
  · intro h
    obtain ⟨node', hnode'⟩ := mem_iff_exists.mp h
    obtain ⟨node, hnode, _⟩ := exists_of_frames hf hnode'
    exact mem_iff_exists.mpr ⟨node, hnode⟩
  · intro h
    obtain ⟨node, hnode⟩ := mem_iff_exists.mp h
    obtain ⟨node', hnode', _⟩ := exists_of_frames hf.symm hnode
    exact mem_iff_exists.mpr ⟨node', hnode'⟩

end Frames

/-! ## Layers and links -/

/-- The item is live and takes part in the layer. -/
def OnLayer (nodes : IdMap Node) (layer : Nat) (id : ItemId) : Prop :=
  ∃ node, nodes[id]? = some node ∧ layer ≤ node.level

/-- A link on the layer leads from `source` to the live item `target`. -/
def Follows (nodes : IdMap Node) (layer : Nat) (source target : ItemId) : Prop :=
  (∃ node, nodes[source]? = some node ∧ target ∈ node.linksAt layer) ∧ target ∈ nodes

/-- Links on the layer lead from `source` to `target`, in any number of steps. -/
abbrev Reaches (nodes : IdMap Node) (layer : Nat) : ItemId → ItemId → Prop :=
  Relation.ReflTransGen (Follows nodes layer)

section Layers

variable {nodes nodes' : IdMap Node} {layer : Nat} {id : ItemId}

theorem OnLayer.mem (h : OnLayer nodes layer id) : id ∈ nodes := by
  obtain ⟨node, hnode, _⟩ := h
  exact mem_iff_exists.mpr ⟨node, hnode⟩

theorem OnLayer.mono {lower : Nat} (h : OnLayer nodes layer id) (hle : lower ≤ layer) :
    OnLayer nodes lower id := by
  obtain ⟨node, hnode, hlevel⟩ := h
  exact ⟨node, hnode, Nat.le_trans hle hlevel⟩

/-- A new node leaves the others where they are. -/
theorem OnLayer.insert_new {other : ItemId} {node : Node} (h : OnLayer nodes layer other)
    (hnew : id ∉ nodes) : OnLayer (nodes.insert id node) layer other := by
  obtain ⟨found, hfound, hlevel⟩ := h
  refine ⟨found, ?_, hlevel⟩
  rw [getElem?_insert_id, if_neg, hfound]
  rintro rfl
  exact hnew (mem_iff_exists.mpr ⟨found, hfound⟩)

/-- So does the removal of another node. -/
theorem OnLayer.erase {other : ItemId} (h : OnLayer nodes layer other) (hne : id ≠ other) :
    OnLayer (nodes.erase id) layer other := by
  obtain ⟨found, hfound, hlevel⟩ := h
  exact ⟨found, by rw [getElem?_erase_id, if_neg hne, hfound], hlevel⟩

theorem onLayer_zero : OnLayer nodes 0 id ↔ id ∈ nodes := by
  rw [mem_iff_exists]
  simp [OnLayer]

/-- Linking moves no item to another layer. -/
theorem OnLayer.of_frames (hf : frames nodes' = frames nodes) (h : OnLayer nodes layer id) :
    OnLayer nodes' layer id := by
  obtain ⟨node, hnode, hlevel⟩ := h
  obtain ⟨node', hnode', hframe⟩ := exists_of_frames hf.symm hnode
  exact ⟨node', hnode', by rw [← level_eq_of_frame hframe]; exact hlevel⟩

theorem linksAt_eq_nil_of_level_lt {node : Node} (hpos : 0 < node.links.length) (h : node.level < layer) :
    node.linksAt layer = [] := by
  unfold Node.level at h
  unfold Node.linksAt
  rw [List.getElem?_eq_none (by omega)]
  rfl

end Layers

/-! ## Scores -/

/-- An item with its distance to `query`, if it is live. -/
def scoreOf (rank : Ranking) (nodes : IdMap Node) (query : Embedding) (id : ItemId) : Option Neighbor :=
  nodes[id]?.map fun node => ⟨id, rank query node.embedding⟩

/-- The neighbour is live and carries its own distance to `query`. -/
def Scored (rank : Ranking) (nodes : IdMap Node) (query : Embedding) (n : Neighbor) : Prop :=
  scoreOf rank nodes query n.id = some n

/-- The neighbours that are live, with their embeddings. -/
def candidatesOf (nodes : IdMap Node) (found : List Neighbor) : List Candidate :=
  found.filterMap fun n => nodes[n.id]?.map fun node => ⟨n, node.embedding⟩

section Scores

variable {g : Graph} {rank : Ranking} {nodes : IdMap Node} {query : Embedding}

theorem scoreOf_eq_some_iff {id : ItemId} {n : Neighbor} :
    scoreOf rank nodes query id = some n ↔ n.id = id ∧ Scored rank nodes query n := by
  unfold Scored scoreOf
  constructor
  · intro h
    obtain ⟨node, hnode, rfl⟩ := Option.map_eq_some_iff.mp h
    exact ⟨rfl, by simp [hnode]⟩
  · rintro ⟨rfl, h⟩
    exact h

theorem Scored.exists_node {n : Neighbor} (h : Scored rank nodes query n) :
    ∃ node, nodes[n.id]? = some node ∧ n.distance = rank query node.embedding := by
  obtain ⟨node, hnode, heq⟩ := Option.map_eq_some_iff.mp h
  exact ⟨node, hnode, (congrArg Neighbor.distance heq).symm⟩

theorem Scored.mem {n : Neighbor} (h : Scored rank nodes query n) : n.id ∈ nodes := by
  obtain ⟨node, hnode, _⟩ := h.exists_node
  exact mem_iff_exists.mpr ⟨node, hnode⟩

/-- An item has one score. -/
theorem Scored.eq_of_id {n m : Neighbor} (hn : Scored rank nodes query n) (hm : Scored rank nodes query m)
    (hid : n.id = m.id) : n = m := by
  unfold Scored at hn hm
  rw [hid] at hn
  exact Option.some.inj (hn.symm.trans hm)

/-- Scores look at embeddings only. -/
theorem scoreOf_of_frames {nodes' : IdMap Node} (hf : frames nodes' = frames nodes) (id : ItemId) :
    scoreOf rank nodes' query id = scoreOf rank nodes query id := by
  have h := congrArg (·[id]?.map fun frame => (⟨id, rank query frame.1⟩ : Neighbor)) hf
  simp only [getElem?_frames, Option.map_map] at h
  exact h

theorem Scored.of_frames {nodes' : IdMap Node} (hf : frames nodes' = frames nodes) {n : Neighbor}
    (h : Scored rank nodes query n) : Scored rank nodes' query n :=
  (scoreOf_of_frames hf n.id).trans h

theorem exists_scored_of_mem (rank : Ranking) (query : Embedding) {id : ItemId} (h : id ∈ nodes) :
    ∃ n, n.id = id ∧ Scored rank nodes query n := by
  obtain ⟨node, hnode⟩ := mem_iff_exists.mp h
  exact ⟨⟨id, rank query node.embedding⟩, rfl, by simp [Scored, scoreOf, hnode]⟩

theorem Graph.Shows.score (h : g.Shows nodes) (query : Embedding) (id : ItemId) :
    g.score query id = .ok (scoreOf g.rank nodes query id) := by
  unfold Graph.score scoreOf
  rw [h id, ok_bind]
  cases nodes[id]? <;> rfl

theorem Graph.Shows.scoreAll (h : g.Shows nodes) (query : Embedding) (ids : List ItemId) :
    g.scoreAll query ids = .ok (ids.filterMap (scoreOf g.rank nodes query)) := by
  induction ids with
  | nil => rfl
  | cons id ids ih =>
      unfold Graph.scoreAll
      rw [h.score, ok_bind]
      cases hs : scoreOf g.rank nodes query id with
      | none => rw [List.filterMap_cons_none hs]; exact ih
      | some n => rw [List.filterMap_cons_some hs, ih]; rfl

theorem Graph.Shows.candidates (h : g.Shows nodes) (found : List Neighbor) :
    g.candidates found = .ok (candidatesOf nodes found) := by
  unfold candidatesOf
  induction found with
  | nil => rfl
  | cons n ns ih =>
      unfold Graph.candidates
      rw [h n.id, ok_bind]
      cases hn : nodes[n.id]? with
      | none => rw [List.filterMap_cons_none (by simp [hn])]; exact ih
      | some node =>
          rw [List.filterMap_cons_some (b := ⟨n, node.embedding⟩) (by simp [hn]), ih]
          rfl

theorem Graph.Shows.choose (h : g.Shows nodes) (found existing : List Neighbor) (cap : Nat) :
    g.choose found existing cap =
      .ok (Selection.choose g.rank (candidatesOf nodes found) (candidatesOf nodes existing) cap) := by
  unfold Graph.choose
  rw [h.candidates, ok_bind, h.candidates, ok_bind]
  rfl

/-- The scored items of a list of ids are those of it that are live. -/
theorem mem_filterMap_scoreOf {ids : List ItemId} {n : Neighbor} :
    n ∈ ids.filterMap (scoreOf rank nodes query) ↔ n.id ∈ ids ∧ Scored rank nodes query n := by
  rw [List.mem_filterMap]
  constructor
  · rintro ⟨id, hid, hs⟩
    obtain ⟨rfl, hn⟩ := scoreOf_eq_some_iff.mp hs
    exact ⟨hid, hn⟩
  · rintro ⟨hid, hn⟩
    exact ⟨n.id, hid, hn⟩

theorem mem_of_mem_candidatesOf {found : List Neighbor} {c : Candidate} (h : c ∈ candidatesOf nodes found) :
    c.neighbor ∈ found := by
  obtain ⟨n, hn, hc⟩ := List.mem_filterMap.mp h
  obtain ⟨node, _, rfl⟩ := Option.map_eq_some_iff.mp hc
  exact hn

end Scores

end VectorIndex
