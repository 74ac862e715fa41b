import VectorIndex.Proofs.Runs

/-!
# `VectorIndex.Proofs.Arrival` — what an insertion does to the graph

An item that is added gets a list on every layer that it shares with the others, and the items it links to get a
link back. Some of them give one up for it. `Inserted` says what this leaves of the graph that was there: no vector
and no level changes, no list of an item that was not chosen changes, and no list becomes shorter. Since all links
of a well-formed index resolve, a list that is chosen anew is full.

The facts about the lists are those of `Joins`, which the insertion gives layer by layer; here they are turned into
statements about the graph before the new node was placed.

## Contents
- **The graph.** `Inserted`, `Joins.inserted`.
- **The call.** `Draft.Sound.addItem_ensures_inserted`.
- **Runs.** `run_inserts`.
-/

namespace VectorIndex

/-! ## The graph -/

/-- The graph `nodes` before and `nodes'` after `id` was added on `level`, where the top layer was `top`. -/
structure Inserted (cap : Nat → Nat) (top level : Nat) (id : ItemId) (embedding : Embedding)
    (nodes nodes' : IdMap Node) : Prop where
  new : id ∉ nodes
  /-- The item comes in with its vector on its level, -/
  own : ∃ node, nodes'[id]? = some node ∧ node.embedding = embedding ∧ node.level = level
  /-- and nothing else does; -/
  mem : ∀ a, a ∈ nodes' → a = id ∨ a ∈ nodes
  /-- every other node keeps its vector and its level. -/
  kept : ∀ (a : ItemId) (node : Node), nodes[a]? = some node →
    ∃ node', nodes'[a]? = some node' ∧ node'.embedding = node.embedding ∧ node'.level = node.level
  /-- On the layers shared with others the item links to some that were there, within the cap. -/
  linked : ∀ l ≤ min level top, linksOf nodes' l id ≠ [] ∧ (linksOf nodes' l id).length ≤ cap l ∧
    ∀ t ∈ linksOf nodes' l id, OnLayer nodes l t
  /-- They link back or have a full list. -/
  answered : ∀ l ≤ min level top, ∀ t ∈ linksOf nodes' l id,
    id ∈ linksOf nodes' l t ∨ (linksOf nodes' l t).length = cap l
  /-- No list has another new link, and none is shorter than before. -/
  lists : ∀ l ≤ min level top, ∀ a ∈ nodes, (∀ t ∈ linksOf nodes' l a, t ∈ linksOf nodes l a ∨ t = id) ∧
    (linksOf nodes l a).length ≤ (linksOf nodes' l a).length
  /-- Lists of nodes not chosen are as they were, -/
  untouched : ∀ l ≤ min level top, ∀ a ∈ nodes, a ∉ linksOf nodes' l id → linksOf nodes' l a = linksOf nodes l a
  /-- and so are all lists on the layers above. -/
  above : ∀ l, min level top < l → ∀ a ∈ nodes, linksOf nodes' l a = linksOf nodes l a

section Graph

variable {params : Params} {dimension top level : Nat} {nodes nodes' : IdMap Node} {id : ItemId}
  {embedding : Embedding}

section Placed

variable (hframes : frames nodes' = frames (nodes.insert id (Node.isolated embedding level))) {a : ItemId}
include hframes

/-- Nothing but the new node came in. -/
theorem mem_of_placed (ha : a ∈ nodes') : a = id ∨ a ∈ nodes :=
  (mem_insert_key.mp ((mem_iff_of_frames hframes).mp ha)).imp_left Eq.symm

/-- An old node is there, but for its links. -/
theorem exists_of_placed (hne : a ≠ id) {node : Node} (hnode : nodes[a]? = some node) :
    ∃ node', nodes'[a]? = some node' ∧ node'.frame = node.frame := by
  have hplaced : (nodes.insert id (Node.isolated embedding level))[a]? = some node := by
    rw [getElem?_insert_id, if_neg (Ne.symm hne), hnode]
  obtain ⟨node', hnode', hframe⟩ := exists_of_frames hframes.symm hplaced
  exact ⟨node', hnode', hframe.symm⟩

/-- An old node takes part in the layers it took part in. -/
theorem OnLayer.of_placed {layer : Nat} (h : OnLayer nodes' layer a) (hne : a ≠ id) : OnLayer nodes layer a := by
  obtain ⟨node', hnode', hle⟩ := h
  obtain ⟨node, hnode⟩ := mem_iff_exists.mp
    ((mem_of_placed hframes (mem_iff_exists.mpr ⟨node', hnode'⟩)).resolve_left hne)
  obtain ⟨other, hother, hframe⟩ := exists_of_placed hframes hne hnode
  obtain rfl := Option.some.inj (hnode'.symm.trans hother)
  exact ⟨node, hnode, level_eq_of_frame hframe ▸ hle⟩

end Placed

/-- **What joined the lists was inserted**: the lists of a sound wiring name live items only, so none of them becomes
    shorter. -/
theorem Joins.inserted (h : Joins params (min level top) id (nodes.insert id (Node.isolated embedding level)) nodes')
    (hnew : id ∉ nodes) (hwired : Wired params dimension tight nodes)
    (hwired' : Wired params dimension tight nodes')
    (hframes : frames nodes' = frames (nodes.insert id (Node.isolated embedding level))) :
    Inserted params.cap top level id embedding nodes nodes' := by
  have hself : (nodes.insert id (Node.isolated embedding level))[id]? = some (Node.isolated embedding level) := by
    rw [getElem?_insert_id, if_pos rfl]
  obtain ⟨own, hown, hframe⟩ := exists_of_frames hframes.symm hself
  have hother : ∀ a ∈ nodes, a ≠ id := fun a ha heq => hnew (heq ▸ ha)
  have hlive : ∀ l a, ∀ t ∈ linksOf nodes l a, t ∈ nodes.insert id (Node.isolated embedding level) := by
    intro l a t ht
    obtain ⟨node, hnode, _⟩ := hwired.onLayer_of_mem_linksOf ht
    rw [linksOf_eq hnode] at ht
    exact mem_insert_key.mpr (Or.inr (hwired.target hnode ht).mem)
  -- the lists before the node was placed are those just after
  have hextends : ∀ l ≤ min level top, ∀ t ∈ linksOf nodes' l id,
      Extends (params.cap l) (nodes.insert id (Node.isolated embedding level)) id (linksOf nodes l t)
        (linksOf nodes' l t) := by
    intro l hl t ht
    rw [← linksOf_place hnew embedding level]
    exact (h.arrives l hl).targets t ht
  have huntouched : ∀ l ≤ min level top, ∀ a ∈ nodes, a ∉ linksOf nodes' l id →
      linksOf nodes' l a = linksOf nodes l a := by
    intro l hl a ha hout
    rw [(h.arrives l hl).others a (hother a ha) hout, linksOf_place hnew]
  refine ⟨hnew, ⟨own, hown, ?_, ?_⟩, fun a => mem_of_placed hframes, ?_, ?_, ?_, ?_, huntouched, ?_⟩
  · exact (congrArg Prod.fst hframe).symm
  · exact (level_eq_of_frame hframe).symm.trans (Node.level_isolated embedding level)
  · intro a node hnode
    obtain ⟨node', hnode', hsame⟩ := exists_of_placed hframes (hother a (mem_iff_exists.mpr ⟨node, hnode⟩)) hnode
    exact ⟨node', hnode', congrArg Prod.fst hsame, level_eq_of_frame hsame⟩
  · intro l hl
    have hlist := hwired'.links id own l hown
    refine ⟨(h.arrives l hl).linked, ?_, ?_⟩
    · rw [linksOf_eq hown]
      exact hlist.length_le
    · intro t ht
      rw [linksOf_eq hown] at ht
      exact (hwired'.target hown ht).of_placed hframes fun heq => hlist.irrefl (heq ▸ ht)
  · intro l hl t ht
    exact (hextends l hl t ht).gained.imp_right And.left
  · intro l hl a ha
    by_cases hchosen : a ∈ linksOf nodes' l id
    · have hext := hextends l hl a hchosen
      exact ⟨hext.subset, hext.length_le (hlive l a)⟩
    · rw [huntouched l hl a ha hchosen]
      exact ⟨fun t ht => Or.inl ht, Nat.le_refl _⟩
  · intro l hl a _
    rw [h.above l a hl, linksOf_place hnew]

end Graph

/-! ## The call -/

section Call

variable {d : Draft} {nodes : IdMap Node}

/-- The entry point is the new item exactly if it is the highest. -/
theorem Draft.Sound.entryPoint_inserted (h : d.Sound nodes) (hentry : d.head.entryPoint ≠ none) (id : ItemId)
    (embedding : Embedding) :
    (d.head.topLevel.toNat < d.drawnLevel → (d.inserted id embedding).head.entryPoint = some id ∧
      (d.inserted id embedding).head.topLevel.toNat = d.drawnLevel) ∧
    (¬d.head.topLevel.toNat < d.drawnLevel → (d.inserted id embedding).head.entryPoint = d.head.entryPoint ∧
      (d.inserted id embedding).head.topLevel = d.head.topLevel) := by
  constructor
  · intro hhigh
    rw [Draft.inserted_of_moved (Or.inr hhigh)]
    exact ⟨rfl, h.toNat_level h.drawnLevel_lt⟩
  · intro hlow
    obtain ⟨entry, hsome⟩ := Option.ne_none_iff_exists'.mp hentry
    rw [Draft.inserted_of_kept hsome hlow]
    exact ⟨rfl, rfl⟩

/-- **An addition that goes through inserts the item.** -/
theorem Draft.Sound.addItem_ensures_inserted (h : d.Sound nodes) (hentry : d.head.entryPoint ≠ none) (id : ItemId)
    (embedding : Embedding) :
    (Edit.addItem id embedding).Ensures d fun _ d' => ∃ nodes', d'.Sound nodes' ∧
      Inserted d.head.params.cap d.head.topLevel.toNat d.drawnLevel id embedding nodes nodes' ∧
      d'.head = (d.inserted id embedding).head := by
  refine Edit.ensures_bind (Edit.ensures_reading fun _ hcheck => Edit.ensures_bind (Edit.ensures_get ?_))
  split
  · exact Edit.ensures_throw _
  · rename_i hlive
    have hnew : id ∉ nodes := fun hid => hlive ((Draft.contains_eq h.holds.shows id).mpr hid)
    obtain ⟨hlength, hfinite⟩ := Embedding.check_eq_ok.mp hcheck
    refine (Edit.insert_yields h hnew hlength hfinite).ensures.imp ?_
    rintro _ d' ⟨nodes', h', hrel, hjoins⟩
    have hparams : d'.head.params = d.head.params := by
      rw [hrel.head, params_inserted]
    have hdimension : d'.head.dimension = d.head.dimension :=
      (congrArg Metadata.dimension hrel.head).trans Draft.continues_inserted.dimension
    have hwired' := h'.holds.wired
    rw [hparams, hdimension] at hwired'
    exact ⟨nodes', h', (hjoins hentry).inserted hnew h.holds.wired hwired' hrel.frames, hrel.head⟩

end Call

/-! ## Runs -/

section Results

variable {distances : Metric → Ranking} {steps : List Step} {s : Session}

/-- **What an insertion does to the graph.** After every run, an item that is added to an index with items is linked
    on every layer it shares with them, and the rest of the graph is left as `Inserted` says. The entry point changes
    exactly if the new item is on a higher level than all others. -/
theorem run_inserts (hrun : World.run distances steps = .opened s) {handle : Handle} {w : Writer}
    (hw : s.writers[handle]? = some w) (hsize : w.draft.head.size ≠ 0) :
    ∃ nodes : IdMap Node, (∀ a, w.draft.node a = .ok nodes[a]?) ∧
      ∀ id embedding w', w.run (Change.add id embedding).edit = (.ok (), w') →
        ∃ nodes' : IdMap Node, (∀ a, w'.draft.node a = .ok nodes'[a]?) ∧
          Inserted w.draft.head.params.cap w.draft.head.topLevel.toNat w.draft.drawnLevel id embedding nodes nodes' ∧
          (w'.draft.head.entryPoint ≠ w.draft.head.entryPoint ↔
            w.draft.head.topLevel.toNat < w.draft.drawnLevel) ∧
          (w.draft.head.topLevel.toNat < w.draft.drawnLevel → w'.draft.head.entryPoint = some id ∧
            w'.draft.head.topLevel.toNat = w.draft.drawnLevel) ∧
          (¬w.draft.head.topLevel.toNat < w.draft.drawnLevel →
            w'.draft.head.entryPoint = w.draft.head.entryPoint ∧
              w'.draft.head.topLevel = w.draft.head.topLevel) := by
  obtain ⟨nodes, h, _⟩ := ((Session.Sound.of_run hrun).writers handle w hw).sound
  have hentry : w.draft.head.entryPoint ≠ none := by
    intro hnone
    have hcount := h.headed.size
    rw [h.headed.entry_none.mp hnone, Std.ExtTreeMap.size_empty] at hcount
    exact hsize (UInt64.toNat_inj.mp hcount)
  refine ⟨nodes, h.holds.shows, ?_⟩
  intro id embedding w' hadd
  obtain ⟨nodes', h', hinserted, hhead⟩ :=
    h.addItem_ensures_inserted hentry id embedding () w'.draft (Writer.run_eq_ok hadd)
  obtain ⟨hmoved, hkept⟩ := h.entryPoint_inserted hentry id embedding
  rw [← hhead] at hmoved hkept
  refine ⟨nodes', h'.holds.shows, hinserted, ⟨?_, ?_⟩, hmoved, hkept⟩
  · intro hchanged
    by_contra hlow
    exact hchanged (hkept hlow).1
  · intro hhigh heq
    rw [(hmoved hhigh).1] at heq
    exact hinserted.new (h.headed.onLayer heq.symm).mem

theorem threeItems_adds : ((World.run Metric.rank threeItems).session.any fun s =>
    s.writers[(1 : Handle)]?.any fun w =>
      w.draft.head.size == 3 && (w.run (Change.add 4 [⟨0x40000000⟩]).edit).1.toOption.isSome) = true := by
  decide +kernel

/-- A fourth item is linked on the base layer. -/
theorem run_inserts_threeItems : ∃ (s : Session) (w w' : Writer) (nodes nodes' : IdMap Node),
    World.run Metric.rank threeItems = .opened s ∧ s.writers[(1 : Handle)]? = some w ∧ w.draft.head.size = 3 ∧
      w.run (Change.add 4 [⟨0x40000000⟩]).edit = (.ok (), w') ∧
      Inserted w.draft.head.params.cap w.draft.head.topLevel.toNat w.draft.drawnLevel 4 [⟨0x40000000⟩] nodes nodes' ∧
      linksOf nodes' 0 4 ≠ [] := by
  obtain ⟨s, hs, hshows⟩ := (Option.any_eq_true _ _).mp threeItems_adds
  obtain ⟨w, hw, hshows⟩ := (Option.any_eq_true _ _).mp hshows
  obtain ⟨hsize, hadd⟩ := Bool.and_eq_true_iff.mp hshows
  rw [beq_iff_eq] at hsize
  have hrun := World.session_eq_some.mp hs
  obtain ⟨nodes, _, hinserts⟩ := run_inserts hrun hw (by rw [hsize]; decide)
  obtain ⟨nodes', _, hinserted, _⟩ := hinserts 4 _ _ (eq_ok_of_isSome hadd)
  exact ⟨s, w, _, nodes, nodes', hrun, hw, hsize, eq_ok_of_isSome hadd, hinserted,
    (hinserted.linked 0 (Nat.zero_le _)).1⟩

end Results

end VectorIndex
