import VectorIndex.Database
import VectorIndex.Proofs.Changes
import VectorIndex.Proofs.Codec
import VectorIndex.Proofs.Reconnection

/-!
# `VectorIndex.Proofs.Commit` — what a commit publishes

`Committed head rows nodes` is what holds of every committed index: its rows hold the nodes of a well-formed
index in which every item can be reached. A draft opened on it is sound (`Committed.sound`), and what a sound
draft publishes is again committed (`Database.commit_cases`).

## Contents
- **Committed indexes.** `Committed`, `Committed.sound`.
- **Writing.** `Draft.Sound.node_writeTo`.
- **Drafts of an index.** `Draft.Over`, `Writer.Tracks`.
- **Publishing.** `Writer.settled`, `Writer.Settles`, `Writer.Settles.publish_eq`; `Writer.Settles.commit_cases` and
  `Database.commit_cases`, all that a commit can do.
-/

namespace VectorIndex

/-! ## Committed indexes -/

/-- The rows hold the nodes of a well-formed index in which every item can be reached. -/
structure Committed (head : Metadata) (rows : Rows) (nodes : IdMap Node) : Prop where
  shows : ∀ id, rows.node id = .ok nodes[id]?
  wellFormed : WellFormed head nodes
  valid : head.params.Valid
  spans : Spans head nodes

section Committed

variable {head : Metadata} {rows : Rows} {nodes : IdMap Node}

theorem wellFormed_empty (h : head.entryPoint = none) (hsize : head.size = 0) : WellFormed head ∅ := by
  have hnone : ∀ (id : ItemId) (node : Node), (∅ : IdMap Node)[id]? ≠ some node := by
    intro id node hnode
    simp at hnode
  refine ⟨headed_empty hsize h, ?_, ?_, ?_⟩
  · exact fun id node hnode => absurd hnode (hnone id node)
  · exact fun id node hnode => absurd hnode (hnone id node)
  · exact fun id node hnode => absurd hnode (hnone id node)

/-- A new index. -/
theorem committed_fresh {params : Params} (h : params.Valid) (dimension : Nat) (metric : Metric) :
    Committed (Metadata.fresh dimension metric params) ∅ ∅ where
  shows id := by simp [Rows.node]
  wellFormed := wellFormed_empty rfl rfl
  valid := h
  spans e he := by cases he

/-- The draft, with other distances. -/
def Draft.rankedBy (d : Draft) (rank : Ranking) : Draft := { d with rank := rank }

/-- A draft that starts from a committed index is sound, whatever it ranks by. -/
theorem Committed.sound (h : Committed head rows nodes) (rank : Ranking) (generator : Random.Generator) :
    ((Draft.ofRows head rows generator).rankedBy rank).Sound nodes := by
  obtain ⟨hwired, hheaded⟩ := wellFormed_iff.mp h.wellFormed
  refine ⟨⟨fun id => ?_, hwired, fun b hb => ?_⟩, hheaded, h.valid⟩
  · have hnode : (Draft.ofRows head rows generator).node id = rows.node id := by
      simp [Draft.node, Draft.ofRows]
    exact hnode.trans (h.shows id)
  · cases hb

end Committed

/-! ## Writing -/

section Writing

variable {α β : Type} {l : List (ItemId × α)} {m : IdMap β} {f : α → β} {id : ItemId}

/-- Of the entries that are inserted, those of other ids do not matter. -/
theorem getElem?_foldl_insert_of_not_mem (h : ∀ a, (id, a) ∉ l) :
    (l.foldl (fun m (id, a) => m.insert id (f a)) m)[id]? = m[id]? := by
  induction l generalizing m with
  | nil => rfl
  | cons entry l ih =>
      obtain ⟨other, a⟩ := entry
      rw [List.foldl_cons, ih fun a' ha' => h a' (List.mem_cons_of_mem _ ha'), getElem?_insert_id, if_neg]
      rintro rfl
      exact h a List.mem_cons_self

/-- An id gets the entry that is inserted for it, if there is only one. -/
theorem getElem?_foldl_insert_of_mem {a : α} (hmem : (id, a) ∈ l) (honly : ∀ a', (id, a') ∈ l → a' = a) :
    (l.foldl (fun m (id, a) => m.insert id (f a)) m)[id]? = some (f a) := by
  induction l generalizing m with
  | nil => exact absurd hmem List.not_mem_nil
  | cons entry l ih =>
      obtain ⟨other, a'⟩ := entry
      rw [List.foldl_cons]
      by_cases hlater : ∃ a'', (id, a'') ∈ l
      · obtain ⟨a'', ha''⟩ := hlater
        obtain rfl := honly a'' (List.mem_cons_of_mem _ ha'')
        exact ih ha'' fun b hb => honly b (List.mem_cons_of_mem _ hb)
      · rw [not_exists] at hlater
        obtain ⟨rfl, rfl⟩ := Prod.mk.inj ((List.mem_cons.mp hmem).resolve_right (hlater a))
        rw [getElem?_foldl_insert_of_not_mem hlater, getElem?_insert_id, if_pos rfl]

theorem getElem?_foldl_erase {ids : List ItemId} :
    (ids.foldl (fun m id => m.erase id) m)[id]? = if id ∈ ids then none else m[id]? := by
  induction ids generalizing m with
  | nil => simp
  | cons other ids ih =>
      rw [List.foldl_cons, ih, getElem?_erase_id]
      by_cases hid : id ∈ ids
      · rw [if_pos hid, if_pos (List.mem_cons_of_mem other hid)]
      · rw [if_neg hid]
        by_cases heq : other = id
        · rw [if_pos heq, if_pos (heq ▸ List.mem_cons_self)]
        · rw [if_neg heq, if_neg fun hc => (List.mem_cons.mp hc).elim (fun he => heq he.symm) hid]

end Writing

/-- **The written rows hold the live nodes.** -/
theorem Draft.Sound.node_writeTo {d : Draft} {nodes : IdMap Node} (h : d.Sound nodes) (id : ItemId) :
    (d.writeTo d.stored).node id = .ok nodes[id]? := by
  have hid : d.node id = .ok nodes[id]? := h.holds.shows id
  have htouch : ∀ node, (id, node) ∈ d.touched.toList ↔ d.touched[id]? = some node := fun node =>
    Std.ExtTreeMap.mem_toList_iff_getElem?_eq_some
  unfold Draft.writeTo Rows.node
  dsimp only
  -- a touched node is written last, so its row is not the one that was stored
  cases htouched : d.touched[id]? with
  | some node =>
      have hnode := touched_node h.holds.shows htouched
      rw [getElem?_foldl_insert_of_mem ((htouch node).mpr htouched), hnode]
      · dsimp only
        rw [decodeNode_encode (h.encodable hnode)]
        rfl
      · intro node' hnode'
        exact Option.some.inj (((htouch node').mp hnode').symm.trans htouched)
  | none =>
      rw [getElem?_foldl_insert_of_not_mem, getElem?_foldl_erase]
      · unfold Draft.node Rows.node at hid
        rw [htouched] at hid
        dsimp only at hid
        rw [← hid]
        by_cases hdeleted : d.deleted.contains id = true
        · have hmem := Std.ExtTreeSet.mem_toList.mpr (Std.ExtTreeSet.mem_iff_contains.mpr hdeleted)
          rw [if_pos hdeleted, if_pos hmem]
        · have hnotin : id ∉ d.deleted.toList := fun hc =>
            hdeleted (Std.ExtTreeSet.mem_iff_contains.mp (Std.ExtTreeSet.mem_toList.mp hc))
          rw [if_neg hdeleted, if_neg hnotin]
      · intro node hnode
        rw [htouch, htouched] at hnode
        cases hnode

/-! ## Drafts of an index -/

/-- The draft counts on all of the rows, or has given them up. -/
def Draft.Over (d : Draft) (rows : Rows) : Prop :=
  (d.stored = rows ∧ d.discards = false) ∨ (d.stored = ∅ ∧ d.discards = true)

theorem Draft.Over.continues {d d' : Draft} {rows : Rows} (h : d.Over rows) (hd : d.Continues d') :
    d'.Over rows := by
  rcases hd.stored with ⟨hstored, hdiscards⟩ | hgone
  · rcases h with ⟨hs, hk⟩ | ⟨hs, hk⟩
    · exact Or.inl ⟨hstored.trans hs, hdiscards.trans hk⟩
    · exact Or.inr ⟨hstored.trans hs, hdiscards.trans hk⟩
  · exact Or.inr hgone

/-- The writer holds a sound draft over the committed rows of its index. A draft without changes is that of a
    committed index. -/
structure Writer.Tracks (w : Writer) (db : Database) : Prop where
  base : ∃ rows, db.rows w.index = .ok rows ∧ w.draft.Over rows
  sound : ∃ nodes, w.draft.Sound nodes ∧ (¬w.draft.Altered → Spans w.draft.head nodes)

theorem Writer.isChanged_iff {w : Writer} : w.isChanged = true ↔ w.draft.Altered := by
  unfold isChanged Draft.Altered
  rw [Bool.or_eq_true, Bool.or_eq_true, Bool.not_eq_true', Bool.not_eq_true',
    Std.ExtTreeMap.isEmpty_eq_false_iff, Std.ExtTreeSet.isEmpty_eq_false_iff, or_assoc]

/-! ## Publishing -/

/-- The database with the description and the rows of one index. -/
def Database.withIndex (db : Database) (index : IndexId) (head : Metadata) (rows : Rows) : Database :=
  { db with
    metadata := db.metadata.insert index head.encode
    nodes := db.nodes.insert index (.rows rows) }

section Publishing

variable {db : Database} {w : Writer} {allocated : UInt64}

/-- The draft that a commit writes: reconnected, if there is something to write. -/
def Writer.settled (w : Writer) : Except Error Draft :=
  if w.isChanged then w.draft.reconnected else pure w.draft

/-- A commit of the writer writes `d`. Its nodes are `nodes'`, and all of them can be reached; they are the
    nodes of the writer's own draft but for their base lists. -/
structure Writer.Settles (w : Writer) (db : Database) (nodes : IdMap Node) (d : Draft) (nodes' : IdMap Node) :
    Prop where
  runs : w.settled = .ok d
  before : w.draft.Sound nodes
  rebased : Rebased w.draft nodes d nodes'
  sound : d.Sound nodes'
  spans : Spans d.head nodes'
  based : ∃ rows, db.rows w.index = .ok rows ∧ d.Over rows

theorem Writer.Tracks.settles (h : w.Tracks db) : ∃ nodes d nodes', w.Settles db nodes d nodes' := by
  obtain ⟨rows, hrows, hbase⟩ := h.base
  obtain ⟨nodes, hsound, hspans⟩ := h.sound
  by_cases hchanged : w.isChanged = true
  · obtain ⟨d, nodes', hrun, h', hrel, hspans', _⟩ := hsound.reconnected
    have hruns : w.settled = .ok d := by
      unfold Writer.settled
      rw [if_pos hchanged, hrun]
    exact ⟨nodes, d, nodes', hruns, hsound, hrel, h', hspans', rows, hrows,
      hbase.continues hrel.toRelinked.continues⟩
  · have hruns : w.settled = .ok w.draft := by
      unfold Writer.settled
      rw [if_neg hchanged]
      rfl
    exact ⟨nodes, w.draft, nodes, hruns, hsound, .refl, hsound,
      hspans fun hc => hchanged (isChanged_iff.mpr hc), rows, hrows, hbase⟩

/-- The written rows are those of a committed index. -/
theorem Writer.Settles.committed {nodes nodes' : IdMap Node} {d : Draft} (h : w.Settles db nodes d nodes') :
    Committed d.head (d.writeTo d.stored) nodes' :=
  ⟨h.sound.node_writeTo, h.sound.wellFormed, h.sound.valid, h.spans⟩

/-- What a commit answers: it looks at the limit on indexes, then at the quota, and fails for no other
    reason. -/
theorem Writer.Settles.publish_eq {nodes nodes' : IdMap Node} {d : Draft} (h : w.Settles db nodes d nodes') :
    db.publish w allocated =
      if w.isNew && !db.contains w.index && db.config.maxIndexes.toNat ≤ db.metadata.size then
        .error (.indexLimitReached w.index db.config.maxIndexes)
      else if db.config.quota < allocated then .error (.storage (.full allocated db.config.quota))
      else .ok (db.withIndex w.index d.head (d.writeTo d.stored)) := by
  obtain ⟨rows, hrows, hover⟩ := h.based
  have hruns := h.runs
  unfold Writer.settled at hruns
  unfold Database.publish
  rcases hover with ⟨hstored, hdiscards⟩ | ⟨hstored, hdiscards⟩ <;> by_cases hchanged : w.isChanged = true
  all_goals
    simp only [hchanged, if_true, Bool.false_eq_true, if_false] at hruns ⊢
    simp only [hruns, ok_bind, pure_bind, hdiscards, hrows, if_true, Bool.false_eq_true, if_false, hstored]
    rfl

/-- A commit fails for one of two reasons, or writes what it settled on. -/
theorem Writer.Settles.publish_cases {nodes nodes' : IdMap Node} {d : Draft} (h : w.Settles db nodes d nodes')
    (allocated : UInt64) :
    (∃ e, db.publish w allocated = .error e ∧ (e = .indexLimitReached w.index db.config.maxIndexes ∨
      e = .storage (.full allocated db.config.quota))) ∨
    db.publish w allocated = .ok (db.withIndex w.index d.head (d.writeTo d.stored)) := by
  rw [h.publish_eq]
  split
  · exact Or.inl ⟨_, rfl, Or.inl rfl⟩
  · split
    · exact Or.inl ⟨_, rfl, Or.inr rfl⟩
    · exact Or.inr rfl

/-- The index is free after a commit, and the tables are as they were, or have what was settled on. -/
theorem Writer.Settles.commit_cases {nodes nodes' : IdMap Node} {d : Draft}
    (h : w.Settles (db.release w.index) nodes d nodes') (allocated : UInt64) :
    (∃ e, db.commit w allocated = (.error e, db.release w.index) ∧
      (e = .indexLimitReached w.index db.config.maxIndexes ∨ e = .storage (.full allocated db.config.quota))) ∨
    db.commit w allocated =
      (.ok (), (db.release w.index).withIndex w.index d.head (d.writeTo d.stored)) := by
  dsimp only [Database.commit]
  rcases h.publish_cases allocated with ⟨e, he, hreason⟩ | hpublish
  · rw [he]
    exact Or.inl ⟨e, rfl, hreason⟩
  · rw [hpublish]
    exact Or.inr rfl

/-- **What is published is committed.** A commit fails for one of two reasons, or the index gets a description
    and rows that hold together; the rest of the database stays as it is. -/
theorem Database.commit_cases (h : w.Tracks (db.release w.index)) (allocated : UInt64) :
    (∃ e, db.commit w allocated = (.error e, db.release w.index) ∧
      (e = .indexLimitReached w.index db.config.maxIndexes ∨ e = .storage (.full allocated db.config.quota))) ∨
    ∃ head rows nodes, Committed head rows nodes ∧
      db.commit w allocated = (.ok (), (db.release w.index).withIndex w.index head rows) := by
  obtain ⟨_, d, nodes', hsettles⟩ := h.settles
  refine (hsettles.commit_cases allocated).imp_right fun hcommit => ?_
  exact ⟨d.head, d.writeTo d.stored, nodes', hsettles.committed, hcommit⟩

end Publishing

end VectorIndex
