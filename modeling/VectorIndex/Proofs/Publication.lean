import VectorIndex.Proofs.Search

/-!
# `VectorIndex.Proofs.Publication` — a commit publishes what its writer shows

The nodes that a writer shows lie in three places: rows of the snapshot, changed nodes, deleted ids. A commit
writes them to one table through the encoder, and a searcher reads them back through the decoder. The result is
`commit_publishes`: the searcher reads exactly the nodes that the draft of the commit shows, now and after the
file was closed and opened again, and so every search on the two gives the same.

## Contents
- **Legible databases.** `Database.Legible`: every description and every row can be read. `Legible.reopens`.
- **Rankings.** `World.Ranked`: a writer ranks by the distances of the metric of its index.
- **Result.** `Searcher.Sees`, `commit_publishes`.
-/

namespace VectorIndex

/-! ## Legible databases -/

/-- Every description can be read, and every row of every table. -/
structure Database.Legible (db : Database) : Prop where
  heads : ∀ (index : IndexId) (row : Bytes), db.metadata[index]? = some row →
    ∃ head, Metadata.decode row = .ok head
  tables : ∀ (index : IndexId) (table : Table Rows), db.nodes[index]? = some table →
    ∃ rows, table = .rows rows ∧ ∀ (id : ItemId) (record : Bytes), rows[id]? = some record →
      ∃ node, decodeNode record = .ok node ∧ decodeNodeLevel record = .ok node.level

section Legible

variable {db : Database} {index : IndexId}

theorem Tables.legible (h : Tables db.metadata db.nodes) : db.Legible where
  heads index row hrow := by
    obtain ⟨head, _, _, hdecode, _⟩ := h.present index row hrow
    exact ⟨head, hdecode⟩
  tables index table htable := by
    cases hrow : db.metadata[index]? with
    | none =>
        rw [h.absent index hrow] at htable
        cases htable
    | some row =>
        obtain ⟨head, rows, found, _, hrows, hc⟩ := h.present index row hrow
        refine ⟨rows, Option.some.inj (htable.symm.trans hrows), fun id record hrecord => ?_⟩
        obtain ⟨node, hdecode, _⟩ := Committed.row (x := ⟨index, head, rows⟩) hc hrecord
        exact ⟨node, hdecode, decodeNodeLevel_of_decodeNode hdecode⟩

/-- The check of the descriptions looks at each of them. -/
theorem Database.checkRows_eq_ok {rows : List (IndexId × Bytes)} :
    checkRows rows = .ok () ↔ ∀ entry ∈ rows, ∃ head, Metadata.decode entry.2 = .ok head := by
  induction rows with
  | nil => simp [checkRows]
  | cons entry rows ih =>
      obtain ⟨index, row⟩ := entry
      unfold checkRows
      rw [bind_eq_ok, List.forall_mem_cons, ← ih]
      simp only [mapError_eq_ok, exists_and_right]

/-- **A legible file can be opened again**, and shows the same indexes. -/
theorem Database.Legible.reopens (h : db.Legible) {config : Config} (hconfig : config.params.Valid) :
    ∃ db', openFile config (.store db.close) = .ok db' ∧ ∀ index, db'.searcher index = db.searcher index := by
  have hrows : checkRows db.metadata.toList = .ok () := by
    refine checkRows_eq_ok.mpr fun entry hentry => ?_
    exact h.heads entry.1 entry.2 (Std.ExtTreeMap.mem_toList_iff_getElem?_eq_some.mp hentry)
  refine ⟨⟨config, db.metadata, db.nodes, ∅⟩, ?_, fun _ => rfl⟩
  unfold openFile
  rw [Params.check_eq_ok.mpr hconfig, ok_bind]
  dsimp only [close]
  rw [hrows, ok_bind]
  rfl

end Legible

/-! ## Rankings -/

/-- Every writer ranks by the distances of the metric of its index. -/
def World.Ranked (distances : Metric → Ranking) (world : World) : Prop :=
  ∀ s, world = .opened s → ∀ (handle : Handle) (w : Writer), s.writers[handle]? = some w →
    w.draft.rank = distances w.draft.head.metric

section Ranked

variable {distances : Metric → Ranking} {steps : List Step} {s : Session} {handle : Handle} {w : Writer}

/-- A change leaves the ranking alone, and the metric. -/
theorem Change.run_continues {nodes : IdMap Node} (h : w.draft.Sound nodes) (change : Change) :
    w.draft.Continues (w.run change.edit).2.draft := by
  unfold Writer.run
  rcases change.edit_on h with ⟨e, _, hrun⟩ | ⟨items, d', _, hrun, _, _, _, hcontinues, _⟩
  · rw [hrun]
    exact .refl
  · rw [hrun]
    exact hcontinues

theorem World.ranked_step {world : World} (h : world.Ranked distances) (hsound : world.Sound) (step : Step) :
    (world.step distances step).Ranked distances := by
  intro s hs handle w hw
  rcases World.opened_step hs with ⟨db, rfl⟩ | hsame | ⟨before, c, rfl, rfl, rfl⟩
  · simp at hw
  · exact h s hsame handle w hw
  · rcases Session.writers_step hw with hold | ⟨_, _, _, _, _, opened, _, _, _, rfl⟩ | ⟨change, old, _, hold, rfl⟩
    · exact h before rfl handle w hold
    · rfl
    · obtain ⟨nodes, hdraft, _⟩ := (Session.Sound.writers hsound handle old hold).sound
      have hcontinues := Change.run_continues hdraft change
      rw [hcontinues.rank, hcontinues.metric]
      exact h before rfl handle old hold

theorem World.ranked_run (distances : Metric → Ranking) (steps : List Step) :
    (World.run distances steps).Ranked distances :=
  World.run_induction (P := fun world => world.Ranked distances) (fun s hs => by cases hs)
    (fun _ step hsound h => World.ranked_step h hsound step) steps

end Ranked

/-! ## Result -/

/-- The searcher has the description of the draft, and reads the nodes that the draft shows. -/
structure Searcher.Sees (x : Searcher) (d : Draft) : Prop where
  head : x.head = d.head
  node : ∀ id, x.rows.node id = d.node id

section Results

variable {distances : Metric → Ranking} {steps : List Step} {s : Session} {handle : Handle} {w : Writer}

/-- To a search they are one graph. -/
theorem Searcher.Sees.graph_eq {x : Searcher} {d : Draft} (h : x.Sees d)
    (hrank : d.rank = distances d.head.metric) : x.rows.graph (distances x.head.metric) = d.graph := by
  unfold Rows.graph Draft.graph
  rw [h.head, hrank, funext h.node]

/-- **A commit publishes what its writer shows.** If a commit goes through, the draft it wrote (the writer's,
    with every item linked back) and the searchers of the index, opened now or after the file was opened again
    with any valid parameters, show the same node for each id and have the same description; nothing in the file
    is illegible; and beam searches and descents on the two give the same. -/
theorem commit_publishes (hrun : World.run distances steps = .opened s) (hw : s.writers[handle]? = some w)
    {allocated : UInt64} (hok : (s.db.commit w allocated).1 = .ok ()) :
    ∃ (d : Draft) (x : Searcher), w.settled = .ok d ∧ d.head = w.draft.head ∧
      (∀ id, ∃ found, d.node id = .ok found) ∧
      (s.db.commit w allocated).2.searcher w.index = .ok x ∧ x.Sees d ∧ (s.db.commit w allocated).2.Legible ∧
      (∀ config : Config, config.params.Valid → ∃ db,
        Database.openFile config (.store (s.db.commit w allocated).2.close) = .ok db ∧
          db.searcher w.index = .ok x) ∧
      (∀ query entries width layer admits,
        (x.rows.graph (distances x.head.metric)).beamSearch query entries width layer admits =
          d.graph.beamSearch query entries width layer admits) ∧
      ∀ query entry top bottom, (x.rows.graph (distances x.head.metric)).descend query entry top bottom =
        d.graph.descend query entry top bottom := by
  have hsound := Session.Sound.of_run hrun
  have htracks : w.Tracks (s.db.release w.index) := (hsound.writers handle w hw).of_rows rfl
  obtain ⟨nodes, d, nodes', hsettles⟩ := htracks.settles
  -- the commit went through, so the database is the one with the settled draft
  have hcommit : (s.db.commit w allocated).2 =
      (s.db.release w.index).withIndex w.index d.head (d.writeTo d.stored) := by
    rcases hsettles.commit_cases allocated with ⟨e, hcommit, _⟩ | hcommit
    · rw [hcommit] at hok
      cases hok
    · rw [hcommit]
  have hlegible : (s.db.commit w allocated).2.Legible := (hsound.commit hw allocated).tables.legible
  have hsearcher : (s.db.commit w allocated).2.searcher w.index =
      .ok ⟨w.index, d.head, d.writeTo d.stored⟩ := by
    have hdecode := Metadata.decode_encode d.head []
    rw [List.append_nil] at hdecode
    rw [hcommit]
    refine Database.searcher_eq_ok.mpr ⟨rfl, ?_, ?_⟩
    · exact Database.head_eq_some.mpr ⟨_, Std.ExtTreeMap.getElem?_insert_self, hdecode⟩
    · exact Database.rows_eq_ok.mpr (Or.inl Std.ExtTreeMap.getElem?_insert_self)
  have hnode : ∀ id, d.node id = .ok nodes'[id]? := hsettles.sound.holds.shows
  have hsees : Searcher.Sees ⟨w.index, d.head, d.writeTo d.stored⟩ d :=
    ⟨rfl, fun id => (hsettles.committed.shows id).trans (hnode id).symm⟩
  have hrank : d.rank = distances d.head.metric := by
    rw [hsettles.rebased.rank, hsettles.rebased.head]
    exact World.ranked_run distances steps s hrun handle w hw
  have hgraph := hsees.graph_eq hrank
  refine ⟨d, _, hsettles.runs, hsettles.rebased.head, fun id => ⟨_, hnode id⟩, hsearcher, hsees, hlegible, ?_,
    fun _ _ _ _ _ => ?_, fun _ _ _ _ => ?_⟩
  · intro config hconfig
    obtain ⟨db, hopen, hsame⟩ := hlegible.reopens hconfig
    exact ⟨db, hopen, (hsame w.index).trans hsearcher⟩
  · rw [hgraph]
  · rw [hgraph]

theorem threeItems_commits : ((World.run Metric.rank threeItems).session.any fun s =>
    s.writers[(1 : Handle)]?.any fun w => (s.db.commit w 8192).1.toOption.isSome) = true := by
  decide +kernel

theorem commit_publishes_threeItems : ∃ (s : Session) (w : Writer) (d : Draft) (x : Searcher),
    World.run Metric.rank threeItems = .opened s ∧ s.writers[(1 : Handle)]? = some w ∧ w.settled = .ok d ∧
      (s.db.commit w 8192).2.searcher w.index = .ok x ∧ x.Sees d ∧ x.head.size = 3 := by
  obtain ⟨s, w, _, hrun, ⟨hw, _, hsize⟩, _⟩ := threeItems_run
  have hcommits := threeItems_commits
  rw [hrun] at hcommits
  have hok : (s.db.commit w 8192).1 = .ok () := by
    simp only [World.session, Option.any_some, hw, Option.isSome_iff_exists] at hcommits
    obtain ⟨_, hcommits⟩ := hcommits
    exact toOption_eq_some.mp hcommits
  obtain ⟨d, x, hruns, hhead, _, hx, hsees, _⟩ := commit_publishes hrun hw hok
  exact ⟨s, w, d, x, hrun, hw, hruns, hx, hsees, by rw [hsees.head, hhead, hsize]⟩

end Results

end VectorIndex
