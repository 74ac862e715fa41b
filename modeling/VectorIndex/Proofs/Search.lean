import Mathlib.Data.List.Perm.Subperm
import VectorIndex.Proofs.Runs

/-!
# `VectorIndex.Proofs.Search` — what a search answers

The reference is a scan of the table: `bruteForce` ranks all admitted items. A search that starts at the entry
point of a committed index can reach all of them, so its beam ends full or with every admitted item on it
(`Committed.nearest_eq`). This has two consequences, one for narrow and one for wide beams:

* no answer is short, whatever the width (`Shortlist.length_take`);
* a beam as wide as the number of admitted items is the scan (`Shortlist.eq_bruteForce`).

## Contents
- **The table.** `Searcher.table`, `bruteForce`.
- **Beams.** `Shortlist`, `Shortlist.eq_bruteForce`, `Shortlist.length_take`, `Committed.beamSearch_eq`,
  `Committed.exists_entries`, `Committed.nearest_eq`.
- **Results.** `search_exact`, `search_complete`.
-/

namespace VectorIndex

/-! ## The table -/

/-- The items of the index with their vectors, in ascending order. -/
def Searcher.table (x : Searcher) : List (ItemId × Embedding) := x.items.filterMap Except.toOption

/-- All admitted items of a table, ranked by their distances to `query`. -/
def bruteForce (rank : Ranking) (query : Embedding) (admits : ItemId → Bool)
    (table : List (ItemId × Embedding)) : List Neighbor :=
  Neighbor.sort ((table.filter fun item => admits item.1).map fun item => ⟨item.1, rank query item.2⟩)

section Table

variable {x : Searcher} {nodes : IdMap Node}

theorem Committed.row (h : Committed x.head x.rows nodes) {id : ItemId} {record : Bytes}
    (hrow : x.rows[id]? = some record) : ∃ node, decodeNode record = .ok node ∧ nodes[id]? = some node := by
  have hid := h.shows id
  unfold Rows.node at hid
  rw [hrow] at hid
  dsimp only at hid
  cases hdecode : decodeNode record with
  | error e =>
      rw [hdecode] at hid
      cases hid
  | ok node =>
      rw [hdecode] at hid
      exact ⟨node, rfl, (Except.ok.inj hid).symm⟩

/-- The rows are those of the nodes. -/
theorem Committed.mem_rows (h : Committed x.head x.rows nodes) {id : ItemId} : id ∈ x.rows ↔ id ∈ nodes := by
  have hid := h.shows id
  unfold Rows.node at hid
  rw [mem_iff_exists, mem_iff_exists]
  constructor
  · rintro ⟨record, hrecord⟩
    obtain ⟨node, _, hnode⟩ := h.row hrecord
    exact ⟨node, hnode⟩
  · rintro ⟨node, hnode⟩
    cases hrecord : x.rows[id]? with
    | some record => exact ⟨record, rfl⟩
    | none =>
        rw [hrecord, hnode] at hid
        cases Except.ok.inj hid

/-- The vector of an item. -/
def vectorOf (nodes : IdMap Node) (id : ItemId) : Embedding := (nodes[id]?.map Node.embedding).getD []

/-- No item is damaged: the table lists the ids of the rows with the vectors of their nodes. -/
theorem Committed.items_eq (h : Committed x.head x.rows nodes) :
    x.items = x.table.map .ok ∧ x.table = x.rows.keys.map fun id => (id, vectorOf nodes id) := by
  have hitems : x.items = (x.rows.toList.map fun row => (row.1, vectorOf nodes row.1)).map .ok := by
    unfold Searcher.items
    rw [List.map_map]
    refine List.map_congr_left fun row hrow => ?_
    obtain ⟨node, hdecode, hnode⟩ := h.row (Std.ExtTreeMap.mem_toList_iff_getElem?_eq_some.mp hrow)
    simp only [hdecode, Function.comp, vectorOf, hnode]
    rfl
  have htable : x.table = x.rows.toList.map fun row => (row.1, vectorOf nodes row.1) := by
    unfold Searcher.table
    rw [hitems, List.filterMap_map]
    exact List.filterMap_some
  refine ⟨htable ▸ hitems, ?_⟩
  rw [htable, ← Std.ExtTreeMap.map_fst_toList_eq_keys, List.map_map]
  rfl

theorem Committed.length_table (h : Committed x.head x.rows nodes) : x.table.length = x.items.length := by
  rw [h.items_eq.1, List.length_map]

theorem Committed.mem_table (h : Committed x.head x.rows nodes) {id : ItemId} {v : Embedding} :
    (id, v) ∈ x.table ↔ ∃ node, nodes[id]? = some node ∧ node.embedding = v := by
  rw [h.items_eq.2, List.mem_map]
  constructor
  · rintro ⟨id', hkey, heq⟩
    obtain ⟨rfl, rfl⟩ := Prod.mk.inj heq
    obtain ⟨record, hrow⟩ := mem_iff_exists.mp (Std.ExtTreeMap.mem_keys.mp hkey)
    obtain ⟨node, _, hnode⟩ := h.row hrow
    exact ⟨node, hnode, by simp [vectorOf, hnode]⟩
  · rintro ⟨node, hnode, rfl⟩
    have hrow : id ∈ x.rows := h.mem_rows.mpr (mem_iff_exists.mpr ⟨node, hnode⟩)
    exact ⟨id, Std.ExtTreeMap.mem_keys.mpr hrow, by simp [vectorOf, hnode]⟩

/-- No id is listed twice. -/
theorem Committed.nodup_table (h : Committed x.head x.rows nodes) : (x.table.map Prod.fst).Nodup := by
  rw [h.items_eq.2, List.map_map]
  exact (List.map_id x.rows.keys).symm ▸ Std.ExtTreeMap.nodup_keys

variable (rank : Ranking) (query : Embedding) (admits : ItemId → Bool)

/-- The scan finds the live items that are admitted, each with its own distance. -/
theorem Committed.mem_bruteForce (h : Committed x.head x.rows nodes) {n : Neighbor} :
    n ∈ bruteForce rank query admits x.table ↔ Scored rank nodes query n ∧ admits n.id = true := by
  unfold bruteForce Neighbor.sort
  rw [(Neighbor.sortOn_perm _).mem_iff, List.mem_map]
  constructor
  · rintro ⟨⟨id, v⟩, hitem, rfl⟩
    obtain ⟨hmem, hadmits⟩ := List.mem_filter.mp hitem
    obtain ⟨node, hnode, rfl⟩ := h.mem_table.mp hmem
    exact ⟨by simp [Scored, scoreOf, hnode], hadmits⟩
  · rintro ⟨hscored, hadmits⟩
    obtain ⟨node, hnode, hdistance⟩ := hscored.exists_node
    refine ⟨(n.id, node.embedding), List.mem_filter.mpr ⟨h.mem_table.mpr ⟨node, hnode, rfl⟩, hadmits⟩, ?_⟩
    rw [← hdistance]

theorem Committed.nodup_bruteForce (h : Committed x.head x.rows nodes) :
    ((bruteForce rank query admits x.table).map Neighbor.id).Nodup := by
  unfold bruteForce Neighbor.sort
  rw [((Neighbor.sortOn_perm _).map Neighbor.id).nodup_iff, List.map_map]
  exact h.nodup_table.sublist (List.filter_sublist.map Prod.fst)

theorem sorted_bruteForce (table : List (ItemId × Embedding)) :
    Neighbor.Sorted (bruteForce rank query admits table) :=
  Neighbor.sortedOn_sortOn _

theorem length_bruteForce (table : List (ItemId × Embedding)) :
    (bruteForce rank query admits table).length = (table.filter fun item => admits item.1).length := by
  unfold bruteForce Neighbor.sort
  rw [(Neighbor.sortOn_perm _).length_eq, List.length_map]

end Table

/-! ## Beams -/

/-- Some of the admitted items, ranked: all of them, unless there are `width`. -/
structure Shortlist (rank : Ranking) (nodes : IdMap Node) (query : Embedding) (admits : ItemId → Bool)
    (width : Nat) (beam : List Neighbor) : Prop where
  scored : ∀ n ∈ beam, Scored rank nodes query n
  admitted : ∀ n ∈ beam, admits n.id = true
  sorted : Neighbor.Sorted beam
  distinct : (beam.map Neighbor.id).Nodup
  exhaustive : beam.length = width ∨ ∀ id ∈ nodes, admits id = true → id ∈ beam.map Neighbor.id

section Beams

variable {x : Searcher} {nodes : IdMap Node} {rank : Ranking} {query : Embedding} {admits : ItemId → Bool}
  {width k : Nat} {beam : List Neighbor}

theorem Shortlist.subset (h : Shortlist rank nodes query admits width beam)
    (hc : Committed x.head x.rows nodes) : beam ⊆ bruteForce rank query admits x.table :=
  fun n hn => (hc.mem_bruteForce rank query admits).mpr ⟨h.scored n hn, h.admitted n hn⟩

theorem nodup_of_ids (h : (beam.map Neighbor.id).Nodup) : beam.Nodup :=
  List.Pairwise.of_map Neighbor.id (fun _ _ hne heq => hne (congrArg Neighbor.id heq)) h

/-- A beam that has room, or would have room for all admitted items, holds all of them. -/
theorem Shortlist.perm (h : Shortlist rank nodes query admits width beam) (hc : Committed x.head x.rows nodes)
    (hroom : beam.length ≠ width ∨ (bruteForce rank query admits x.table).length ≤ width) :
    beam.Perm (bruteForce rank query admits x.table) := by
  have hsubperm := List.subperm_of_subset (nodup_of_ids h.distinct) (h.subset hc)
  by_cases hfull : beam.length = width
  · refine hsubperm.perm_of_length_le ?_
    rw [hfull]
    exact hroom.resolve_left fun hne => hne hfull
  · -- a beam with room left nothing out
    have hscan := nodup_of_ids (hc.nodup_bruteForce rank query admits)
    refine (List.perm_ext_iff_of_nodup (nodup_of_ids h.distinct) hscan).mpr ?_
    intro n
    refine ⟨fun hn => h.subset hc hn, fun hn => ?_⟩
    obtain ⟨hscored, hadmits⟩ := (hc.mem_bruteForce rank query admits).mp hn
    obtain ⟨m, hm, hid⟩ := List.mem_map.mp (h.exhaustive.resolve_left hfull n.id hscored.mem hadmits)
    exact (h.scored m hm).eq_of_id hscored hid ▸ hm

/-- A wide beam is the scan. -/
theorem Shortlist.eq_bruteForce (h : Shortlist rank nodes query admits width beam)
    (hc : Committed x.head x.rows nodes)
    (hwide : (bruteForce rank query admits x.table).length ≤ width) :
    beam = bruteForce rank query admits x.table :=
  (h.perm hc (Or.inr hwide)).eq_of_pairwise (fun _ _ _ _ => Neighbor.le_antisymm) h.sorted
    (sorted_bruteForce rank query admits x.table)

/-- No answer is short. -/
theorem Shortlist.length_take (h : Shortlist rank nodes query admits width beam)
    (hc : Committed x.head x.rows nodes) (hk : k ≤ width) :
    (beam.take k).length = min k (bruteForce rank query admits x.table).length := by
  rw [List.length_take]
  by_cases hfull : beam.length = width
  · have hle := (List.subperm_of_subset (nodup_of_ids h.distinct) (h.subset hc)).length_le
    omega
  · rw [(h.perm hc (Or.inl hfull)).length_eq]

theorem shortlist_nil (hout : ∀ id ∈ nodes, admits id ≠ true) :
    Shortlist rank nodes query admits width [] where
  scored _ hn := absurd hn List.not_mem_nil
  admitted _ hn := absurd hn List.not_mem_nil
  sorted := List.Pairwise.nil
  distinct := List.nodup_nil
  exhaustive := Or.inr fun id hid hadmits => absurd hadmits (hout id hid)

/-- The scan itself is a shortlist, of any width. -/
theorem Committed.shortlist_bruteForce (h : Committed x.head x.rows nodes) :
    Shortlist rank nodes query admits width (bruteForce rank query admits x.table) where
  scored n hn := ((h.mem_bruteForce rank query admits).mp hn).1
  admitted n hn := ((h.mem_bruteForce rank query admits).mp hn).2
  sorted := sorted_bruteForce rank query admits x.table
  distinct := h.nodup_bruteForce rank query admits
  exhaustive := by
    right
    intro id hid hadmits
    obtain ⟨n, rfl, hn⟩ := exists_scored_of_mem rank query hid
    exact List.mem_map_of_mem ((h.mem_bruteForce rank query admits).mpr ⟨hn, hadmits⟩)

/-- From the entry point links lead to every item, so a beam that is entered there misses none. -/
theorem Committed.beamSearch_eq (h : Committed x.head x.rows nodes) {entries : List Neighbor}
    (hentries : ∀ n ∈ entries, Scored rank nodes query n) {entry : Neighbor} (hentry : entry ∈ entries)
    (hhead : x.head.entryPoint = some entry.id) (width : Nat) (admits : ItemId → Bool) :
    ∃ beam, (x.rows.graph rank).beamSearch query entries width 0 admits = .ok beam ∧
      Shortlist rank nodes query admits width beam := by
  have hshows : (x.rows.graph rank).Shows nodes := h.shows
  obtain ⟨beam, hbeam, hres⟩ := hshows.beamSearch hentries width 0 admits
  refine ⟨beam, hbeam, hres.scored, hres.admitted, hres.sorted, hres.distinct, ?_⟩
  refine hres.exhaustive.imp_right fun hall id hid hadmits => ?_
  exact hall entry hentry id (h.spans entry.id hhead id hid) hadmits

/-- **Where a search enters the base layer**: at a node near the query and at the entry point, whatever is asked
    for. -/
theorem Committed.exists_entries (h : Committed x.head x.rows nodes) (rank : Ranking) (query : Embedding)
    {entry : ItemId} (hentry : x.head.entryPoint = some entry) :
    ∃ (entries : List Neighbor) (start : Neighbor), (∀ n ∈ entries, Scored rank nodes query n) ∧
      start ∈ entries ∧ start.id = entry ∧
      ∀ (k ef : Nat) (filter : Option IdSet), ¬ (k = 0 || filter.any (·.isEmpty)) = true →
        (x.rows.graph rank).nearest x.head.entryPoint x.head.topLevel.toNat query k ef filter =
          (x.rows.graph rank).beamSearch query entries (max ef k) 0 (admittedBy filter) >>= fun beam =>
            .ok (beam.take k) := by
  have hshows : (x.rows.graph rank).Shows nodes := h.shows
  obtain ⟨hwired, hheaded⟩ := wellFormed_iff.mp h.wellFormed
  have hon := hheaded.onLayer hentry
  obtain ⟨start, rfl, hstart⟩ := exists_scored_of_mem rank query hon.mem
  obtain ⟨close, hdescend, hclose, _⟩ := hshows.descend hwired.layered hstart hon 0
  -- the descent may have come back to the entry point; it is entered once then
  obtain ⟨entries, hseeds, hscored, hmem⟩ : ∃ entries : List Neighbor,
      (if close.id = start.id then [close] else [close, start]) = entries ∧
        (∀ n ∈ entries, Scored rank nodes query n) ∧ start ∈ entries := by
    by_cases hback : close.id = start.id
    · obtain rfl := hclose.eq_of_id hstart hback
      exact ⟨[close], by rw [if_pos rfl], fun n hn => List.mem_singleton.mp hn ▸ hclose,
        List.mem_singleton.mpr rfl⟩
    · refine ⟨[close, start], by rw [if_neg hback], fun n hn => ?_, by simp⟩
      rcases List.mem_cons.mp hn with rfl | hn
      · exact hclose
      · exact List.mem_singleton.mp hn ▸ hstart
  refine ⟨entries, start, hscored, hmem, rfl, fun k ef filter hsomething => ?_⟩
  have hscore : (x.rows.graph rank).score query start.id = .ok (some start) := by
    rw [hshows.score]
    exact congrArg Except.ok hstart
  unfold Graph.nearest
  rw [if_neg hsomething, hentry]
  dsimp only
  rw [hscore, ok_bind]
  dsimp only
  rw [hdescend, ok_bind, hseeds]
  rfl

/-- **The beam of a search.** A search that asks for nothing, or in an empty index, needs none. -/
theorem Committed.nearest_eq (h : Committed x.head x.rows nodes) (rank : Ranking) (query : Embedding)
    (k ef : Nat) (filter : Option IdSet) :
    ∃ beam, (x.rows.graph rank).nearest x.head.entryPoint x.head.topLevel.toNat query k ef filter =
        .ok (beam.take k) ∧ Shortlist rank nodes query (admittedBy filter) (max ef k) beam := by
  by_cases hnothing : (k = 0 || filter.any (·.isEmpty)) = true
  · unfold Graph.nearest
    rw [if_pos hnothing]
    rw [Bool.or_eq_true, decide_eq_true_eq] at hnothing
    rcases hnothing with rfl | hempty
    · -- nothing is asked for, so any shortlist will do
      exact ⟨bruteForce rank query (admittedBy filter) x.table, by rw [List.take_zero]; rfl,
        h.shortlist_bruteForce⟩
    · -- an empty filter admits nothing
      obtain ⟨ids, rfl, hids⟩ := (Option.any_eq_true _ filter).mp hempty
      refine ⟨[], by rw [List.take_nil]; rfl, shortlist_nil fun id _ hadmits => ?_⟩
      rw [Std.ExtTreeSet.isEmpty_iff.mp hids] at hadmits
      simp [admittedBy] at hadmits
  · cases hentry : x.head.entryPoint with
    | none =>
        unfold Graph.nearest
        rw [if_neg hnothing]
        refine ⟨[], by rw [List.take_nil]; rfl, shortlist_nil fun id hid => ?_⟩
        rw [(wellFormed_iff.mp h.wellFormed).2.entry_none.mp hentry] at hid
        exact absurd hid Std.ExtTreeMap.not_mem_empty
    | some entry =>
        obtain ⟨entries, start, hscored, hmem, rfl, heq⟩ := h.exists_entries rank query hentry
        obtain ⟨beam, hbeam, hshort⟩ :=
          h.beamSearch_eq hscored hmem hentry (max ef k) (admittedBy filter)
        refine ⟨beam, ?_, hshort⟩
        rw [← hentry, heq k ef filter hnothing, hbeam, ok_bind]

end Beams

/-! ## Results -/

/-- A search, with or without a filter. -/
def Searcher.ask (x : Searcher) (query : Embedding) (k ef : Nat) : Option IdSet → Except Error (List Neighbor)
  | none => x.search query k ef
  | some ids => x.searchFiltered query k ef ids

/-- A neighbour as a caller is told of it. -/
def Neighbor.reported (metric : Metric) (n : Neighbor) : Neighbor := ⟨n.id, metric.report n.distance⟩

section Results

variable {distances : Metric → Ranking} {steps : List Step} {s : Session} {index : IndexId} {x : Searcher}
  {query : Embedding}

/-- A query of the right length gets the nearest items, with reported distances. -/
theorem Searcher.ask_eq (hquery : query.length = x.dimension) {k ef : Nat} {filter : Option IdSet}
    {found : List Neighbor}
    (hfound : (x.rows.graph x.head.metric.rank).nearest x.head.entryPoint x.head.topLevel.toNat query k ef
      filter = .ok found) :
    x.ask query k ef filter = .ok (found.map (Neighbor.reported x.head.metric)) := by
  have hcheck : x.checkQuery query = .ok () := by
    unfold Searcher.checkQuery
    rw [if_pos hquery]
  have hnearest : x.nearest query k ef filter = .ok (found.map (Neighbor.reported x.head.metric)) := by
    unfold Searcher.nearest Searcher.graph
    rw [hfound]
    rfl
  cases filter with
  | none =>
      show x.search query k ef = _
      unfold Searcher.search
      rw [hcheck, ok_bind, hnearest]
  | some ids =>
      show x.searchFiltered query k ef ids = _
      unfold Searcher.searchFiltered
      rw [hcheck, ok_bind, hnearest]

/-- **A wide beam answers as a scan of the table does.** If the beam has room for all admitted items, a search
    of a committed index gives the first `k` of all of them, ranked, whatever the query holds; and so it
    does for every other way to rank. -/
theorem search_exact (hrun : World.run distances steps = .opened s) (hx : s.db.searcher index = .ok x)
    (hquery : query.length = x.dimension) (k ef : Nat) (filter : Option IdSet)
    (hwide : (x.table.filter fun item => admittedBy filter item.1).length ≤ max ef k) :
    x.items = x.table.map .ok ∧
    x.ask query k ef filter =
      .ok (((bruteForce x.head.metric.rank query (admittedBy filter) x.table).take k).map
        (Neighbor.reported x.head.metric)) ∧
    ∀ rank : Ranking, (x.rows.graph rank).nearest x.head.entryPoint x.head.topLevel.toNat query k ef filter =
      .ok ((bruteForce rank query (admittedBy filter) x.table).take k) := by
  obtain ⟨nodes, hc⟩ := (Session.Sound.of_run hrun).tables.of_searcher hx
  have hall : ∀ rank : Ranking, (x.rows.graph rank).nearest x.head.entryPoint x.head.topLevel.toNat query k ef
      filter = .ok ((bruteForce rank query (admittedBy filter) x.table).take k) := by
    intro rank
    obtain ⟨beam, hbeam, hshort⟩ := hc.nearest_eq rank query k ef filter
    rw [hbeam, hshort.eq_bruteForce hc (by rw [length_bruteForce]; exact hwide)]
  exact ⟨hc.items_eq.1, Searcher.ask_eq hquery (hall _), hall⟩

theorem search_exact_threeItems : ∃ (s : Session) (x : Searcher),
    World.run Metric.rank threeItems = .opened s ∧ s.db.searcher 7 = .ok x ∧ x.table.length = 2 ∧
      x.ask [⟨0x40000000⟩] 1 2 none =
        .ok (((bruteForce x.head.metric.rank [⟨0x40000000⟩] (admittedBy none) x.table).take 1).map
          (Neighbor.reported x.head.metric)) := by
  obtain ⟨s, _, x, hrun, _, hx, hdimension, hitems⟩ := threeItems_run
  obtain ⟨_, hc⟩ := (Session.Sound.of_run hrun).tables.of_searcher hx
  have hlength : x.table.length = 2 := hc.length_table.trans hitems
  have hwide : (x.table.filter fun item => admittedBy none item.1).length ≤ max 2 1 := by
    rw [Nat.max_eq_left (by decide), ← hlength]
    exact List.length_filter_le _ _
  have hquery : [(⟨0x40000000⟩ : Single)].length = x.dimension := hdimension.symm
  exact ⟨s, x, hrun, hx, hlength, (search_exact hrun hx hquery 1 2 none hwide).2.1⟩

/-- **No answer is short.** A search of a committed index goes through, whatever the beam and the filter. It
    gives `k` items, or all admitted ones if they are fewer: each live, admitted, at its own distance and
    given once, in the order by which the index ranks. -/
theorem search_complete (hrun : World.run distances steps = .opened s) (hx : s.db.searcher index = .ok x)
    (hquery : query.length = x.dimension) (k ef : Nat) (filter : Option IdSet) :
    ∃ ranked : List Neighbor,
      x.ask query k ef filter = .ok (ranked.map (Neighbor.reported x.head.metric)) ∧
      ranked.length = min k (x.table.filter fun item => admittedBy filter item.1).length ∧
      (ranked.map Neighbor.id).Nodup ∧ Neighbor.Sorted ranked ∧
      ∀ n ∈ ranked, admittedBy filter n.id = true ∧ ∃ v, (n.id, v) ∈ x.table ∧
        n.distance = x.head.metric.rank query v ∧
        x.head.metric.distance query v = .ok (n.reported x.head.metric).distance := by
  obtain ⟨nodes, hc⟩ := (Session.Sound.of_run hrun).tables.of_searcher hx
  obtain ⟨beam, hbeam, hshort⟩ := hc.nearest_eq x.head.metric.rank query k ef filter
  refine ⟨beam.take k, Searcher.ask_eq hquery hbeam, ?_, ?_, ?_, ?_⟩
  · rw [hshort.length_take hc (Nat.le_max_right ef k), length_bruteForce]
  · exact hshort.distinct.sublist ((List.take_sublist k beam).map Neighbor.id)
  · exact hshort.sorted.sublist (List.take_sublist k beam)
  · intro n hn
    have hmem := List.mem_of_mem_take hn
    obtain ⟨node, hnode, hdistance⟩ := (hshort.scored n hmem).exists_node
    have hlength : query.length = node.embedding.length :=
      hquery.trans (hc.wellFormed.vectors n.id node hnode).1.symm
    refine ⟨hshort.admitted n hmem, node.embedding, hc.mem_table.mpr ⟨node, hnode, rfl⟩, hdistance, ?_⟩
    unfold Metric.distance
    rw [if_pos hlength, ← hdistance]
    rfl

/-- The query is a NaN, and the beam has no width of its own. -/
theorem search_complete_threeItems : ∃ (s : Session) (x : Searcher) (found : List Neighbor),
    World.run Metric.rank threeItems = .opened s ∧ s.db.searcher 7 = .ok x ∧
      x.ask [⟨0x7fc00000⟩] 2 0 none = .ok found ∧ found.length = 2 := by
  obtain ⟨s, _, x, hrun, _, hx, hdimension, hitems⟩ := threeItems_run
  obtain ⟨_, hc⟩ := (Session.Sound.of_run hrun).tables.of_searcher hx
  have hlength : x.table.length = 2 := hc.length_table.trans hitems
  have hquery : [(⟨0x7fc00000⟩ : Single)].length = x.dimension := hdimension.symm
  have hall : (x.table.filter fun item => admittedBy none item.1) = x.table :=
    List.filter_eq_self.mpr fun _ _ => rfl
  obtain ⟨ranked, hask, hcount, _⟩ := search_complete hrun hx hquery 2 0 none
  refine ⟨s, x, _, hrun, hx, hask, ?_⟩
  rw [List.length_map, hcount, hall, hlength]
  rfl

end Results

end VectorIndex
