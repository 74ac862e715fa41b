import VectorIndex.Proofs.Comparison
import VectorIndex.Proofs.BeamSearch

/-!
# `VectorIndex.Proofs.LocalOptimum` — what a halted search has settled

A beam search on any graph ends at a local optimum: whatever is linked from an item it returns is returned
too, or the list is full and nothing on it is further. Two invariants carry this through the loop:

* `Beam.Settles` — an admitted item that was seen is on the shortlist, or the shortlist is full of items that
  are not further. Items are turned away only by a full shortlist, and a full shortlist only gets nearer.
* an item of the shortlist is still on the frontier or has had its links followed. When the search halts,
  everything left is further than the shortlist, so nothing of the shortlist is left.

Distances are compared by their places on the number line, for rankings that never give a NaN, as every
metric does.

## Contents
- **A full shortlist.** `mem_insertBounded_or_full`, `exists_le_of_mem_insertBounded`.
- **Decisions of the loop, by place.** `BeamSearch.isFinished_iff`, `BeamSearch.accepts_iff`.
- **Invariant.** `Beam.Settles`, `BeamSearch.Orderly`, what each step does to it, and `Runs.orderly`.
- **Result.** `beamSearch_locally_optimal`.
-/

namespace VectorIndex

/-! ## A full shortlist -/

section Bounded

variable {limit : Nat} {n m x : Neighbor} {entries : List Neighbor}

/-- An entry is kept, unless the list is full of entries that come before it. -/
theorem mem_insertBounded_or_full (h : Neighbor.Sorted entries) (hm : m = n ∨ m ∈ entries) :
    m ∈ Neighbor.insertBounded limit n entries ∨
      ((Neighbor.insertBounded limit n entries).length = limit ∧
        ∀ x ∈ Neighbor.insertBounded limit n entries, x.le m = true) := by
  have hall : Neighbor.Sorted (Neighbor.insertSorted n entries) := Neighbor.sortedOn_insertOn h
  have hmem : m ∈ Neighbor.insertSorted n entries := Neighbor.mem_insertOn.mpr hm
  unfold Neighbor.insertBounded
  rw [← List.take_append_drop limit (Neighbor.insertSorted n entries), List.mem_append] at hmem
  rcases hmem with hkept | hdropped
  · exact Or.inl hkept
  · right
    have hlong : limit < (Neighbor.insertSorted n entries).length := by
      have hpos := List.length_pos_of_mem hdropped
      rw [List.length_drop] at hpos
      omega
    refine ⟨List.length_take_of_le (Nat.le_of_lt hlong), fun x hx => ?_⟩
    rw [← List.take_append_drop limit (Neighbor.insertSorted n entries)] at hall
    exact (List.pairwise_append.mp hall).2.2 x hx m hdropped

/-- What a full list keeps comes before something that was on it: an insertion brings nothing further. -/
theorem exists_le_of_mem_insertBounded (hfull : entries.length = limit)
    (hx : x ∈ Neighbor.insertBounded limit n entries) : ∃ y ∈ entries, x.le y = true := by
  unfold Neighbor.insertBounded at hx
  induction entries generalizing limit with
  | nil =>
      subst hfull
      exact absurd hx List.not_mem_nil
  | cons b rest ih =>
      subst hfull
      unfold Neighbor.insertSorted Neighbor.insertOn at hx
      by_cases hle : n.le b = true
      · rw [if_pos hle, List.length_cons, List.take_succ_cons] at hx
        rcases List.mem_cons.mp hx with rfl | hx
        · exact ⟨b, List.mem_cons_self, hle⟩
        · exact ⟨x, List.mem_of_mem_take hx, Neighbor.le_refl x⟩
      · rw [if_neg hle, List.length_cons, List.take_succ_cons] at hx
        rcases List.mem_cons.mp hx with rfl | hx
        · exact ⟨x, List.mem_cons_self, Neighbor.le_refl x⟩
        · obtain ⟨y, hy, hle⟩ := ih rfl hx
          exact ⟨y, List.mem_cons_of_mem b hy, hle⟩

end Bounded

/-! ## Decisions of the loop, by place -/

/-- The ranking gives a distance for any two vectors. -/
def NeverNaN (rank : Ranking) : Prop := ∀ a b, (rank a b).isNaN = false

theorem Scored.isNaN_eq {rank : Ranking} {nodes : IdMap Node} {query : Embedding} {n : Neighbor}
    (h : Scored rank nodes query n) (hrank : NeverNaN rank) : n.distance.isNaN = false := by
  obtain ⟨node, _, hdistance⟩ := h.exists_node
  rw [hdistance]
  exact hrank query node.embedding

/-- Without NaNs, one number is below another exactly when its place is. -/
theorem Single.lt_iff_place {x y : Single} (hx : x.isNaN = false) (hy : y.isNaN = false) :
    x.lt y = true ↔ x.place < y.place := by
  rw [Single.lt_iff]
  exact ⟨fun h => h.2.2, fun h => ⟨hx, hy, h⟩⟩

/-- The furthest distance is that of an item on the shortlist that no other one comes after. -/
theorem Beam.exists_furthest {b : Beam} (hsorted : Neighbor.Sorted b.shortlist) (hne : b.shortlist ≠ []) :
    ∃ last ∈ b.shortlist, b.furthest = last.distance ∧ ∀ n ∈ b.shortlist, n.le last = true := by
  refine ⟨b.shortlist.getLast hne, List.getLast_mem hne, ?_, fun n hn => ?_⟩
  · unfold Beam.furthest
    rw [List.getLast?_eq_some_getLast hne]
  · rw [← List.dropLast_concat_getLast hne] at hsorted hn
    rcases List.mem_append.mp hn with hn | hn
    · exact (List.pairwise_append.mp hsorted).2.2 n hn _ (List.mem_singleton.mpr rfl)
    · rw [List.mem_singleton.mp hn]
      exact Neighbor.le_refl _

namespace BeamSearch

variable {s : BeamSearch} {b : Beam}

/-- The search is finished when the shortlist is full and the item left is further than all of it. -/
theorem isFinished_iff (hsorted : Neighbor.Sorted b.shortlist)
    (hb : ∀ n ∈ b.shortlist, n.distance.isNaN = false) {c : Neighbor} (hc : c.distance.isNaN = false) :
    s.isFinished b c = true ↔ s.width ≤ b.shortlist.length ∧ b.shortlist ≠ [] ∧
      ∀ n ∈ b.shortlist, n.distance.place < c.distance.place := by
  simp only [isFinished, Bool.and_eq_true, decide_eq_true_eq, Bool.not_eq_true', List.isEmpty_eq_false_iff,
    and_assoc]
  refine and_congr_right fun _ => and_congr_right fun hne => ?_
  obtain ⟨last, hlast, hfurthest, hafter⟩ := Beam.exists_furthest hsorted hne
  rw [hfurthest, Single.lt_iff_place (hb last hlast) hc]
  constructor
  · intro hlt n hn
    exact Int.lt_of_le_of_lt (Neighbor.place_le_of_le (hafter n hn)) hlt
  · intro hall
    exact hall last hlast

/-- An item is accepted while there is room, and then if it is nearer than something on the shortlist. -/
theorem accepts_iff (hpos : 0 < s.width) (hsorted : Neighbor.Sorted b.shortlist)
    (hb : ∀ n ∈ b.shortlist, n.distance.isNaN = false) {m : Neighbor} (hm : m.distance.isNaN = false) :
    s.accepts b m = true ↔ b.shortlist.length < s.width ∨
      ∃ n ∈ b.shortlist, m.distance.place < n.distance.place := by
  simp only [accepts, Bool.or_eq_true, decide_eq_true_eq]
  by_cases hroom : b.shortlist.length < s.width
  · simp only [hroom, true_or]
  · have hne : b.shortlist ≠ [] := by
      intro hnil
      rw [hnil] at hroom
      exact hroom hpos
    obtain ⟨last, hlast, hfurthest, hafter⟩ := Beam.exists_furthest hsorted hne
    rw [hfurthest, Single.lt_iff_place hm (hb last hlast)]
    apply or_congr_right
    constructor
    · intro hlt
      exact ⟨last, hlast, hlt⟩
    · rintro ⟨n, hn, hlt⟩
      exact Int.lt_of_lt_of_le hlt (Neighbor.place_le_of_le (hafter n hn))

end BeamSearch

/-! ## Invariant -/

/-- The shortlist holds `v`, or it is full and nothing on it is further than `v`. -/
def Beam.Settles (b : Beam) (width : Nat) (v : Neighbor) : Prop :=
  v ∈ b.shortlist ∨ b.shortlist.length = width ∧ ∀ n ∈ b.shortlist, n.distance.place ≤ v.distance.place

namespace BeamSearch

variable {s : BeamSearch} {nodes : IdMap Node} {P : ItemId → Prop} {b : Beam}

/-- A full shortlist stays full, and a pushed item brings nothing further to it. -/
theorem push_full (hfull : b.shortlist.length = s.width) (n : Neighbor) :
    (s.push (b.see n.id) n).shortlist.length = s.width ∧
      ∀ x ∈ (s.push (b.see n.id) n).shortlist, ∃ y ∈ b.shortlist, x.distance.place ≤ y.distance.place := by
  unfold BeamSearch.push
  by_cases hadmits : s.admits n.id = true
  · simp only [if_pos hadmits]
    constructor
    · refine Nat.le_antisymm (Neighbor.length_insertBounded_le _ _ _) ?_
      rw [← hfull]
      exact length_le_insertBounded (Nat.le_refl _)
    · intro x hx
      obtain ⟨y, hy, hle⟩ := exists_le_of_mem_insertBounded hfull hx
      exact ⟨y, hy, Neighbor.place_le_of_le hle⟩
  · simp only [if_neg hadmits]
    exact ⟨hfull, fun x hx => ⟨x, hx, Int.le_refl _⟩⟩

/-- What is settled stays so when an item is pushed, and an admitted item is settled by its own push. -/
theorem settles_push (hsorted : Neighbor.Sorted b.shortlist) {n v : Neighbor}
    (h : b.Settles s.width v ∨ v = n ∧ s.admits n.id = true) :
    (s.push (b.see n.id) n).Settles s.width v := by
  have hkept : v ∈ b.shortlist ∨ v = n ∧ s.admits n.id = true →
      (s.push (b.see n.id) n).Settles s.width v := by
    intro hwhere
    unfold Beam.Settles BeamSearch.push
    by_cases hadmits : s.admits n.id = true
    · simp only [if_pos hadmits]
      have hmem : v = n ∨ v ∈ b.shortlist := hwhere.symm.imp_left And.left
      refine (mem_insertBounded_or_full hsorted hmem).imp_right fun ⟨hfull, hle⟩ => ⟨hfull, fun x hx => ?_⟩
      exact Neighbor.place_le_of_le (hle x hx)
    · simp only [if_neg hadmits]
      exact Or.inl (hwhere.resolve_right fun hnew => hadmits hnew.2)
  rcases h with (hmem | ⟨hfull, hplace⟩) | hnew
  · exact hkept (Or.inl hmem)
  · obtain ⟨hstill, hnearer⟩ := push_full hfull n
    refine Or.inr ⟨hstill, fun x hx => ?_⟩
    obtain ⟨y, hy, hle⟩ := hnearer x hx
    exact Int.le_trans hle (hplace y hy)
  · exact hkept (Or.inr hnew)

variable (s nodes P) in
/-- Every admitted item that was seen is settled, and every item on the shortlist has had its links followed,
    unless it is on the frontier or is the one under expansion. -/
structure Orderly (current : Option ItemId) (b : Beam) : Prop where
  tracks : s.Tracks nodes P b
  tidy : Tidy b
  settles : ∀ v, Scored s.graph.rank nodes s.query v → v.id ∈ b.visited → s.admits v.id = true →
    b.Settles s.width v
  explores : ∀ u ∈ b.shortlist, u ∈ b.frontier ∨ current = some u.id ∨
    ∀ node, nodes[u.id]? = some node → ∀ t ∈ node.linksAt s.layer, t ∈ b.visited

variable {current : Option ItemId}

theorem orderly_empty : s.Orderly nodes P current Beam.empty where
  tracks := tracks_empty
  tidy := tidy_empty
  settles _ _ h := absurd h Std.ExtTreeSet.not_mem_empty
  explores _ h := absurd h List.not_mem_nil

theorem Orderly.push (h : s.Orderly nodes P current b) {n : Neighbor} (hnew : n.id ∉ b.visited)
    (hn : Scored s.graph.rank nodes s.query n) (hP : P n.id) :
    s.Orderly nodes P current (s.push (b.see n.id) n) where
  tracks := h.tracks.push hnew hn hP
  tidy := h.tidy.push hnew
  settles := by
    intro v hv hseen hadmits
    apply settles_push h.tracks.sorted
    rcases mem_insert_id.mp hseen with hid | hseen
    · obtain rfl := hn.eq_of_id hv hid
      exact Or.inr ⟨rfl, hadmits⟩
    · exact Or.inl (h.settles v hv hseen hadmits)
  explores := by
    intro u hu
    have hwhere : u = n ∨ u ∈ b.shortlist := by
      unfold BeamSearch.push at hu
      dsimp only at hu
      split at hu
      · exact mem_of_mem_insertBounded hu
      · exact Or.inr hu
    rcases hwhere with rfl | hold
    · exact Or.inl (Neighbor.mem_insertOn.mpr (Or.inl rfl))
    · rcases h.explores u hold with hfrontier | hcurrent | hlinks
      · exact Or.inl (Neighbor.mem_insertOn.mpr (Or.inr hfrontier))
      · exact Or.inr (Or.inl hcurrent)
      · exact Or.inr (Or.inr fun node hnode t ht => mem_insert_id.mpr (Or.inr (hlinks node hnode t ht)))

/-- An item is only marked if it does not resolve or is settled already. -/
theorem Orderly.see (h : s.Orderly nodes P current b) {id : ItemId}
    (hsettled : ∀ v, v.id = id → Scored s.graph.rank nodes s.query v → b.Settles s.width v) :
    s.Orderly nodes P current (b.see id) where
  tracks := h.tracks.see id
  tidy := h.tidy.see id
  settles := by
    intro v hv hseen hadmits
    rcases mem_insert_id.mp hseen with rfl | hseen
    · exact hsettled v rfl hv
    · exact h.settles v hv hseen hadmits
  explores := by
    intro u hu
    refine (h.explores u hu).imp_right (Or.imp_right fun hlinks node hnode t ht => ?_)
    exact mem_insert_id.mpr (Or.inr (hlinks node hnode t ht))

theorem Tracks.isNaN_shortlist (h : s.Tracks nodes P b) (hrank : NeverNaN s.graph.rank) :
    ∀ m ∈ b.shortlist, m.distance.isNaN = false :=
  fun m hm => (h.shortlist m hm).1.isNaN_eq hrank

variable (hrank : NeverNaN s.graph.rank)

include hrank in
theorem Orderly.follow (h : s.Orderly nodes P current b) (hpos : 0 < s.width) {id : ItemId}
    (hP : id ∈ nodes → P id) : s.Orderly nodes P current (s.follow nodes b id) := by
  rcases follow_split s nodes b id with ⟨_, heq⟩ | ⟨_, hout, heq⟩ | ⟨hnew, n, rfl, hn, heq⟩
  · rw [heq]
    exact h
  · rw [heq]
    exact h.see fun v hv hscored => absurd (hv ▸ hscored.mem) hout
  · rw [heq]
    by_cases haccept : s.accepts b n = true
    · rw [if_pos haccept]
      exact h.push hnew hn (hP hn.mem)
    · rw [if_neg haccept]
      -- turned away: the shortlist is full, and nothing on it is further
      have hnan := h.tracks.isNaN_shortlist hrank
      rw [accepts_iff hpos h.tracks.sorted hnan (hn.isNaN_eq hrank), not_or] at haccept
      refine h.see fun v hv hscored => Or.inr ⟨?_, fun m hm => ?_⟩
      · exact Nat.le_antisymm h.tracks.length_le (Nat.le_of_not_lt haccept.1)
      · rw [hscored.eq_of_id hn hv]
        exact Int.not_lt.mp fun hlt => haccept.2 ⟨m, hm, hlt⟩

include hrank in
theorem Orderly.followAll {ids : List ItemId} (h : s.Orderly nodes P current b) (hpos : 0 < s.width)
    (hP : ∀ id ∈ ids, id ∈ nodes → P id) : s.Orderly nodes P current (ids.foldl (s.follow nodes) b) := by
  induction ids generalizing b with
  | nil => exact h
  | cons id ids ih =>
      exact ih (h.follow hrank hpos (hP id List.mem_cons_self)) fun t ht => hP t (List.mem_cons_of_mem id ht)

include hrank in
/-- The item taken off the frontier is the one under expansion; afterwards its links are followed. -/
theorem Orderly.expand (h : s.Orderly nodes P none b) (hpos : 0 < s.width) {c : Neighbor}
    {rest : List Neighbor} (hfrontier : b.frontier = c :: rest)
    (hclosed : ∀ source target, P source → Follows nodes s.layer source target → P target) :
    s.Orderly nodes P none (s.expand nodes b c rest) := by
  obtain ⟨hscored, _, hPc⟩ := h.tracks.frontier c (hfrontier ▸ List.mem_cons_self)
  obtain ⟨node, hnode, _⟩ := hscored.exists_node
  have hpop : s.Orderly nodes P (some c.id) { b with frontier := rest } := by
    refine ⟨h.tracks.pop hfrontier, h.tidy.pop hfrontier, h.settles, fun u hu => ?_⟩
    rcases h.explores u hu with hmem | hcurrent | hlinks
    · rw [hfrontier] at hmem
      rcases List.mem_cons.mp hmem with rfl | hmem
      · exact Or.inr (Or.inl rfl)
      · exact Or.inl hmem
    · cases hcurrent
    · exact Or.inr (Or.inr hlinks)
  have hP : ∀ t ∈ node.linksAt s.layer, t ∈ nodes → P t := fun t ht hlive =>
    hclosed c.id t hPc ⟨⟨node, hnode, ht⟩, hlive⟩
  have hall := hpop.followAll hrank hpos hP
  unfold BeamSearch.expand
  rw [hnode]
  refine ⟨hall.tracks, hall.tidy, hall.settles, fun u hu => ?_⟩
  rcases hall.explores u hu with hmem | hcurrent | hlinks
  · exact Or.inl hmem
  · -- the expanded item itself: each of its links was followed
    refine Or.inr (Or.inr fun other hother t ht => ?_)
    rw [← Option.some.inj hcurrent, hnode] at hother
    obtain rfl := Option.some.inj hother
    exact mem_visited_followAll.mpr (Or.inl ht)
  · exact Or.inr (Or.inr hlinks)

theorem orderly_start {entries : List Neighbor}
    (hentries : ∀ n ∈ entries, Scored s.graph.rank nodes s.query n ∧ P n.id) :
    s.Orderly nodes P none (s.start entries) :=
  start_keeps orderly_empty fun _ n hn h hnew => h.push hnew (hentries n hn).1 (hentries n hn).2

include hrank in
/-- **The invariant holds where a run from the start ends.** -/
theorem Runs.orderly (hs : s.graph.Shows nodes) (hpos : 0 < s.width)
    (hclosed : ∀ source target, P source → Follows nodes s.layer source target → P target)
    {entries : List Neighbor} (hentries : ∀ n ∈ entries, Scored s.graph.rank nodes s.query n ∧ P n.id)
    {ids : List ItemId} {last : Beam} (h : s.Runs (s.start entries) ids last) : s.Orderly nodes P none last :=
  h.keeps hs (fun _ _ _ ho hfrontier => ho.expand hrank hpos hfrontier hclosed) (orderly_start hentries)

include hrank in
/-- When the search halts, everything left is further than the shortlist, so that nothing on it is left. -/
theorem Orderly.followed (h : s.Orderly nodes P none b) (hhalt : s.Halts b) {u : Neighbor}
    (hu : u ∈ b.shortlist) {target : ItemId} (hlink : Follows nodes s.layer u.id target) :
    target ∈ b.visited := by
  obtain ⟨⟨node, hnode, htarget⟩, _⟩ := hlink
  rcases h.explores u hu with hmem | hcurrent | hlinks
  · obtain ⟨c, rest, hfrontier⟩ := List.exists_cons_of_ne_nil (List.ne_nil_of_mem hmem)
    have hc := (h.tracks.frontier c (hfrontier ▸ List.mem_cons_self)).1.isNaN_eq hrank
    have hnan := h.tracks.isNaN_shortlist hrank
    have hfurther := ((isFinished_iff h.tracks.sorted hnan hc).mp (hhalt c rest hfrontier)).2.2 u hu
    have hnearest := h.tidy.head_le hfrontier hmem
    exact absurd hfurther (Int.not_lt.mpr (Neighbor.place_le_of_le hnearest))
  · cases hcurrent
  · exact hlinks node hnode target htarget

end BeamSearch

/-! ## Result -/

/-- A ranking by a metric gives a distance for any two vectors. -/
theorem Metric.neverNaN (metric : Metric) : NeverNaN metric.rank := metric.isNaN_rank

/-- **A beam search ends at a local optimum.** On any graph, from any entries that are scored, the search ends
    and expands no item twice. What it returns ascends strictly, has no more than `width` items, and each is
    admitted, at its own distance, and linked from an entry. An admitted item that was an entry, or is linked
    from something returned, is returned as well, or `width` items are returned and none is further. -/
theorem beamSearch_locally_optimal {g : Graph} {nodes : IdMap Node} (hs : g.Shows nodes) {metric : Metric}
    (hrank : g.rank = metric.rank) {query : Embedding} {entries : List Neighbor}
    (hentries : ∀ e ∈ entries, Scored g.rank nodes query e) (width layer : Nat) (admits : ItemId → Bool) :
    ∃ found : List Neighbor,
      g.beamSearch query entries width layer admits = .ok found ∧
      (∃ (expanded : List ItemId) (last : Beam), last.shortlist = found ∧ expanded.Nodup ∧
        BeamSearch.Runs ⟨g, query, width, layer, admits⟩
          (BeamSearch.start ⟨g, query, width, layer, admits⟩ entries) expanded last) ∧
      found.Pairwise (fun a b => compare a b = .lt) ∧
      BeamResult g.rank nodes query entries width layer admits found ∧
      (1 ≤ width → ∀ v, Scored g.rank nodes query v → admits v.id = true →
        (v ∈ entries ∨ ∃ u ∈ found, Follows nodes layer u.id v.id) →
        v ∈ found ∨ found.length = width ∧ ∀ n ∈ found, v.distance.lt n.distance = false) := by
  obtain ⟨found, hfound, hresult⟩ := hs.beamSearch hentries width layer admits
  let s : BeamSearch := ⟨g, query, width, layer, admits⟩
  let P : ItemId → Prop := fun _ => True
  have hnan : NeverNaN s.graph.rank := hrank ▸ metric.neverNaN
  have hseeds : ∀ e ∈ entries, Scored s.graph.rank nodes s.query e ∧ P e.id := fun e he =>
    ⟨hentries e he, trivial⟩
  obtain ⟨expanded, last, hrun, rfl⟩ := (BeamSearch.advance_eq_ok_iff hs).mp hfound
  have honce : expanded.Nodup := (hrun.nodup hs (BeamSearch.orderly_start hseeds).tidy).1
  refine ⟨last.shortlist, hfound, ⟨expanded, last, rfl, honce, hrun⟩,
    Neighbor.ascending_of_sorted hresult.sorted hresult.distinct, hresult, fun hpos v hv hadmits hwhere => ?_⟩
  have hlast := hrun.orderly hnan hs hpos (fun _ _ _ _ => trivial) hseeds
  have hseen : v.id ∈ last.visited := by
    rcases hwhere with hentry | ⟨u, hu, hlink⟩
    · exact hrun.visited_mono hs (BeamSearch.mem_visited_start hentry)
    · exact hlast.followed hnan hrun.halts hu hlink
  refine (hlast.settles v hv hseen hadmits).imp_right fun ⟨hfull, hplace⟩ => ⟨hfull, fun n hn => ?_⟩
  apply eq_false_of_ne_true
  rw [Single.lt_iff_place (hv.isNaN_eq hnan) ((hresult.scored n hn).isNaN_eq hnan)]
  exact Int.not_lt.mpr (hplace n hn)

/-- Three items on a line, at 0, 1 and 2, with links to themselves, to one item twice, and to no item. -/
def lineNodes : IdMap Node :=
  ((((∅ : IdMap Node).insert 0 ⟨[⟨0⟩], [[0, 1, 1, 9]]⟩).insert 1 ⟨[⟨0x3f800000⟩], [[0, 2, 2]]⟩).insert 2
    ⟨[⟨0x40000000⟩], [[1, 8]]⟩)

/-- The line as a graph. -/
def lineGraph : Graph := ⟨Metric.euclidean.rank, fun id => .ok lineNodes[id]?⟩

/-- From 0 towards 2, with room for one item: the next item on the way is returned, or one that is not
    further. -/
theorem beamSearch_locally_optimal_line :
    Scored lineGraph.rank lineNodes [⟨0x40000000⟩] ⟨0, ⟨0x40800000⟩⟩ ∧
    ∃ found, lineGraph.beamSearch [⟨0x40000000⟩] [⟨0, ⟨0x40800000⟩⟩] 1 0 admitAll = .ok found ∧
      (⟨0, ⟨0x40800000⟩⟩ ∈ found ∨
        found.length = 1 ∧ ∀ n ∈ found, Single.lt ⟨0x40800000⟩ n.distance = false) := by
  have hentry : Scored lineGraph.rank lineNodes [⟨0x40000000⟩] ⟨0, ⟨0x40800000⟩⟩ := by
    unfold Scored
    decide +kernel
  have hentries : ∀ e ∈ [(⟨0, ⟨0x40800000⟩⟩ : Neighbor)],
      Scored lineGraph.rank lineNodes [⟨0x40000000⟩] e := fun e he => List.mem_singleton.mp he ▸ hentry
  obtain ⟨found, hfound, _, _, _, hoptimal⟩ :=
    beamSearch_locally_optimal (fun _ => rfl) rfl hentries 1 0 admitAll
  refine ⟨hentry, found, hfound, ?_⟩
  exact hoptimal (Nat.le_refl 1) _ hentry rfl (Or.inl (List.mem_singleton.mpr rfl))

end VectorIndex
