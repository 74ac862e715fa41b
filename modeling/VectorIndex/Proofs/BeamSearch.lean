import VectorIndex.Proofs.Expansion

/-!
# `VectorIndex.Proofs.BeamSearch` — what a beam search finds

A beam search on a graph that shows a map of nodes cannot fail. Two invariants say what it finds:

* `BeamSearch.Tracks` — everything kept is live, carries its own distance, was visited, and can be reached;
* `BeamSearch.Covers` — while the shortlist has room, nothing visited is lost: an admitted item is on the
  shortlist, and the links of every item have been followed unless it is still on the frontier.

When the search ends, either the shortlist is full or the frontier is empty, and then the second invariant
says that everything reachable was visited (`Graph.Shows.beamSearch`).

## Contents
- **Bounded insertion.** What a shortlist keeps.
- **Invariants.** `Tracks` and `Covers`, and what each step does to them.
- **Results.** `BeamResult`, `Graph.Shows.beamSearch`; `Graph.descend_step` and `Graph.Shows.descend`.
-/

namespace VectorIndex

/-! ## Bounded insertion -/

section Bounded

variable {limit : Nat} {n m : Neighbor} {entries : List Neighbor}

theorem mem_of_mem_insertBounded (h : m ∈ Neighbor.insertBounded limit n entries) :
    m = n ∨ m ∈ entries :=
  Neighbor.mem_insertOn.mp (List.mem_of_mem_take h)

/-- While there is room, nothing is dropped. -/
theorem mem_insertBounded_of_lt (h : (Neighbor.insertBounded limit n entries).length < limit) :
    m ∈ Neighbor.insertBounded limit n entries ↔ m = n ∨ m ∈ entries := by
  unfold Neighbor.insertBounded at h ⊢
  rw [List.length_take, Neighbor.length_insertOn] at h
  rw [List.take_of_length_le (by rw [Neighbor.length_insertOn]; omega), Neighbor.mem_insertOn]

theorem length_le_insertBounded (h : entries.length ≤ limit) :
    entries.length ≤ (Neighbor.insertBounded limit n entries).length := by
  unfold Neighbor.insertBounded
  rw [List.length_take, Neighbor.length_insertOn]
  omega

theorem nodup_insertBounded (h : (entries.map Neighbor.id).Nodup) (hn : n.id ∉ entries.map Neighbor.id) :
    ((Neighbor.insertBounded limit n entries).map Neighbor.id).Nodup := by
  have hall : ((Neighbor.insertSorted n entries).map Neighbor.id).Nodup := by
    rw [((Neighbor.insertOn_perm n entries).map Neighbor.id).nodup_iff, List.map_cons]
    exact List.nodup_cons.mpr ⟨hn, h⟩
  exact hall.sublist ((List.take_sublist _ _).map _)

end Bounded

namespace BeamSearch

variable {s : BeamSearch} {nodes : IdMap Node}

/-! ## Everything kept is sound -/

variable (s nodes) in
/-- What is kept is live, scored by its own distance, visited, and has the property `P`. -/
structure Tracks (P : ItemId → Prop) (b : Beam) : Prop where
  frontier : ∀ n ∈ b.frontier, Scored s.graph.rank nodes s.query n ∧ n.id ∈ b.visited ∧ P n.id
  shortlist : ∀ n ∈ b.shortlist,
    Scored s.graph.rank nodes s.query n ∧ n.id ∈ b.visited ∧ P n.id ∧ s.admits n.id = true
  sorted : Neighbor.Sorted b.shortlist
  distinct : (b.shortlist.map Neighbor.id).Nodup
  length_le : b.shortlist.length ≤ s.width

variable {P : ItemId → Prop} {b : Beam}

theorem tracks_empty : s.Tracks nodes P Beam.empty where
  frontier _ h := absurd h List.not_mem_nil
  shortlist _ h := absurd h List.not_mem_nil
  sorted := List.Pairwise.nil
  distinct := List.nodup_nil
  length_le := Nat.zero_le _

theorem Tracks.see (h : s.Tracks nodes P b) (id : ItemId) : s.Tracks nodes P (b.see id) where
  frontier n hn := (h.frontier n hn).imp_right (And.imp_left fun hv => mem_insert_id.mpr (Or.inr hv))
  shortlist n hn := (h.shortlist n hn).imp_right (And.imp_left fun hv => mem_insert_id.mpr (Or.inr hv))
  sorted := h.sorted
  distinct := h.distinct
  length_le := h.length_le

/-- A new item is pushed. -/
theorem Tracks.push (h : s.Tracks nodes P b) {n : Neighbor} (hnew : n.id ∉ b.visited)
    (hn : Scored s.graph.rank nodes s.query n) (hP : P n.id) :
    s.Tracks nodes P (s.push (b.see n.id) n) := by
  have hvisited : n.id ∈ (b.see n.id).visited := mem_insert_id.mpr (Or.inl rfl)
  have hsee := h.see n.id
  have hnotin : n.id ∉ b.shortlist.map Neighbor.id := by
    intro hmem
    obtain ⟨m, hm, heq⟩ := List.mem_map.mp hmem
    exact hnew (heq ▸ (h.shortlist m hm).2.1)
  have hfrontier : ∀ m ∈ Neighbor.insertSorted n b.frontier,
      Scored s.graph.rank nodes s.query m ∧ m.id ∈ (b.see n.id).visited ∧ P m.id := by
    intro m hm
    rcases Neighbor.mem_insertOn.mp hm with rfl | hm
    · exact ⟨hn, hvisited, hP⟩
    · exact hsee.frontier m hm
  by_cases hadm : s.admits n.id = true
  · refine ⟨hfrontier, ?_, ?_, ?_, ?_⟩ <;> simp only [BeamSearch.push, if_pos hadm]
    · intro m hm
      rcases mem_of_mem_insertBounded hm with rfl | hm
      · exact ⟨hn, hvisited, hP, hadm⟩
      · exact hsee.shortlist m hm
    · exact Neighbor.sorted_insertBounded h.sorted
    · exact nodup_insertBounded h.distinct hnotin
    · exact Neighbor.length_insertBounded_le _ _ _
  · refine ⟨hfrontier, ?_, ?_, ?_, ?_⟩ <;> simp only [BeamSearch.push, if_neg hadm]
    · exact hsee.shortlist
    · exact h.sorted
    · exact h.distinct
    · exact h.length_le

theorem Tracks.follow (h : s.Tracks nodes P b) {id : ItemId} (hP : id ∈ nodes → P id) :
    s.Tracks nodes P (s.follow nodes b id) := by
  rcases follow_cases s nodes b id with ⟨_, heq⟩ | ⟨_, heq, _⟩ | ⟨hnew, n, rfl, hn, heq⟩
  · rw [heq]; exact h
  · rw [heq]; exact h.see id
  · rw [heq]; exact h.push hnew hn (hP hn.mem)

theorem Tracks.followAll {ids : List ItemId} (h : s.Tracks nodes P b)
    (hP : ∀ id ∈ ids, id ∈ nodes → P id) : s.Tracks nodes P (ids.foldl (s.follow nodes) b) := by
  induction ids generalizing b with
  | nil => exact h
  | cons id ids ih =>
      exact ih (h.follow (hP id List.mem_cons_self)) fun t ht => hP t (List.mem_cons_of_mem id ht)

theorem Tracks.pop (h : s.Tracks nodes P b) {c : Neighbor} {rest : List Neighbor}
    (hfrontier : b.frontier = c :: rest) : s.Tracks nodes P { b with frontier := rest } :=
  { h with frontier := fun n hn => h.frontier n (hfrontier ▸ List.mem_cons_of_mem c hn) }

/-- An expansion keeps the invariant if links lead from `P` to `P`. -/
theorem Tracks.expand (h : s.Tracks nodes P b) {c : Neighbor} {rest : List Neighbor}
    (hfrontier : b.frontier = c :: rest)
    (hclosed : ∀ source target, P source → Follows nodes s.layer source target → P target) :
    s.Tracks nodes P (s.expand nodes b c rest) := by
  have hpop := h.pop hfrontier
  unfold BeamSearch.expand
  cases hnode : nodes[c.id]? with
  | none => exact hpop
  | some node =>
      apply hpop.followAll
      intro t ht hlive
      have hc := (h.frontier c (hfrontier ▸ List.mem_cons_self)).2.2
      exact hclosed c.id t hc ⟨⟨node, hnode, ht⟩, hlive⟩

/-! ## Nothing is lost while there is room -/

variable (s nodes) in
/-- While the shortlist has room, every visited live item is on it if admitted, and has had its links
    followed, unless it is on the frontier or is the one under expansion. -/
def Covers (current : Option ItemId) (b : Beam) : Prop :=
  b.shortlist.length < s.width → ∀ id node, id ∈ b.visited → nodes[id]? = some node →
    (s.admits id = true → id ∈ b.shortlist.map Neighbor.id) ∧
    (id ∈ b.frontier.map Neighbor.id ∨ current = some id ∨ ∀ t ∈ node.linksAt s.layer, t ∈ b.visited)

variable {current : Option ItemId}

theorem covers_empty : s.Covers nodes current Beam.empty := by
  intro _ id node hid
  exact absurd hid Std.ExtTreeSet.not_mem_empty

/-- The shortlist never shrinks. -/
theorem length_le_push (h : b.shortlist.length ≤ s.width) (id : ItemId) (n : Neighbor) :
    b.shortlist.length ≤ (s.push (b.see id) n).shortlist.length := by
  unfold BeamSearch.push
  by_cases hadm : s.admits n.id = true
  · simp only [if_pos hadm]
    exact length_le_insertBounded h
  · simp only [if_neg hadm]
    exact Nat.le_refl _

theorem Covers.push (h : s.Covers nodes current b) (hlen : b.shortlist.length ≤ s.width) {n : Neighbor} :
    s.Covers nodes current (s.push (b.see n.id) n) := by
  intro hroom id node hid hnode
  have hvisited : (s.push (b.see n.id) n).visited = b.visited.insert n.id := rfl
  rw [hvisited] at hid ⊢
  have hold := h (Nat.lt_of_le_of_lt (length_le_push hlen n.id n) hroom) id node
  -- the new item is on the frontier, and on the shortlist if it is admitted
  have hfrontier : ∀ m, m ∈ (s.push (b.see n.id) n).frontier ↔ m = n ∨ m ∈ b.frontier :=
    fun m => Neighbor.mem_insertOn
  have hshort : ∀ m, m ∈ b.shortlist ∨ m = n ∧ s.admits n.id = true →
      m ∈ (s.push (b.see n.id) n).shortlist := by
    intro m hm
    unfold BeamSearch.push at hroom ⊢
    by_cases hadm : s.admits n.id = true
    · simp only [if_pos hadm] at hroom ⊢
      exact (mem_insertBounded_of_lt hroom).mpr (hm.symm.imp_left And.left)
    · simp only [if_neg hadm]
      exact hm.resolve_right fun hn => hadm hn.2
  rcases mem_insert_id.mp hid with rfl | hid
  · refine ⟨fun hadm => ?_, Or.inl ?_⟩
    · exact List.mem_map_of_mem (hshort n (Or.inr ⟨rfl, hadm⟩))
    · exact List.mem_map_of_mem ((hfrontier n).mpr (Or.inl rfl))
  · obtain ⟨hadmitted, hlinks⟩ := hold hid hnode
    refine ⟨fun hadm => ?_, ?_⟩
    · obtain ⟨m, hm, heq⟩ := List.mem_map.mp (hadmitted hadm)
      exact List.mem_map.mpr ⟨m, hshort m (Or.inl hm), heq⟩
    · rcases hlinks with hf | hc | hl
      · obtain ⟨m, hm, heq⟩ := List.mem_map.mp hf
        exact Or.inl (List.mem_map.mpr ⟨m, (hfrontier m).mpr (Or.inr hm), heq⟩)
      · exact Or.inr (Or.inl hc)
      · exact Or.inr (Or.inr fun t ht => mem_insert_id.mpr (Or.inr (hl t ht)))

theorem Covers.follow (h : s.Covers nodes current b) (hlen : b.shortlist.length ≤ s.width) (id : ItemId) :
    s.Covers nodes current (s.follow nodes b id) := by
  rcases follow_cases s nodes b id with ⟨_, heq⟩ | ⟨_, heq, hfull⟩ | ⟨_, n, rfl, _, heq⟩
  · rw [heq]; exact h
  · rw [heq]
    intro hroom id' node hid hnode
    rcases mem_insert_id.mp hid with rfl | hid
    · -- an item that is live is turned away only from a full shortlist
      exact absurd (hfull (mem_iff_exists.mpr ⟨node, hnode⟩)) (Nat.not_le_of_lt hroom)
    · obtain ⟨hadmitted, hlinks⟩ := h hroom id' node hid hnode
      refine ⟨hadmitted, hlinks.imp_right (Or.imp_right ?_)⟩
      exact fun hl t ht => mem_insert_id.mpr (Or.inr (hl t ht))
  · rw [heq]; exact h.push hlen

/-- Both invariants go through a list of links together: the second needs the bound of the first. -/
theorem Covers.followAll {ids : List ItemId} (h : s.Covers nodes current b) (ht : s.Tracks nodes P b)
    (hP : ∀ id ∈ ids, id ∈ nodes → P id) : s.Covers nodes current (ids.foldl (s.follow nodes) b) := by
  induction ids generalizing b with
  | nil => exact h
  | cons id ids ih =>
      exact ih (h.follow ht.length_le id) (ht.follow (hP id List.mem_cons_self))
        fun t hmem => hP t (List.mem_cons_of_mem id hmem)

/-- The item taken off the frontier is the one under expansion; afterwards its links are followed. -/
theorem Covers.expand (h : s.Covers nodes none b) (ht : s.Tracks nodes P b) {c : Neighbor}
    {rest : List Neighbor} (hfrontier : b.frontier = c :: rest)
    (hclosed : ∀ source target, P source → Follows nodes s.layer source target → P target) :
    s.Covers nodes none (s.expand nodes b c rest) := by
  have hpop : s.Covers nodes (some c.id) { b with frontier := rest } := by
    intro hroom id node hid hnode
    obtain ⟨hadmitted, hlinks⟩ := h hroom id node hid hnode
    refine ⟨hadmitted, ?_⟩
    rw [hfrontier, List.map_cons, List.mem_cons] at hlinks
    rcases hlinks with (rfl | hf) | hc | hl
    · exact Or.inr (Or.inl rfl)
    · exact Or.inl hf
    · cases hc
    · exact Or.inr (Or.inr hl)
  obtain ⟨node, hnode, _⟩ := (ht.frontier c (hfrontier ▸ List.mem_cons_self)).1.exists_node
  unfold BeamSearch.expand
  rw [hnode]
  have hP : ∀ t ∈ node.linksAt s.layer, t ∈ nodes → P t := fun t hlink hlive =>
    hclosed c.id t (ht.frontier c (hfrontier ▸ List.mem_cons_self)).2.2 ⟨⟨node, hnode, hlink⟩, hlive⟩
  have hall := hpop.followAll (ht.pop hfrontier) hP
  intro hroom id other hid hother
  obtain ⟨hadmitted, hlinks⟩ := hall hroom id other hid hother
  refine ⟨hadmitted, ?_⟩
  rcases hlinks with hf | hc | hl
  · exact Or.inl hf
  · -- the expanded item itself: each of its links was followed
    obtain rfl := Option.some.inj hc
    obtain rfl := Option.some.inj (hnode.symm.trans hother)
    exact Or.inr (Or.inr fun t hlink => mem_visited_followAll.mpr (Or.inl hlink))
  · exact Or.inr (Or.inr hl)

/-- While there is room and nothing is left to expand, the visited items are closed under links. -/
theorem Covers.mem_visited_of_reaches (h : s.Covers nodes none b) (hroom : b.shortlist.length < s.width)
    (hdone : b.frontier = []) {source id : ItemId} (hsource : source ∈ b.visited)
    (hreach : Reaches nodes s.layer source id) : id ∈ b.visited := by
  induction hreach with
  | refl => exact hsource
  | @tail mid id _ hlink ih =>
      obtain ⟨⟨node, hnode, htarget⟩, _⟩ := hlink
      rcases (h hroom mid node ih hnode).2 with hmem | hcurrent | hlinks
      · rw [hdone] at hmem
        exact absurd hmem List.not_mem_nil
      · cases hcurrent
      · exact hlinks id htarget

/-! ## The start -/

/-- Entering a list of scored items gives the first state of both invariants. -/
theorem tracks_start {entries : List Neighbor}
    (hentries : ∀ n ∈ entries, Scored s.graph.rank nodes s.query n ∧ P n.id) :
    s.Tracks nodes P (s.start entries) ∧ s.Covers nodes none (s.start entries) := by
  refine start_keeps (I := fun b => s.Tracks nodes P b ∧ s.Covers nodes none b)
    ⟨tracks_empty, covers_empty⟩ ?_
  intro b n hn ⟨ht, hc⟩ hnew
  exact ⟨ht.push hnew (hentries n hn).1 (hentries n hn).2, hc.push ht.length_le⟩

end BeamSearch

/-! ## Results -/

/-- What a beam search from `entries` answers: at most `width` admitted items that links lead to, each with
    its own distance, in ascending order — all of them, unless `width` are found. -/
structure BeamResult (rank : Ranking) (nodes : IdMap Node) (query : Embedding) (entries : List Neighbor)
    (width layer : Nat) (admits : ItemId → Bool) (found : List Neighbor) : Prop where
  scored : ∀ n ∈ found, Scored rank nodes query n
  reached : ∀ n ∈ found, ∃ e ∈ entries, Reaches nodes layer e.id n.id
  admitted : ∀ n ∈ found, admits n.id = true
  sorted : Neighbor.Sorted found
  distinct : (found.map Neighbor.id).Nodup
  length_le : found.length ≤ width
  exhaustive : found.length = width ∨
    ∀ e ∈ entries, ∀ id, Reaches nodes layer e.id id → admits id = true → id ∈ found.map Neighbor.id

variable {g : Graph} {nodes : IdMap Node}

/-- **A beam search finds everything it can reach, or fills its shortlist.** -/
theorem Graph.Shows.beamSearch (hs : g.Shows nodes) {query : Embedding} {entries : List Neighbor}
    (hentries : ∀ n ∈ entries, Scored g.rank nodes query n) (width layer : Nat) (admits : ItemId → Bool) :
    ∃ found, g.beamSearch query entries width layer admits = .ok found ∧
      BeamResult g.rank nodes query entries width layer admits found := by
  let s : BeamSearch := ⟨g, query, width, layer, admits⟩
  let P : ItemId → Prop := fun id => ∃ e ∈ entries, Reaches nodes layer e.id id
  have hclosed : ∀ source target, P source → Follows nodes s.layer source target → P target :=
    fun source target ⟨e, he, hr⟩ hf => ⟨e, he, hr.tail hf⟩
  have hseeds : ∀ n ∈ entries, Scored s.graph.rank nodes s.query n ∧ P n.id :=
    fun n hn => ⟨hentries n hn, n, hn, Relation.ReflTransGen.refl⟩
  have hstep : ∀ b c rest, s.Tracks nodes P b ∧ s.Covers nodes none b → b.frontier = c :: rest →
      s.Tracks nodes P (s.expand nodes b c rest) ∧ s.Covers nodes none (s.expand nodes b c rest) :=
    fun b c rest ⟨ht, hc⟩ hf => ⟨ht.expand hf hclosed, hc.expand ht hf hclosed⟩
  obtain ⟨_, b, hrun⟩ := BeamSearch.exists_runs (s := s) hs (s.start entries)
  obtain ⟨ht, hc⟩ := hrun.keeps hs hstep (BeamSearch.tracks_start hseeds)
  have hv : ∀ n ∈ entries, n.id ∈ b.visited := fun n hn =>
    hrun.visited_mono hs (BeamSearch.mem_visited_start hn)
  refine ⟨b.shortlist, hrun.advance_eq, ?_⟩
  have hroom : b.shortlist.length < width → b.frontier = [] := by
    intro hlt
    cases hfrontier : b.frontier with
    | nil => rfl
    | cons c rest =>
        have hfin := hrun.halts c rest hfrontier
        simp only [BeamSearch.isFinished, Bool.and_eq_true, decide_eq_true_eq] at hfin
        exact absurd hfin.1.1 (Nat.not_le_of_lt hlt)
  refine ⟨fun n hn => (ht.shortlist n hn).1, fun n hn => (ht.shortlist n hn).2.2.1,
    fun n hn => (ht.shortlist n hn).2.2.2, ht.sorted, ht.distinct, ht.length_le, ?_⟩
  rcases Nat.lt_or_eq_of_le ht.length_le with hlt | heq
  · right
    intro e he id hreach hadm
    have hvisited := hc.mem_visited_of_reaches hlt (hroom hlt) (hv e he) hreach
    have hlive : id ∈ nodes := by
      cases hreach with
      | refl => exact (hentries e he).mem
      | tail _ hf => exact hf.2
    obtain ⟨node, hnode⟩ := mem_iff_exists.mp hlive
    exact (hc hlt id node hvisited hnode).1 hadm
  · exact Or.inl heq

/-- Every link that resolves leads to an item on its layer. -/
def Layered (nodes : IdMap Node) : Prop :=
  ∀ layer source target, Follows nodes layer source target → OnLayer nodes layer target

theorem Layered.of_reaches (h : Layered nodes) {layer : Nat} {source target : ItemId}
    (hsource : OnLayer nodes layer source) (hr : Reaches nodes layer source target) :
    OnLayer nodes layer target := by
  cases hr with
  | refl => exact hsource
  | tail _ hf => exact h layer _ target hf

/-- What a beam search finds on a layer takes part in it, if its entries do. -/
theorem BeamResult.onLayer {rank : Ranking} {query : Embedding} {entries found : List Neighbor}
    {width layer : Nat} {admits : ItemId → Bool}
    (h : BeamResult rank nodes query entries width layer admits found) (hl : Layered nodes)
    (hentries : ∀ e ∈ entries, OnLayer nodes layer e.id) : ∀ n ∈ found, OnLayer nodes layer n.id := by
  intro n hn
  obtain ⟨e, he, hr⟩ := h.reached n hn
  exact hl.of_reaches (hentries e he) hr

section Found

variable {rank : Ranking} {query : Embedding} {entries found : List Neighbor} {width layer : Nat}
  {n : Neighbor}

/-- What is found is an entry or the target of a link. -/
theorem BeamResult.linked {admits : ItemId → Bool}
    (h : BeamResult rank nodes query entries width layer admits found) (hn : n ∈ found) :
    (∃ e ∈ entries, e.id = n.id) ∨ ∃ source, Follows nodes layer source n.id := by
  obtain ⟨e, he, hr⟩ := h.reached n hn
  rcases Relation.ReflTransGen.cases_tail hr with heq | ⟨source, _, hlink⟩
  · exact Or.inl ⟨e, he, heq.symm⟩
  · exact Or.inr ⟨source, hlink⟩

/-- Something is found. -/
theorem BeamResult.ne_nil (h : BeamResult rank nodes query entries width layer admitAll found)
    (hwidth : 0 < width) (hentries : entries ≠ []) : found ≠ [] := by
  obtain ⟨e, he⟩ := List.exists_mem_of_ne_nil entries hentries
  rintro rfl
  rcases h.exhaustive with hfull | hall
  · rw [List.length_nil] at hfull
    omega
  · exact absurd (hall e he e.id .refl rfl) List.not_mem_nil

end Found

/-! ## Descent -/

theorem layersDown_succ {top bottom : Nat} (h : bottom < top) :
    layersDown top bottom = layersDown top (bottom + 1) ++ [bottom + 1] := by
  unfold layersDown
  rw [show top - bottom = (top - (bottom + 1)) + 1 by omega, List.range'_succ, List.reverse_cons]

theorem layersDown_of_le {top bottom : Nat} (h : top ≤ bottom) : layersDown top bottom = [] := by
  unfold layersDown
  rw [show top - bottom = 0 by omega]
  rfl

/-- The last layer of a descent is searched from where the layers above it lead. -/
theorem Graph.descend_step (g : Graph) (query : Embedding) (entry : Neighbor) {top bottom : Nat}
    (h : bottom < top) : g.descend query entry top bottom = do
      let nearest ← g.descend query entry top (bottom + 1)
      return (← g.beamSearch query [nearest] 1 (bottom + 1) admitAll).headD nearest := by
  unfold Graph.descend
  rw [layersDown_succ h, List.foldlM_append]
  exact bind_congr fun nearest => bind_pure _

/-- Without layers to walk a descent stays where it is. -/
theorem Graph.descend_of_le (g : Graph) (query : Embedding) (entry : Neighbor) {top bottom : Nat}
    (h : top ≤ bottom) : g.descend query entry top bottom = .ok entry := by
  unfold Graph.descend
  rw [layersDown_of_le h]
  rfl

/-- **A descent ends at an item one layer above its bottom**, or stays where it is. It comes to an item by a link. -/
theorem Graph.Shows.descend (hs : g.Shows nodes) (hl : Layered nodes) {query : Embedding}
    {entry : Neighbor} (hentry : Scored g.rank nodes query entry) {top : Nat}
    (hon : OnLayer nodes top entry.id) (bottom : Nat) :
    ∃ n, g.descend query entry top bottom = .ok n ∧ Scored g.rank nodes query n ∧
      OnLayer nodes (min top (bottom + 1)) n.id ∧
      (n.id = entry.id ∨ ∃ l source, bottom < l ∧ l ≤ top ∧ Follows nodes l source n.id) := by
  by_cases htop : bottom < top
  · -- from the layers above, one beam further down
    induction hd : top - bottom generalizing bottom with
    | zero => omega
    | succ k ih =>
        have habove : ∃ n, g.descend query entry top (bottom + 1) = .ok n ∧
            Scored g.rank nodes query n ∧ OnLayer nodes (min top (bottom + 2)) n.id ∧
            (n.id = entry.id ∨ ∃ l source, bottom + 1 < l ∧ l ≤ top ∧ Follows nodes l source n.id) := by
          by_cases hmore : bottom + 1 < top
          · exact ih (bottom + 1) hmore (by omega)
          · have hnone := g.descend_of_le query entry (Nat.le_of_not_lt hmore)
            exact ⟨entry, hnone, hentry, hon.mono (Nat.min_le_left _ _), Or.inl rfl⟩
        obtain ⟨n, hn, hscored, honn, hcame⟩ := habove
        have hlayer : OnLayer nodes (bottom + 1) n.id := honn.mono (by omega)
        have hfrom : ∀ m ∈ [n], Scored g.rank nodes query m := fun m hm =>
          List.mem_singleton.mp hm ▸ hscored
        have hstay : n.id = entry.id ∨ ∃ l source, bottom < l ∧ l ≤ top ∧ Follows nodes l source n.id := by
          refine hcame.imp_right ?_
          rintro ⟨l, source, hlt, hle, hlink⟩
          exact ⟨l, source, by omega, hle, hlink⟩
        obtain ⟨found, hfound, hres⟩ := hs.beamSearch hfrom 1 (bottom + 1) admitAll
        refine ⟨found.headD n, ?_, ?_⟩
        · rw [g.descend_step query entry htop, hn, ok_bind, hfound]
          rfl
        · have honfound := hres.onLayer hl fun e he => List.mem_singleton.mp he ▸ hlayer
          have hmin : min top (bottom + 1) = bottom + 1 := by omega
          rw [hmin]
          cases found with
          | nil => exact ⟨hscored, hlayer, hstay⟩
          | cons m ms =>
              refine ⟨hres.scored m List.mem_cons_self, honfound m List.mem_cons_self, ?_⟩
              rcases hres.linked List.mem_cons_self with ⟨e, he, heq⟩ | ⟨source, hlink⟩
              · obtain rfl := List.mem_singleton.mp he
                show m.id = entry.id ∨ ∃ l source, bottom < l ∧ l ≤ top ∧ Follows nodes l source m.id
                rw [← heq]
                exact hstay
              · exact Or.inr ⟨bottom + 1, source, by omega, by omega, hlink⟩
  · have hnone := g.descend_of_le query entry (Nat.le_of_not_lt htop)
    exact ⟨entry, hnone, hentry, hon.mono (Nat.min_le_left _ _), Or.inl rfl⟩

end VectorIndex
