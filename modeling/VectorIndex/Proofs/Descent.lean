import VectorIndex.Proofs.LocalOptimum

/-!
# `VectorIndex.Proofs.Descent` — where a descent ends

A descent walks the layers from the top down, on each with a beam of width one from the item it carries. Such a
beam answers one item (`Graph.Shows.beamSearch_one`): not further than the one it started from, and with no link
on the layer that leads nearer. The induction goes over the layers below the top; what it carries down is that
the item takes part in the next layer and keeps its own distance (`Carried`). Links stay on their layers, so the
next beam keeps that (`Carried.descend`).

## Contents
- **A beam of width one.** `Rests`, `Beam.Settles.place_le`, `Graph.Shows.beamSearch_one`.
- **The layers.** `Carried`, `Carried.descend`, `Graph.Shows.descend_rests`.
- **Result.** `descend_locally_nearest`.
-/

namespace VectorIndex

variable {g : Graph} {nodes : IdMap Node} {query : Embedding}

/-! ## A beam of width one -/

/-- What is not further by place is not further as a number. -/
theorem Scored.not_lt {rank : Ranking} {n m : Neighbor} (hm : Scored rank nodes query m) (hrank : NeverNaN rank)
    (hn : Scored rank nodes query n) (hle : n.distance.place ≤ m.distance.place) :
    m.distance.lt n.distance = false := by
  apply eq_false_of_ne_true
  rw [Single.lt_iff_place (hm.isNaN_eq hrank) (hn.isNaN_eq hrank)]
  exact Int.not_lt.mpr hle

/-- No link of `n` on the layer leads to an item that is nearer. -/
def Rests (rank : Ranking) (nodes : IdMap Node) (query : Embedding) (layer : Nat) (n : Neighbor) : Prop :=
  ∀ v, Scored rank nodes query v → Follows nodes layer n.id v.id → n.distance.place ≤ v.distance.place

/-- The one item of a shortlist is not further than what is settled. -/
theorem Beam.Settles.place_le {b : Beam} {width : Nat} {n v : Neighbor} (h : b.Settles width v)
    (hb : b.shortlist = [n]) : n.distance.place ≤ v.distance.place := by
  have hn : n ∈ b.shortlist := hb ▸ List.mem_singleton.mpr rfl
  rcases h with hv | ⟨_, hle⟩
  · rw [hb] at hv
    rw [List.mem_singleton.mp hv]
  · exact hle n hn

/-- **A beam of width one answers one item**, which links lead to. It is not further than the item the beam
    started from, and none of its links leads nearer. -/
theorem Graph.Shows.beamSearch_one (hs : g.Shows nodes) (hrank : NeverNaN g.rank) {entry : Neighbor}
    (hentry : Scored g.rank nodes query entry) (layer : Nat) :
    ∃ n, g.beamSearch query [entry] 1 layer admitAll = .ok [n] ∧ Scored g.rank nodes query n ∧
      Reaches nodes layer entry.id n.id ∧ n.distance.place ≤ entry.distance.place ∧
      Rests g.rank nodes query layer n := by
  let s : BeamSearch := ⟨g, query, 1, layer, admitAll⟩
  have hentries : ∀ e ∈ [entry], Scored g.rank nodes query e := fun e he => List.mem_singleton.mp he ▸ hentry
  obtain ⟨found, hfound, hresult⟩ := hs.beamSearch hentries 1 layer admitAll
  obtain ⟨_, last, hrun, rfl⟩ := (BeamSearch.advance_eq_ok_iff hs).mp hfound
  have hlast : s.Orderly nodes (fun _ => True) none last :=
    hrun.orderly hrank hs Nat.one_pos (fun _ _ _ _ => trivial) fun e he => ⟨hentries e he, trivial⟩
  have hsettled : ∀ v, Scored g.rank nodes query v → v.id ∈ last.visited → last.Settles 1 v := fun v hv hseen =>
    hlast.settles v hv hseen rfl
  obtain ⟨n, hn⟩ : ∃ n, last.shortlist = [n] := by
    apply List.length_eq_one_iff.mp
    have hpos := List.length_pos_iff.mpr (hresult.ne_nil Nat.one_pos (List.cons_ne_nil entry []))
    have hle := hresult.length_le
    omega
  have hmem : n ∈ last.shortlist := hn ▸ List.mem_singleton.mpr rfl
  obtain ⟨e, he, hreach⟩ := hresult.reached n hmem
  obtain rfl := List.mem_singleton.mp he
  refine ⟨n, hn ▸ hfound, hresult.scored n hmem, hreach, ?_, fun v hv hlink => ?_⟩
  · have hseen := hrun.visited_mono hs (BeamSearch.mem_visited_start he)
    exact (hsettled _ hentry hseen).place_le hn
  · have hseen := hlast.followed hrank hrun.halts hmem hlink
    exact (hsettled v hv hseen).place_le hn

/-! ## The layers -/

/-- What goes down to `layer`: an item that takes part in it, at its own distance, not further than `entry`. -/
structure Carried (rank : Ranking) (nodes : IdMap Node) (query : Embedding) (layer : Nat)
    (entry n : Neighbor) : Prop where
  scored : Scored rank nodes query n
  onLayer : OnLayer nodes layer n.id
  place_le : n.distance.place ≤ entry.distance.place

/-- One layer: a beam of width one ends at an item that rests there, and keeps what is carried. -/
theorem Carried.descend (hs : g.Shows nodes) (hrank : NeverNaN g.rank) (hlayered : Layered nodes)
    {entry n : Neighbor} {top bottom : Nat} (h : Carried g.rank nodes query (bottom + 1) entry n)
    (hlt : bottom < top) (hn : g.descend query entry top (bottom + 1) = .ok n) :
    ∃ m, g.descend query entry top bottom = .ok m ∧ Carried g.rank nodes query (bottom + 1) entry m ∧
      Rests g.rank nodes query (bottom + 1) m := by
  obtain ⟨m, hfound, hscored, hreach, hplace, hrests⟩ := hs.beamSearch_one hrank h.scored (bottom + 1)
  refine ⟨m, ?_, ⟨hscored, hlayered.of_reaches h.onLayer hreach, Int.le_trans hplace h.place_le⟩, hrests⟩
  rw [g.descend_step query entry hlt, hn, ok_bind, hfound]
  rfl

/-- **A descent ends where its last layer leads no nearer**, at an item of that layer. -/
theorem Graph.Shows.descend_rests (hs : g.Shows nodes) (hrank : NeverNaN g.rank) (hlayered : Layered nodes)
    {entry : Neighbor} (hentry : Scored g.rank nodes query entry) {top bottom : Nat}
    (hon : OnLayer nodes top entry.id) (hlt : bottom < top) :
    ∃ n, g.descend query entry top bottom = .ok n ∧ Carried g.rank nodes query (bottom + 1) entry n ∧
      Rests g.rank nodes query (bottom + 1) n := by
  obtain ⟨above, rfl⟩ := Nat.exists_eq_add_of_lt hlt
  -- induction on the layers above the last one
  induction above generalizing bottom with
  | zero =>
      have hstart : Carried g.rank nodes query (bottom + 1) entry entry := ⟨hentry, hon, Int.le_refl _⟩
      exact hstart.descend hs hrank hlayered hlt (g.descend_of_le query entry (Nat.le_refl _))
  | succ above ih =>
      rw [show bottom + (above + 1) + 1 = bottom + 1 + above + 1 by omega] at hon hlt ⊢
      obtain ⟨n, hn, hcarried, _⟩ := ih hon (by omega)
      have hdown : Carried g.rank nodes query (bottom + 1) entry n :=
        ⟨hcarried.scored, hcarried.onLayer.mono (Nat.le_succ _), hcarried.place_le⟩
      exact hdown.descend hs hrank hlayered hlt hn

/-! ## Result -/

/-- **A descent ends at a local optimum one layer above its bottom.** On a graph whose links stay on their
    layers, whether or not they resolve, a descent from an item of the top layer, at its own distance, answers an
    item of the last layer walked, at its own distance. It is not further than the item the descent started from,
    and none of its links on that layer leads to an item that is nearer. -/
theorem descend_locally_nearest (hs : g.Shows nodes) {metric : Metric} (hrank : g.rank = metric.rank)
    (hlayered : Layered nodes) {entry : Neighbor} (hentry : g.score query entry.id = .ok (some entry))
    {top bottom : Nat} (hlt : bottom < top) (hon : OnLayer nodes top entry.id) :
    ∃ n : Neighbor,
      g.descend query entry top bottom = .ok n ∧
      OnLayer nodes (bottom + 1) n.id ∧
      g.score query n.id = .ok (some n) ∧
      entry.distance.lt n.distance = false ∧
      ∀ v m, Follows nodes (bottom + 1) n.id v → g.score query v = .ok (some m) →
        m.distance.lt n.distance = false := by
  have hnan : NeverNaN g.rank := hrank ▸ metric.neverNaN
  rw [hs.score, Except.ok.injEq] at hentry
  have hscored : Scored g.rank nodes query entry := hentry
  obtain ⟨n, hn, hcarried, hrests⟩ := hs.descend_rests hnan hlayered hscored hon hlt
  refine ⟨n, hn, hcarried.onLayer, ?_, hscored.not_lt hnan hcarried.scored hcarried.place_le,
    fun v m hlink hm => ?_⟩
  · rw [hs.score]
    exact congrArg Except.ok hcarried.scored
  · rw [hs.score, Except.ok.injEq, scoreOf_eq_some_iff] at hm
    obtain ⟨rfl, hm⟩ := hm
    exact hm.not_lt hnan hcarried.scored (hrests m hm hlink)

/-- Whether every link that resolves leads to an item on its layer, link by link. -/
def keepsLayers (nodes : IdMap Node) : Bool :=
  nodes.toList.all fun item => (List.range item.2.links.length).all fun layer =>
    (item.2.linksAt layer).all fun target => nodes[target]?.all fun node => decide (layer ≤ node.level)

theorem keepsLayers_iff : keepsLayers nodes = true ↔ Layered nodes := by
  simp only [keepsLayers, List.all_eq_true, List.mem_range, Option.all_eq_true, decide_eq_true_eq,
    Prod.forall, Std.ExtTreeMap.mem_toList_iff_getElem?_eq_some]
  constructor
  · rintro h layer source target ⟨⟨node, hnode, hlink⟩, hlive⟩
    obtain ⟨found, hfound⟩ := mem_iff_exists.mp hlive
    by_cases hlayer : layer < node.links.length
    · exact ⟨found, hfound, h source node hnode layer hlayer target hlink found hfound⟩
    · -- a node has no links above its layers
      unfold Node.linksAt at hlink
      rw [List.getElem?_eq_none (Nat.le_of_not_lt hlayer)] at hlink
      exact absurd hlink List.not_mem_nil
  · intro h source node hnode layer _ target hlink found hfound
    have hlive : target ∈ nodes := mem_iff_exists.mpr ⟨found, hfound⟩
    obtain ⟨other, hother, hlevel⟩ := h layer source target ⟨⟨node, hnode, hlink⟩, hlive⟩
    rw [hfound] at hother
    exact Option.some.inj hother ▸ hlevel

instance : Decidable (Layered nodes) := decidable_of_iff _ keepsLayers_iff

/-- Three items on a line, at 0, 2 and 4, on three layers, with links to no item. -/
def towerNodes : IdMap Node :=
  (((∅ : IdMap Node).insert 1 ⟨[⟨0⟩], [[2], [2, 9], [3, 8]]⟩).insert 2 ⟨[⟨0x40000000⟩], [[1], [1, 3]]⟩).insert 3
    ⟨[⟨0x40800000⟩], [[2, 9], [2], [1, 1]]⟩

/-- The tower as a graph. -/
def towerGraph : Graph := ⟨Metric.euclidean.rank, fun id => .ok towerNodes[id]?⟩

/-- From 0 towards 2, from the top layer down to the base layer. -/
theorem descend_locally_nearest_tower :
    Layered towerNodes ∧ OnLayer towerNodes 2 1 ∧
    towerGraph.score [⟨0x40000000⟩] 1 = .ok (some ⟨1, ⟨0x40800000⟩⟩) ∧
    ∃ n, towerGraph.descend [⟨0x40000000⟩] ⟨1, ⟨0x40800000⟩⟩ 2 0 = .ok n ∧ OnLayer towerNodes 1 n.id ∧
      ∀ v m, Follows towerNodes 1 n.id v → towerGraph.score [⟨0x40000000⟩] v = .ok (some m) →
        m.distance.lt n.distance = false := by
  have hlayered : Layered towerNodes := by decide +kernel
  have hon : OnLayer towerNodes 2 (Neighbor.id ⟨1, ⟨0x40800000⟩⟩) :=
    ⟨⟨[⟨0⟩], [[2], [2, 9], [3, 8]]⟩, by decide +kernel, by decide⟩
  have hentry : towerGraph.score [⟨0x40000000⟩] 1 = .ok (some ⟨1, ⟨0x40800000⟩⟩) := by decide +kernel
  obtain ⟨n, hn, honn, _, _, hnearest⟩ :=
    descend_locally_nearest (fun _ => rfl) rfl hlayered hentry (Nat.succ_pos 1) hon
  exact ⟨hlayered, hon, hentry, n, hn, honn, hnearest⟩

end VectorIndex
