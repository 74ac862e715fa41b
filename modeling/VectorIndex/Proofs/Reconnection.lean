import VectorIndex.Proofs.Walk

/-!
# `VectorIndex.Proofs.Reconnection` — every item can be reached, and nothing else changes

Linking a node back replaces the base list of a reached node, its host. Two facts make this safe. The host
keeps every link of the tree on which the reached nodes hang, so none of them is cut off
(`Walked.adopt`). And there is always a host: every reached node that can be no host enters another reached
node, never the root, so if none could be host there would be more nodes entered than reached
(`Walked.exists_host`).

## Contents
- **Hosts.** `Adopts`, `spareLinks`, `Draft.hostLinks_eq`, `Walked.exists_host`, `Draft.findHost_eq`.
- **One node.** `Rebased`, `Walked.adopt`, `Draft.attach_eq`.
- **All nodes.** `Spans`, `Draft.attachAll_eq`, `Draft.Sound.reconnected`.
-/

namespace VectorIndex

/-! ## Hosts -/

/-- The list that `host` gets when it adopts `id`: it keeps the links of the tree and takes none but `id`. -/
structure Adopts (params : Params) (nodes : IdMap Node) (w : Walk) (host : ItemId) (node : Node) (id : ItemId)
    (links : List ItemId) : Prop where
  list : LinkList params nodes False 0 host links
  adopted : id ∈ links
  old : ∀ t ∈ links, t = id ∨ t ∈ node.linksAt 0
  tree : ∀ t ∈ node.linksAt 0, w.enteredFrom[t]? = some host → t ∈ links

/-- The walk entered some node through a link of `source`. -/
def Walk.Enters (w : Walk) (source : ItemId) : Prop := ∃ id : ItemId, w.enteredFrom[id]? = some source

section Hosts

variable {d : Draft} {nodes : IdMap Node} {entry host id : ItemId} {w : Walk} {node : Node}

/-- A reached host links to none that is not reached. -/
theorem Walked.not_mem_linksAt (hw : Walked nodes entry w []) (hnode : nodes[host]? = some node)
    (hhost : host ∈ w.reached) (hid : id ∈ nodes) (hnew : id ∉ w.reached) : id ∉ node.linksAt 0 :=
  fun hlink => hnew (hw.closed host hhost List.not_mem_nil id ⟨⟨node, hnode, hlink⟩, hid⟩)

/-- Some links of a host and the adopted node make a sound list. -/
theorem Draft.Holds.adopts (h : d.Holds tight nodes) (hw : Walked nodes entry w [])
    (hnode : nodes[host]? = some node) (hhost : host ∈ w.reached) (hid : id ∈ nodes) (hnew : id ∉ w.reached)
    {kept : List ItemId} (hsub : kept.Sublist (node.linksAt 0)) (hlength : kept.length < d.cap 0)
    (htree : ∀ t ∈ node.linksAt 0, w.enteredFrom[t]? = some host → t ∈ kept) :
    Adopts d.head.params nodes w host node id (kept ++ [id]) := by
  have hold := h.wired.links host node 0 hnode
  have hout := hw.not_mem_linksAt hnode hhost hid hnew
  have hmem : ∀ t ∈ kept ++ [id], t = id ∨ t ∈ node.linksAt 0 := by
    intro t ht
    rcases List.mem_append.mp ht with ht | ht
    · exact Or.inr (hsub.subset ht)
    · exact Or.inl (List.mem_singleton.mp ht)
  have hlive : ∀ t ∈ kept ++ [id], t ∈ nodes := by
    intro t ht
    rcases hmem t ht with rfl | ht
    · exact hid
    · exact (h.wired.target hnode ht).mem
  have hresolves : ∀ t ∈ kept ++ [id], t ∉ nodes → False := fun t ht hgone => hgone (hlive t ht)
  refine ⟨⟨?_, ?_, ?_, fun t _ => onLayer_zero.mpr, hresolves⟩, ?_, hmem, ?_⟩
  · rw [List.length_append, List.length_singleton]
    exact hlength
  · rw [← List.concat_eq_append]
    exact (hold.nodup.sublist hsub).concat fun hin => hout (hsub.subset hin)
  · intro hself
    rcases hmem host hself with rfl | hself
    · exact hnew hhost
    · exact hold.irrefl hself
  · exact List.mem_append_right _ List.mem_cons_self
  · exact fun t ht hentered => List.mem_append_left _ (htree t ht hentered)

/-- The links of a host that are not in the tree, by their distances to the host. -/
def spareLinks (rank : Ranking) (nodes : IdMap Node) (w : Walk) (host : ItemId) (node : Node) :
    List Neighbor :=
  Neighbor.sort (((node.linksAt 0).filter fun n => w.enteredFrom[n]? != some host).filterMap
    (scoreOf rank nodes node.embedding))

theorem mem_spareLinks {rank : Ranking} {n : Neighbor} : n ∈ spareLinks rank nodes w host node ↔
    (n.id ∈ node.linksAt 0 ∧ w.enteredFrom[n.id]? ≠ some host) ∧ Scored rank nodes node.embedding n := by
  unfold spareLinks Neighbor.sort
  rw [(Neighbor.sortOn_perm _).mem_iff, mem_filterMap_scoreOf, List.mem_filter, bne_iff_ne]

/-- A reached node adopts, unless the walk entered another node from it. -/
theorem Draft.hostLinks_eq (h : d.Holds tight nodes) (hcap : 0 < d.cap 0) (hw : Walked nodes entry w [])
    (hnode : nodes[host]? = some node) (hhost : host ∈ w.reached) (hid : id ∈ nodes)
    (hnew : id ∉ w.reached) :
    ∃ r, d.hostLinks w host node id = .ok r ∧
      (∀ links, r = some links → Adopts d.head.params nodes w host node id links) ∧
      (r = none → w.Enters host) := by
  have hold := h.wired.links host node 0 hnode
  have hlive : ∀ t ∈ node.linksAt 0, t ∈ nodes := fun t ht => (h.wired.target hnode ht).mem
  have hfilter : (node.linksAt 0).filter d.contains = node.linksAt 0 :=
    List.filter_eq_self.mpr fun t ht => (contains_eq h.shows t).mpr (hlive t ht)
  unfold Draft.hostLinks
  simp only [hfilter]
  by_cases hroom : (node.linksAt 0).length < d.cap 0
  · -- a free slot: no link is given up
    rw [if_pos hroom]
    refine ⟨_, rfl, ?_, fun hc => by cases hc⟩
    rintro links heq
    obtain rfl := Option.some.inj heq
    exact h.adopts hw hnode hhost hid hnew (List.Sublist.refl _) hroom fun t ht _ => ht
  · rw [if_neg hroom, h.shows.scoreAll, ok_bind]
    split
    · rename_i hlast
      refine ⟨none, rfl, fun links hc => by (cases hc), fun _ => ?_⟩
      -- the list is full, and all of it belongs to the tree
      have hnone : spareLinks d.rank nodes w host node = [] := List.getLast?_eq_none_iff.mp hlast
      obtain ⟨t, ht⟩ := List.exists_mem_of_length_pos (Nat.lt_of_lt_of_le hcap (Nat.le_of_not_lt hroom))
      refine ⟨t, Classical.byContradiction fun hspare => ?_⟩
      obtain ⟨n, rfl, hn⟩ := exists_scored_of_mem d.rank node.embedding (hlive t ht)
      have hmem : n ∈ spareLinks d.rank nodes w host node := mem_spareLinks.mpr ⟨⟨ht, hspare⟩, hn⟩
      rw [hnone] at hmem
      exact absurd hmem List.not_mem_nil
    · rename_i furthest hlast
      -- the furthest link outside the tree makes room
      refine ⟨_, rfl, ?_, fun hc => by cases hc⟩
      rintro links heq
      obtain rfl := Option.some.inj heq
      have hmem : furthest ∈ spareLinks d.rank nodes w host node := List.mem_of_getLast? hlast
      obtain ⟨⟨hlink, hspare⟩, _⟩ := mem_spareLinks.mp hmem
      refine h.adopts hw hnode hhost hid hnew List.filter_sublist ?_ fun t ht hentered => ?_
      · have hlt : ((node.linksAt 0).filter (· != furthest.id)).length < (node.linksAt 0).length :=
          List.length_filter_lt_length_iff_exists.mpr ⟨furthest.id, hlink, by simp⟩
        exact Nat.lt_of_lt_of_le hlt hold.length_le
      · refine List.mem_filter.mpr ⟨ht, bne_iff_ne.mpr ?_⟩
        rintro rfl
        exact hspare hentered

/-- **Some reached node can be host.** Otherwise each reached node would enter a reached node other than the
    root, and no two the same one. -/
theorem Walked.exists_host {stack : List ItemId} (hw : Walked nodes entry w stack) :
    ∃ host ∈ w.reached, ¬w.Enters host := by
  apply Classical.byContradiction
  intro hnone
  have hall : ∀ host : ItemId, ∃ t : ItemId, host ∈ w.reached → w.enteredFrom[t]? = some host := by
    intro host
    by_cases hhost : host ∈ w.reached
    · obtain ⟨t, ht⟩ := Classical.not_not.mp fun hfree => hnone ⟨host, hhost, hfree⟩
      exact ⟨t, fun _ => ht⟩
    · exact ⟨host, fun hc => absurd hc hhost⟩
  -- each host has a child of its own, and no child is the root: there are too few
  obtain ⟨child, hchild⟩ := Classical.axiomOfChoice hall
  have hmem : ∀ a, a ∈ w.reached.toList ↔ a ∈ w.reached := fun _ => Std.ExtTreeSet.mem_toList
  have hinj : (w.reached.toList.map child).Nodup := by
    rw [List.Nodup, List.pairwise_map]
    refine (nodup_toList w.reached).imp_of_mem fun {a b} ha hb hne heq => hne ?_
    have hab := (hchild a ((hmem a).mp ha)).symm.trans (heq ▸ hchild b ((hmem b).mp hb))
    exact Option.some.inj hab
  have hsub : w.reached.toList.map child ⊆ w.reached.toList.erase entry := by
    intro t ht
    obtain ⟨a, ha, rfl⟩ := List.mem_map.mp ht
    obtain ⟨hreached, hne⟩ := hw.entered _ a (hchild a ((hmem a).mp ha))
    exact (List.mem_erase_of_ne hne).mpr ((hmem _).mpr hreached)
  have hle := hinj.length_le_of_subset hsub
  rw [List.length_map, List.length_erase_of_mem ((hmem entry).mpr hw.root)] at hle
  have hpos := List.length_pos_of_mem ((hmem entry).mpr hw.root)
  omega

/-- The search for a host ends, since one of the candidates can be host. -/
theorem Draft.findHost_eq (h : d.Holds tight nodes) (hcap : 0 < d.cap 0) (hw : Walked nodes entry w [])
    (hid : id ∈ nodes) (hnew : id ∉ w.reached) (hosts : List ItemId)
    (hhosts : ∃ host ∈ hosts, host ∈ w.reached ∧ ¬w.Enters host) :
    ∃ host node links, d.findHost w id hosts = .ok (host, d.setLinks host node 0 links) ∧
      host ∈ w.reached ∧ nodes[host]? = some node ∧ Adopts d.head.params nodes w host node id links := by
  induction hosts with
  | nil =>
      obtain ⟨host, hmem, _⟩ := hhosts
      exact absurd hmem List.not_mem_nil
  | cons host hosts ih =>
      unfold findHost
      by_cases hskip : (host = id || !w.reached.contains host) = true
      · rw [if_pos hskip]
        apply ih
        obtain ⟨other, hother, hreached, hfree⟩ := hhosts
        rcases List.mem_cons.mp hother with rfl | hother
        · -- a reached node is not skipped
          simp only [Bool.or_eq_true, decide_eq_true_eq, Bool.not_eq_true',
            Std.ExtTreeSet.mem_iff_contains.mp hreached, Bool.true_eq_false, or_false] at hskip
          exact absurd (hskip ▸ hreached) hnew
        · exact ⟨other, hother, hreached, hfree⟩
      · rw [if_neg hskip]
        simp only [Bool.or_eq_true, decide_eq_true_eq, Bool.not_eq_true', Bool.not_eq_false,
          not_or] at hskip
        have hreached : host ∈ w.reached := Std.ExtTreeSet.mem_iff_contains.mpr hskip.2
        obtain ⟨node, hnode⟩ := mem_iff_exists.mp (hw.live host hreached)
        obtain ⟨r, hr, hsome, hnone⟩ := hostLinks_eq h hcap hw hnode hreached hid hnew
        rw [show d.node host = .ok (some node) from hnode ▸ h.shows host, ok_bind]
        dsimp only
        rw [hr, ok_bind]
        cases r with
        | some links => exact ⟨host, node, links, rfl, hreached, hnode, hsome links rfl⟩
        | none =>
            -- this one can be no host, so the one that can comes later
            apply ih
            obtain ⟨other, hother, hreached', hfree⟩ := hhosts
            rcases List.mem_cons.mp hother with rfl | hother
            · exact absurd (hnone rfl) hfree
            · exact ⟨other, hother, hreached', hfree⟩

end Hosts

/-! ## One node -/

/-- The nodes without their base lists. -/
def withoutBase (nodes : IdMap Node) : IdMap Node := nodes.map fun _ node => node.setLinks 0 []

/-- Base lists were rewritten, and nothing else changed. -/
structure Rebased (d : Draft) (nodes : IdMap Node) (d' : Draft) (nodes' : IdMap Node) : Prop
    extends Relinked d nodes d' nodes' where
  base : withoutBase nodes' = withoutBase nodes

section Adoption

variable {d d' d'' : Draft} {nodes nodes' nodes'' : IdMap Node} {entry host id : ItemId} {w : Walk}
  {node : Node} {links : List ItemId}

theorem Rebased.refl : Rebased d nodes d nodes := ⟨.refl, rfl⟩

theorem Rebased.trans (h : Rebased d nodes d' nodes') (h' : Rebased d' nodes' d'' nodes'') :
    Rebased d nodes d'' nodes'' :=
  ⟨h.toRelinked.trans h'.toRelinked, h'.base.trans h.base⟩

theorem withoutBase_setLinks (hnode : nodes[host]? = some node) (links : List ItemId) :
    withoutBase (nodes.insert host (node.setLinks 0 links)) = withoutBase nodes := by
  apply Std.ExtTreeMap.ext_getElem?
  intro other
  unfold withoutBase
  rw [Std.ExtTreeMap.getElem?_map, Std.ExtTreeMap.getElem?_map, getElem?_insert_id]
  by_cases heq : host = other
  · subst heq
    rw [if_pos rfl, hnode]
    simp [Node.setLinks]
  · rw [if_neg heq]

/-- The links after an adoption: those of the host are the new list. -/
theorem follows_setLinks (hnode : nodes[host]? = some node) (hlayer : 0 < node.links.length)
    {source t : ItemId} :
    Follows (nodes.insert host (node.setLinks 0 links)) 0 source t ↔
      (if host = source then t ∈ links else ∃ n, nodes[source]? = some n ∧ t ∈ n.linksAt 0) ∧ t ∈ nodes := by
  have hhost : host ∈ nodes := mem_iff_exists.mpr ⟨node, hnode⟩
  have hset : (node.setLinks 0 links).linksAt 0 = links := by
    rw [Node.linksAt_setLinks, if_pos ⟨rfl, hlayer⟩]
  rw [Backlinks.follows_insert, hset]
  exact and_congr_right fun _ => ⟨fun ht => ht.elim (fun heq => heq ▸ hhost) fun ht => ht, Or.inr⟩

/-- Every link of the tree stands: the host keeps those of its own. -/
theorem Hung.adopt {params : Params} {a : ItemId} (ha : Hung nodes w.enteredFrom entry a)
    (hnode : nodes[host]? = some node) (hlayer : 0 < node.links.length) (hnone : w.enteredFrom[id]? = none)
    (hlinks : Adopts params nodes w host node id links) :
    Hung (nodes.insert host (node.setLinks 0 links)) (w.enteredFrom.insert id host) entry a := by
  refine ha.imp fun source t hentered hlink => ⟨?_, (follows_setLinks hnode hlayer).mpr ⟨?_, hlink.2⟩⟩
  · rw [getElem?_insert_id, if_neg, hentered]
    rintro rfl
    exact Option.some_ne_none source (hentered.symm.trans hnone)
  · by_cases heq : host = source
    · subst heq
      obtain ⟨⟨node', hnode', hmem⟩, _⟩ := hlink
      obtain rfl := Option.some.inj (hnode.symm.trans hnode')
      rw [if_pos rfl]
      exact hlinks.tree t hmem hentered
    · rw [if_neg heq]
      exact hlink.1

/-- A link from a reached node is an old one, or that of the host to the adopted node. -/
theorem Walked.closed_adopt (hw : Walked nodes entry w []) (hnode : nodes[host]? = some node)
    (hlayer : 0 < node.links.length) (hhost : host ∈ w.reached) {params : Params}
    (hlinks : Adopts params nodes w host node id links) {a t : ItemId} (ha : a ∈ w.reached)
    (ht : Follows (nodes.insert host (node.setLinks 0 links)) 0 a t) : id = t ∨ t ∈ w.reached := by
  obtain ⟨hlink, hlive⟩ := (follows_setLinks hnode hlayer).mp ht
  by_cases heq : host = a
  · rw [if_pos heq] at hlink
    exact (hlinks.old t hlink).imp Eq.symm fun hold =>
      hw.closed host hhost List.not_mem_nil t ⟨⟨node, hnode, hold⟩, hlive⟩
  · rw [if_neg heq] at hlink
    exact Or.inr (hw.closed a ha List.not_mem_nil t ⟨hlink, hlive⟩)

/-- **An adoption keeps the tree and adds the adopted node to it.** -/
theorem Walked.adopt (hw : Walked nodes entry w []) (hnode : nodes[host]? = some node)
    (hlayer : 0 < node.links.length) (hhost : host ∈ w.reached) (hid : id ∈ nodes) (hnew : id ∉ w.reached)
    {params : Params} (hlinks : Adopts params nodes w host node id links) :
    Walked (nodes.insert host (node.setLinks 0 links)) entry
      (({ w with enteredFrom := w.enteredFrom.insert id host } : Walk).mark id) [id] := by
  have hmem : ∀ a, a ∈ (({ w with enteredFrom := w.enteredFrom.insert id host } : Walk).mark id).reached ↔
      id = a ∨ a ∈ w.reached := fun _ => mem_insert_id
  have hlive : ∀ a ∈ nodes, a ∈ nodes.insert host (node.setLinks 0 links) :=
    fun a ha => mem_insert_key.mpr (Or.inr ha)
  have hnone : w.enteredFrom[id]? = none :=
    Option.eq_none_iff_forall_ne_some.mpr fun source hentered => hnew (hw.entered id source hentered).1
  have htree : ∀ a ∈ w.reached,
      Hung (nodes.insert host (node.setLinks 0 links)) (w.enteredFrom.insert id host) entry a := fun a ha =>
    (hw.hung a ha).adopt hnode hlayer hnone hlinks
  refine ⟨?_, ?_, (hmem entry).mpr (Or.inr hw.root), ?_, ?_, ?_⟩
  · intro a ha
    rcases (hmem a).mp ha with rfl | ha
    · exact hlive _ hid
    · exact hlive a (hw.live a ha)
  · intro a ha
    rcases (hmem a).mp ha with rfl | ha
    · -- the adopted node hangs on its host
      refine .link (htree host hhost) ?_ ((follows_setLinks hnode hlayer).mpr ⟨?_, hid⟩)
      · show (w.enteredFrom.insert id host)[id]? = _
        rw [getElem?_insert_id, if_pos rfl]
      · rw [if_pos rfl]
        exact hlinks.adopted
    · exact htree a ha
  · intro a source ha
    have ha' : (w.enteredFrom.insert id host)[a]? = some source := ha
    rw [getElem?_insert_id] at ha'
    by_cases heq : id = a
    · subst heq
      exact ⟨(hmem id).mpr (Or.inl rfl), fun hc => hnew (hc ▸ hw.root)⟩
    · rw [if_neg heq] at ha'
      exact ⟨(hmem a).mpr (Or.inr (hw.entered a source ha').1), (hw.entered a source ha').2⟩
  · intro a ha
    exact (hmem a).mpr (Or.inl (List.mem_singleton.mp ha).symm)
  · intro a ha hout t ht
    have hreached := ((hmem a).mp ha).resolve_left fun hc => hout (List.mem_singleton.mpr hc.symm)
    exact (hmem t).mpr (hw.closed_adopt hnode hlayer hhost hlinks hreached ht)

/-- The search for nodes near an orphan cannot fail. -/
theorem Draft.Sound.nearEntry (h : d.Sound nodes) (query : Embedding) :
    ∃ near, d.nearEntry query = .ok near := by
  unfold Draft.nearEntry
  cases hentry : d.head.entryPoint with
  | none => exact ⟨[], rfl⟩
  | some e =>
      obtain ⟨start, nearest, hscore, hdescend, hon, _⟩ :=
        h.holds.approach (h.headed.onLayer hentry) query 0
      obtain ⟨found, hfound, _⟩ := h.holds.beamSearch (hon 0 (Nat.zero_le _))
      refine ⟨found, ?_⟩
      dsimp only
      rw [hscore, ok_bind]
      dsimp only
      rw [hdescend, ok_bind, hfound]

/-- **One node is linked back**, and the walk can go on from it. -/
theorem Draft.attach_eq (h : d.Sound nodes) (hw : Walked nodes entry w []) (hid : id ∈ nodes)
    (hnew : id ∉ w.reached) :
    ∃ host d' nodes', d.attach w id = .ok (host, d') ∧ d'.Sound nodes' ∧ Rebased d nodes d' nodes' ∧
      Walked nodes' entry
        (({ w with enteredFrom := w.enteredFrom.insert id host } : Walk).mark id) [id] := by
  obtain ⟨orphan, horphan⟩ := mem_iff_exists.mp hid
  obtain ⟨near, hnear⟩ := h.nearEntry orphan.embedding
  have hcap : 0 < d.cap 0 := by
    have hdegree := h.valid.two_le_degree
    have hbase := h.valid.degree_le_baseDegree
    unfold Draft.cap Params.cap
    rw [if_pos rfl]
    omega
  obtain ⟨host, hreached, hfree⟩ := hw.exists_host
  obtain ⟨host, node, links, hfind, hhost, hnode, hlinks⟩ :=
    Draft.findHost_eq h.holds hcap hw hid hnew (near.map Neighbor.id ++ w.reached.toList)
      ⟨host, List.mem_append_right _ (Std.ExtTreeSet.mem_toList.mpr hreached), hreached, hfree⟩
  have hlayer : 0 < node.links.length := (h.holds.wired.fits host node hnode).layers_pos
  obtain ⟨hholds, hrel⟩ := h.holds.setLinks tight hnode (Nat.zero_le _) hlinks.list
    (fun t ht => Or.inl (Classical.byContradiction (hlinks.list.resolves t ht))) fun l a hl => Or.inl hl
  refine ⟨host, _, _, ?_, h.relinked hholds hrel, ⟨hrel, withoutBase_setLinks hnode links⟩,
    hw.adopt hnode hlayer hhost hid hnew hlinks⟩
  unfold Draft.attach
  rw [show d.node id = .ok (some orphan) from horphan ▸ h.holds.shows id, ok_bind]
  dsimp only
  rw [hnear, ok_bind, hfind]

end Adoption

/-! ## All nodes -/

/-- Links on the base layer lead from the entry point to every item. -/
def Spans (head : Metadata) (nodes : IdMap Node) : Prop :=
  ∀ e, head.entryPoint = some e → ∀ id ∈ nodes, Reaches nodes 0 e id

section Reconnection

variable {d : Draft} {nodes : IdMap Node} {entry : ItemId}

/-- The items are linked back one after the other; what was reached stays reached. -/
theorem Draft.attachAll_eq (ids : List ItemId) (h : d.Sound nodes) {w : Walk}
    (hw : Walked nodes entry w []) (hids : ∀ id ∈ ids, id ∈ nodes) :
    ∃ d' nodes' w', attachAll d w ids = .ok d' ∧ d'.Sound nodes' ∧ Rebased d nodes d' nodes' ∧
      Walked nodes' entry w' [] ∧ ∀ id, id ∈ w.reached ∨ id ∈ ids → id ∈ w'.reached := by
  induction ids generalizing d nodes w with
  | nil =>
      exact ⟨d, nodes, w, rfl, h, .refl, hw, fun id hid => hid.resolve_right List.not_mem_nil⟩
  | cons id ids ih =>
      have hrest := fun a ha => hids a (List.mem_cons_of_mem id ha)
      unfold attachAll
      by_cases hreached : w.reached.contains id = true
      · rw [if_pos hreached]
        obtain ⟨d', nodes', w', hrun, h', hrel, hw', hall⟩ := ih h hw hrest
        refine ⟨d', nodes', w', hrun, h', hrel, hw', fun a ha => hall a ?_⟩
        rcases ha with ha | ha
        · exact Or.inl ha
        · rcases List.mem_cons.mp ha with rfl | ha
          · exact Or.inl (Std.ExtTreeSet.mem_iff_contains.mpr hreached)
          · exact Or.inr ha
      · rw [if_neg hreached]
        have hnew : id ∉ w.reached := fun hc => hreached (Std.ExtTreeSet.mem_iff_contains.mp hc)
        obtain ⟨host, d₁, nodes₁, hattach, h₁, hrel₁, hw₁⟩ :=
          Draft.attach_eq h hw (hids id List.mem_cons_self) hnew
        obtain ⟨w₂, hwalk, hw₂, hmono⟩ := follow_walked h₁.holds.shows _ _ hw₁
        obtain ⟨d', nodes', w', hrun, h', hrel, hw', hall⟩ :=
          ih h₁ hw₂ fun a ha => (mem_iff_of_frames hrel₁.frames).mpr (hrest a ha)
        refine ⟨d', nodes', w', ?_, h', hrel₁.trans hrel, hw', fun a ha => hall a ?_⟩
        · rw [hattach, ok_bind]
          dsimp only
          unfold walkFrom
          rw [hwalk, ok_bind, hrun]
        · rcases ha with ha | ha
          · exact Or.inl (hmono a (mem_insert_id.mpr (Or.inr ha)))
          · rcases List.mem_cons.mp ha with rfl | ha
            · exact Or.inl (hmono a (mem_insert_id.mpr (Or.inl rfl)))
            · exact Or.inr ha

/-- **A sound draft is reconnected.** Afterwards every item can be reached; only base lists have changed, and
    not even these if every item could be reached before. -/
theorem Draft.Sound.reconnected (h : d.Sound nodes) :
    ∃ d' nodes', d.reconnected = .ok d' ∧ d'.Sound nodes' ∧ Rebased d nodes d' nodes' ∧
      Spans d'.head nodes' ∧ (Spans d.head nodes → d' = d) := by
  unfold Draft.reconnected
  cases hentry : d.head.entryPoint with
  | none =>
      refine ⟨d, nodes, rfl, h, .refl, fun e he => ?_, fun _ => rfl⟩
      rw [hentry] at he
      cases he
  | some entry =>
      have hlive := (h.headed.onLayer hentry).mem
      obtain ⟨w, hwalk, hw, _⟩ := follow_walked h.holds.shows _ _ (walked_mark hlive)
      have hsub : ∀ id ∈ w.reached, id ∈ d.liveIds := fun id hid =>
        (mem_liveIds h.holds.shows id).mpr (hw.live id hid)
      dsimp only
      unfold walkFrom
      rw [hwalk, ok_bind]
      by_cases hsize : w.reached.size = d.liveIds.size
      · -- as many as there are: all of them
        rw [if_pos hsize]
        refine ⟨d, nodes, rfl, h, .refl, fun e he id hid => ?_, fun _ => rfl⟩
        obtain rfl := Option.some.inj (hentry.symm.trans he)
        exact hw.reaches (mem_of_size_eq hsub hsize ((mem_liveIds h.holds.shows id).mpr hid))
      · rw [if_neg hsize]
        obtain ⟨d', nodes', w', hrun, h', hrel, hw', hall⟩ :=
          attachAll_eq (d.liveIds.toList.filter fun id => !w.reached.contains id) h hw fun id hid =>
            (mem_liveIds h.holds.shows id).mp (Std.ExtTreeSet.mem_toList.mp (List.mem_filter.mp hid).1)
        refine ⟨d', nodes', hrun, h', hrel, fun e he id hid => ?_, fun hspans => ?_⟩
        · rw [hrel.head] at he
          obtain rfl := Option.some.inj (hentry.symm.trans he)
          refine hw'.reaches (hall id ?_)
          by_cases hreached : id ∈ w.reached
          · exact Or.inl hreached
          · refine Or.inr (List.mem_filter.mpr ⟨Std.ExtTreeSet.mem_toList.mpr ?_, ?_⟩)
            · exact (mem_liveIds h.holds.shows id).mpr ((mem_iff_of_frames hrel.frames).mp hid)
            · rw [Bool.not_eq_true', ← Bool.not_eq_true, ← Std.ExtTreeSet.mem_iff_contains]
              exact hreached
        · -- if every item could be reached, the walk has reached all of them
          refine absurd ?_ hsize
          have hall' : ∀ id ∈ d.liveIds, id ∈ w.reached := fun id hid =>
            hw.complete (hspans entry hentry id ((mem_liveIds h.holds.shows id).mp hid))
          exact congrArg _ (Std.ExtTreeSet.ext_mem fun id => ⟨hsub id, hall' id⟩)

end Reconnection

end VectorIndex
