import VectorIndex.Proofs.BeamSearch
import VectorIndex.Proofs.Choice
import VectorIndex.Proofs.Edit
import VectorIndex.Proofs.LinkLists
import VectorIndex.Proofs.Mirror

/-!
# `VectorIndex.Proofs.Wiring` — link lists stay sound while they are rewritten

Every change of an index rewrites link lists one at a time. `Draft.Holds d loose nodes` is the invariant of
all these rewrites: the live nodes of `d` are `nodes`, each has the shape its index asks for, each list is a
`LinkList`, and the backlinks mirror the links. In the middle of a deletion some lists still name the item
that went; `loose` says which lists may.

`Relinked` is what a rewrite leaves alone: everything but link lists.

## Contents
- **Shape.** `Node.Fits`, `LinkList`, `Wired`.
- **Drafts.** `Draft.Holds`, `Relinked`, and the step `Draft.Holds.setLinks`.
- **Searching.** `Entries`, `Draft.Holds.beamSearch`, `Draft.Holds.approach`.
- **Linking.** `Draft.Holds.choose`, `Draft.Holds.withLink`, `Edit.connectAll_yields`.
-/

namespace VectorIndex

/-! ## Shape -/

/-- An embedding of the right dimension with finite components, on 1 to `layerLimit` layers. -/
structure Node.Fits (params : Params) (dimension : Nat) (node : Node) : Prop where
  length : node.embedding.length = dimension
  finite : ∀ x ∈ node.embedding, x.isFinite
  layers_pos : 1 ≤ node.links.length
  layers_le : node.links.length ≤ params.layerLimit.toNat

/-- What the links of `id` on `layer` can be: within the cap, each target once, never `id`, and only items
    of the layer. A loose list may also name items that are gone. -/
structure LinkList (params : Params) (nodes : IdMap Node) (loose : Prop) (layer : Nat) (id : ItemId)
    (links : List ItemId) : Prop where
  length_le : links.length ≤ params.cap layer
  nodup : links.Nodup
  irrefl : id ∉ links
  onLayer : ∀ t ∈ links, t ∈ nodes → OnLayer nodes layer t
  resolves : ∀ t ∈ links, t ∉ nodes → loose

/-- Every node fits, and every list is a `LinkList`. -/
structure Wired (params : Params) (dimension : Nat) (loose : Nat → ItemId → Prop) (nodes : IdMap Node) :
    Prop where
  fits : ∀ (id : ItemId) (node : Node), nodes[id]? = some node → node.Fits params dimension
  links : ∀ (id : ItemId) (node : Node) (layer : Nat), nodes[id]? = some node →
    LinkList params nodes (loose layer id) layer id (node.linksAt layer)

/-- No list is loose. -/
def tight : Nat → ItemId → Prop := fun _ _ => False

section Shape

variable {params : Params} {dimension layer : Nat} {nodes nodes' : IdMap Node} {id : ItemId}
  {links : List ItemId} {loose loose' : Nat → ItemId → Prop}

theorem Node.Fits.of_frame {node node' : Node} (h : node.Fits params dimension)
    (hf : node'.frame = node.frame) : node'.Fits params dimension := by
  simp only [Node.frame, Prod.mk.injEq] at hf
  obtain ⟨he, hl⟩ := hf
  exact ⟨he ▸ h.length, he ▸ h.finite, hl ▸ h.layers_pos, hl ▸ h.layers_le⟩

theorem Node.Fits.lt_length_iff {node : Node} (h : node.Fits params dimension) :
    layer < node.links.length ↔ layer ≤ node.level := by
  have hpos := h.layers_pos
  unfold Node.level
  omega

theorem linkList_nil {P : Prop} : LinkList params nodes P layer id [] where
  length_le := Nat.zero_le _
  nodup := List.nodup_nil
  irrefl := List.not_mem_nil
  onLayer _ h := absurd h List.not_mem_nil
  resolves _ h := absurd h List.not_mem_nil

theorem LinkList.imp {P Q : Prop} (h : LinkList params nodes P layer id links) (hPQ : P → Q) :
    LinkList params nodes Q layer id links :=
  { h with resolves := fun t ht hgone => hPQ (h.resolves t ht hgone) }

theorem LinkList.of_frames {P : Prop} (h : LinkList params nodes P layer id links)
    (hf : frames nodes' = frames nodes) : LinkList params nodes' P layer id links :=
  { h with
    onLayer := fun t ht hlive => (h.onLayer t ht ((mem_iff_of_frames hf).mp hlive)).of_frames hf
    resolves := fun t ht hgone => h.resolves t ht fun hlive => hgone ((mem_iff_of_frames hf).mpr hlive) }

theorem Wired.layered (h : Wired params dimension loose nodes) : Layered nodes := by
  rintro layer source target ⟨⟨node, hnode, hlink⟩, hlive⟩
  exact (h.links source node layer hnode).onLayer target hlink hlive

/-- In a tight wiring every link leads to an item of its layer. -/
theorem Wired.target (h : Wired params dimension tight nodes) {node : Node} {t : ItemId}
    (hnode : nodes[id]? = some node) (ht : t ∈ node.linksAt layer) : OnLayer nodes layer t :=
  (h.links id node layer hnode).onLayer t ht
    (Classical.byContradiction ((h.links id node layer hnode).resolves t ht))

/-- A node with a link takes part in the layer. -/
theorem Wired.onLayer_of_mem_linksOf (h : Wired params dimension loose nodes) {t : ItemId}
    (ht : t ∈ linksOf nodes layer id) : OnLayer nodes layer id := by
  cases hnode : nodes[id]? with
  | none =>
      rw [linksOf_of_not_mem (not_mem_iff.mpr hnode)] at ht
      exact absurd ht List.not_mem_nil
  | some node =>
      refine ⟨node, hnode, Nat.le_of_not_lt fun hlt => ?_⟩
      rw [linksOf_eq hnode, linksAt_eq_nil_of_level_lt (h.fits id node hnode).layers_pos hlt] at ht
      exact absurd ht List.not_mem_nil

/-- Nobody links to an item that is not there. -/
theorem Wired.not_mem_linksOf (h : Wired params dimension tight nodes) (hid : id ∉ nodes) (layer : Nat)
    (source : ItemId) : id ∉ linksOf nodes layer source := by
  intro hlink
  obtain ⟨node, hnode, _⟩ := h.onLayer_of_mem_linksOf hlink
  rw [linksOf_eq hnode] at hlink
  exact hid (h.target hnode hlink).mem

theorem Wired.imp (h : Wired params dimension loose nodes)
    (himp : ∀ (l : Nat) (a : ItemId) (node : Node), nodes[a]? = some node → loose l a →
      node.linksAt l ≠ [] → loose' l a) :
    Wired params dimension loose' nodes where
  fits := h.fits
  links a node l hnode :=
    { h.links a node l hnode with
      resolves := fun t ht hgone =>
        himp l a node hnode ((h.links a node l hnode).resolves t ht hgone) (List.ne_nil_of_mem ht) }

/-- One list is replaced by a sound one. -/
theorem Wired.setLinks (h : Wired params dimension loose nodes) {node : Node} (hnode : nodes[id]? = some node)
    (hlayer : layer < node.links.length) (hloose : ∀ l a, loose l a → loose' l a ∨ (l = layer ∧ a = id))
    (hlinks : LinkList params nodes (loose' layer id) layer id links) :
    Wired params dimension loose' (nodes.insert id (node.setLinks layer links)) := by
  have hf : frames (nodes.insert id (node.setLinks layer links)) = frames nodes :=
    frames_insert_of_frame hnode (frame_setLinks node layer links)
  refine ⟨fun a node' hnode' => ?_, fun a node' l hnode' => ?_⟩
  · obtain ⟨old, hold, hframe⟩ := exists_of_frames hf hnode'
    exact (h.fits a old hold).of_frame hframe
  · apply LinkList.of_frames _ hf
    rw [getElem?_insert_id] at hnode'
    by_cases ha : id = a
    · subst ha
      rw [if_pos rfl, Option.some.injEq] at hnode'
      subst hnode'
      rw [Node.linksAt_setLinks]
      by_cases hl : l = layer
      · subst hl
        rw [if_pos ⟨rfl, hlayer⟩]
        exact hlinks
      · rw [if_neg fun hc => hl hc.1]
        exact (h.links id node l hnode).imp fun hp => (hloose l id hp).resolve_right fun hc => hl hc.1
    · rw [if_neg ha] at hnode'
      exact (h.links a node' l hnode').imp fun hp => (hloose l a hp).resolve_right fun hc => ha hc.2.symm

end Shape

/-! ## Drafts -/

/-- A draft without the nodes it touched and without backlinks. -/
def Draft.unlinked (d : Draft) : Draft := { d with touched := ∅, backlinks := none }

/-- The live nodes of the draft are `nodes`, wired soundly and mirrored by the backlinks. -/
structure Draft.Holds (d : Draft) (loose : Nat → ItemId → Prop) (nodes : IdMap Node) : Prop where
  shows : d.graph.Shows nodes
  wired : Wired d.head.params d.head.dimension.toNat loose nodes
  mirrors : ∀ b, d.backlinks = some b → b.Mirrors nodes

/-- Links were rewritten, and nothing else changed. -/
structure Relinked (d : Draft) (nodes : IdMap Node) (d' : Draft) (nodes' : IdMap Node) : Prop where
  rest : d'.unlinked = d.unlinked
  touched : ∀ id, id ∈ d.touched → id ∈ d'.touched
  frames : frames nodes' = frames nodes

section Relinked

variable {d d' d'' : Draft} {nodes nodes' nodes'' : IdMap Node}

theorem Relinked.refl : Relinked d nodes d nodes := ⟨rfl, fun _ h => h, rfl⟩

theorem Relinked.trans (h : Relinked d nodes d' nodes') (h' : Relinked d' nodes' d'' nodes'') :
    Relinked d nodes d'' nodes'' :=
  ⟨h'.rest.trans h.rest, fun id hid => h'.touched id (h.touched id hid), h'.frames.trans h.frames⟩

theorem Relinked.head (h : Relinked d nodes d' nodes') : d'.head = d.head :=
  (congrArg Draft.head h.rest : _)

theorem Relinked.rank (h : Relinked d nodes d' nodes') : d'.rank = d.rank :=
  (congrArg Draft.rank h.rest : _)

end Relinked

/-- The entries of a search: live on the layer, each with its own distance. -/
def Entries (rank : Ranking) (nodes : IdMap Node) (query : Embedding) (layer : Nat)
    (entries : List Neighbor) : Prop :=
  ∀ n ∈ entries, Scored rank nodes query n ∧ OnLayer nodes layer n.id

theorem Entries.relinked {d d' : Draft} {nodes nodes' : IdMap Node} {query : Embedding} {layer : Nat}
    {entries : List Neighbor} (h : Entries d.rank nodes query layer entries)
    (hrel : Relinked d nodes d' nodes') : Entries d'.rank nodes' query layer entries := by
  intro n hn
  rw [hrel.rank]
  exact ⟨(h n hn).1.of_frames hrel.frames, (h n hn).2.of_frames hrel.frames⟩

namespace Draft

variable {d : Draft} {loose loose' : Nat → ItemId → Prop} {nodes : IdMap Node} {id : ItemId} {layer : Nat}

theorem Holds.layered (h : d.Holds loose nodes) : Layered nodes := h.wired.layered

theorem Holds.imp (h : d.Holds loose nodes)
    (himp : ∀ (l : Nat) (a : ItemId) (node : Node), nodes[a]? = some node → loose l a →
      node.linksAt l ≠ [] → loose' l a) :
    d.Holds loose' nodes :=
  { h with wired := h.wired.imp himp }

/-- **The step of every rewrite.** A list is replaced by a sound one; only targets it had before may be
    gone. -/
theorem Holds.setLinks (h : d.Holds loose nodes) (loose' : Nat → ItemId → Prop) {node : Node}
    (hnode : nodes[id]? = some node) (hlayer : layer ≤ node.level) {links : List ItemId}
    (hlinks : LinkList d.head.params nodes (loose' layer id) layer id links)
    (hkept : ∀ t ∈ links, t ∈ nodes ∨ t ∈ node.linksAt layer)
    (hloose : ∀ l a, loose l a → loose' l a ∨ (l = layer ∧ a = id)) :
    (d.setLinks id node layer links).Holds loose' (nodes.insert id (node.setLinks layer links)) ∧
      Relinked d nodes (d.setLinks id node layer links) (nodes.insert id (node.setLinks layer links)) := by
  have hlt := ((h.wired.fits id node hnode).lt_length_iff).mpr hlayer
  refine ⟨⟨?_, h.wired.setLinks hnode hlt hloose hlinks, ?_⟩, rfl, ?_, ?_⟩
  · intro other
    have hother := h.shows other
    show (d.setLinks id node layer links).node other = _
    rw [node_setLinks, getElem?_insert_id]
    by_cases heq : id = other
    · rw [if_pos heq, if_pos heq]
    · rw [if_neg heq, if_neg heq]
      exact hother
  · intro b hb
    obtain ⟨b₀, hb₀, rfl⟩ := Option.map_eq_some_iff.mp hb
    exact (h.mirrors b₀ hb₀).replace hnode hlt hkept
  · exact fun other hother => mem_insert_key.mpr (Or.inr hother)
  · exact frames_insert_of_frame hnode (frame_setLinks node layer links)

theorem Holds.withEntry (h : d.Holds loose nodes) (entryPoint : Option ItemId) (level : Nat) :
    (d.withEntry entryPoint level).Holds loose nodes :=
  ⟨h.shows, h.wired, h.mirrors⟩

/-! ## Searching -/

/-- Items of a layer are scored; those that do not resolve are left out. -/
theorem Holds.scoreAll (h : d.Holds loose nodes) (query : Embedding) {ids : List ItemId}
    (hids : ∀ t ∈ ids, t ∈ nodes → OnLayer nodes layer t) :
    ∃ scored, d.graph.scoreAll query ids = .ok scored ∧ Entries d.rank nodes query layer scored ∧
      ∀ t, t ∈ scored.map Neighbor.id ↔ t ∈ ids ∧ t ∈ nodes := by
  refine ⟨_, h.shows.scoreAll query ids, fun n hn => ?_, fun t => ?_⟩
  · obtain ⟨hmem, hscored⟩ := mem_filterMap_scoreOf.mp hn
    exact ⟨hscored, hids n.id hmem hscored.mem⟩
  · constructor
    · intro ht
      obtain ⟨n, hn, rfl⟩ := List.mem_map.mp ht
      obtain ⟨hmem, hscored⟩ := mem_filterMap_scoreOf.mp hn
      exact ⟨hmem, hscored.mem⟩
    · rintro ⟨hmem, hlive⟩
      obtain ⟨n, rfl, hn⟩ := exists_scored_of_mem d.rank query hlive
      exact List.mem_map_of_mem (mem_filterMap_scoreOf.mpr ⟨hmem, hn⟩)

/-- A beam search on the live graph, from entries of the layer to items of the layer. -/
theorem Holds.beamSearch (h : d.Holds loose nodes) {query : Embedding} {entries : List Neighbor}
    (hentries : Entries d.rank nodes query layer entries) :
    ∃ found, d.beamSearch query entries layer = .ok found ∧ Entries d.rank nodes query layer found ∧
      BeamResult d.rank nodes query entries d.buildBeam layer admitAll found := by
  obtain ⟨found, hfound, hres⟩ := h.shows.beamSearch (fun n hn => (hentries n hn).1) d.buildBeam layer
    admitAll
  have hon := hres.onLayer h.layered fun e he => (hentries e he).2
  exact ⟨found, hfound, fun n hn => ⟨hres.scored n hn, hon n hn⟩, hres⟩

/-- The entry point is scored, and from there the search comes down to a node near the query: the entry point itself
    or one that a link on a layer above leads to. -/
theorem Holds.approach (h : d.Holds loose nodes) {entry : ItemId} {top : Nat}
    (hentry : OnLayer nodes top entry) (query : Embedding) (level : Nat) :
    ∃ start nearest, d.graph.score query entry = .ok (some start) ∧
      d.graph.descend query start top level = .ok nearest ∧
      (∀ l ≤ min level top, Entries d.rank nodes query l [nearest]) ∧
      (nearest.id = entry ∨ ∃ l source, level < l ∧ l ≤ top ∧ Follows nodes l source nearest.id) := by
  obtain ⟨start, rfl, hscored⟩ := exists_scored_of_mem d.rank query hentry.mem
  obtain ⟨nearest, hdescend, hnearest, hon, hcame⟩ := h.shows.descend h.layered hscored hentry level
  refine ⟨start, nearest, ?_, hdescend, ?_, hcame⟩
  · rw [h.shows.score]
    exact congrArg Except.ok hscored
  · intro l hl n hn
    obtain rfl := List.mem_singleton.mp hn
    exact ⟨hnearest, hon.mono (by omega)⟩

/-! ## Linking -/

/-- A choice among items of the layer is a sound list, and a full one if an item is left out. -/
theorem Holds.choose (h : d.Holds loose nodes) {found existing : List Neighbor} {P : Prop}
    (hgiven : ∀ n ∈ found ++ existing, OnLayer nodes layer n.id ∧ n.id ≠ id) :
    ∃ chosen, d.choose found existing layer = .ok chosen ∧
      LinkList d.head.params nodes P layer id (chosen.map Neighbor.id) ∧
      (∀ n ∈ chosen, n ∈ found ++ existing) ∧
      ∀ n ∈ found ++ existing, n.id ∈ chosen.map Neighbor.id ∨ (chosen.map Neighbor.id).length = d.cap layer := by
  refine ⟨_, h.shows.choose found existing (d.cap layer), ?_⟩
  have hmem : ∀ n ∈ Selection.choose d.graph.rank (candidatesOf nodes found) (candidatesOf nodes existing)
      (d.cap layer), n ∈ found ++ existing := by
    intro n hn
    obtain ⟨c, hc, rfl⟩ := Selection.mem_choose hn
    rcases List.mem_append.mp hc with hc | hc
    · exact List.mem_append_left _ (mem_of_mem_candidatesOf hc)
    · exact List.mem_append_right _ (mem_of_mem_candidatesOf hc)
  refine ⟨⟨?_, Selection.nodup_choose _ _ _ _, ?_, ?_, ?_⟩, hmem, ?_⟩
  · rw [List.length_map]
    exact Selection.length_choose_le _ _ _ _
  · intro hself
    obtain ⟨n, hn, heq⟩ := List.mem_map.mp hself
    exact (hgiven n (hmem n hn)).2 heq
  · intro t ht _
    obtain ⟨n, hn, rfl⟩ := List.mem_map.mp ht
    exact (hgiven n (hmem n hn)).1
  · intro t ht hgone
    obtain ⟨n, hn, rfl⟩ := List.mem_map.mp ht
    exact absurd (hgiven n (hmem n hn)).1.mem hgone
  · -- what is given is live, so it comes with an embedding
    intro n hn
    obtain ⟨node, hnode, _⟩ := (hgiven n hn).1
    have hcandidate : (⟨n, node.embedding⟩ : Candidate) ∈ candidatesOf nodes found ++ candidatesOf nodes existing := by
      unfold candidatesOf
      rw [← List.filterMap_append, List.mem_filterMap]
      exact ⟨n, hn, by rw [hnode]; rfl⟩
    rw [List.length_map]
    exact Selection.mem_or_full hcandidate

/-- A list chosen anew among links of the layer is sound. It names live ones of them, and a live one is left out only
    of a full list. -/
theorem Holds.chooseAmong (h : d.Holds loose nodes) (query : Embedding) {links : List ItemId} {P : Prop}
    (hlive : ∀ t ∈ links, t ∈ nodes → OnLayer nodes layer t) (hirrefl : id ∉ links) :
    ∃ scored chosen, d.graph.scoreAll query links = .ok scored ∧ d.choose scored [] layer = .ok chosen ∧
      LinkList d.head.params nodes P layer id (chosen.map Neighbor.id) ∧
      (∀ t ∈ chosen.map Neighbor.id, t ∈ links ∧ t ∈ nodes) ∧
      ∀ t ∈ links, t ∈ nodes →
        t ∈ chosen.map Neighbor.id ∨ (chosen.map Neighbor.id).length = d.cap layer := by
  obtain ⟨scored, hscore, hscored, hids⟩ := h.scoreAll query hlive
  have hgiven : ∀ n ∈ scored ++ [], OnLayer nodes layer n.id ∧ n.id ≠ id := by
    intro n hn
    rw [List.append_nil] at hn
    exact ⟨(hscored n hn).2, fun heq => hirrefl (heq ▸ ((hids n.id).mp (List.mem_map_of_mem hn)).1)⟩
  obtain ⟨chosen, hchosen, hlist, hmem, hall⟩ := h.choose (P := P) hgiven
  refine ⟨scored, chosen, hscore, hchosen, hlist, ?_, ?_⟩
  · intro t ht
    obtain ⟨n, hn, rfl⟩ := List.mem_map.mp ht
    have hin : n ∈ scored := by simpa using hmem n hn
    exact (hids n.id).mp (List.mem_map_of_mem hin)
  · intro t ht hmem
    obtain ⟨n, hn, rfl⟩ := List.mem_map.mp ((hids t).mpr ⟨ht, hmem⟩)
    exact hall n (List.mem_append_left _ hn)

/-- One more link, and the list is still sound. -/
theorem Holds.extendedLinks (h : d.Holds loose nodes) {node : Node} (hnode : nodes[id]? = some node)
    {target : ItemId} (htarget : OnLayer nodes layer target) (hne : id ≠ target)
    (hnew : target ∉ node.linksAt layer) :
    ∃ links, d.extendedLinks node target layer = .ok links ∧
      LinkList d.head.params nodes (loose layer id) layer id links ∧
      (∀ t ∈ links, t ∈ nodes ∨ t ∈ node.linksAt layer) ∧
      Extends (d.cap layer) nodes target (node.linksAt layer) links := by
  have hold := h.wired.links id node layer hnode
  have hlive : ∀ t ∈ node.linksAt layer ++ [target], t ∈ nodes → OnLayer nodes layer t := by
    intro t ht hmem
    rcases List.mem_append.mp ht with ht | ht
    · exact hold.onLayer t ht hmem
    · exact List.mem_singleton.mp ht ▸ htarget
  have hirrefl : id ∉ node.linksAt layer ++ [target] := by
    intro hself
    rcases List.mem_append.mp hself with hself | hself
    · exact hold.irrefl hself
    · exact hne (List.mem_singleton.mp hself)
  have hsplit : ∀ t ∈ node.linksAt layer ++ [target], t ∈ node.linksAt layer ∨ t = target :=
    fun t ht => (List.mem_append.mp ht).imp_right List.mem_singleton.mp
  unfold Draft.extendedLinks
  by_cases hfull : d.cap layer < (node.linksAt layer ++ [target]).length
  · -- the list is chosen anew among what resolves
    obtain ⟨scored, chosen, hscore, hchosen, hlist, hids, hkeeps⟩ :=
      h.chooseAmong node.embedding (P := loose layer id) hlive hirrefl
    refine ⟨chosen.map Neighbor.id, ?_, hlist, fun t ht => Or.inl (hids t ht).2, ?_, ?_, ?_⟩
    · rw [if_pos hfull, hscore, ok_bind, hchosen]
      rfl
    · exact fun t ht => hsplit t (hids t ht).1
    · exact (hkeeps target (by simp) htarget.mem).imp_right fun hlen => ⟨hlen, fun t ht => (hids t ht).2⟩
    · -- it is as long as before, or full, or names all live links
      intro hresolves
      by_cases hlen : (chosen.map Neighbor.id).length = d.cap layer
      · rw [hlen]
        exact hold.length_le
      · exact hold.nodup.length_le_of_subset fun t ht =>
          (hkeeps t (List.mem_append_left _ ht) (hresolves t ht)).resolve_right hlen
  · -- the list has room
    refine ⟨node.linksAt layer ++ [target], by rw [if_neg hfull]; rfl, ⟨?_, ?_, hirrefl, hlive, ?_⟩, ?_,
      hsplit, Or.inl (by simp), fun _ => by simp⟩
    · exact Nat.le_of_not_lt hfull
    · rw [← List.concat_eq_append]
      exact hold.nodup.concat hnew
    · intro t ht hgone
      rcases hsplit t ht with ht | rfl
      · exact hold.resolves t ht hgone
      · exact absurd htarget.mem hgone
    · intro t ht
      rcases hsplit t ht with ht | rfl
      · exact Or.inr ht
      · exact Or.inl htarget.mem

/-- **Adding one link keeps the wiring.** -/
theorem Holds.withLink (h : d.Holds loose nodes) {target : ItemId} (htarget : OnLayer nodes layer target)
    (hne : id ≠ target) :
    ∃ d' nodes', d.withLink id target layer = .ok d' ∧ d'.Holds loose nodes' ∧
      Relinked d nodes d' nodes' ∧ Gained (d.cap layer) layer target [id] nodes nodes' := by
  unfold Draft.withLink
  rw [show d.node id = .ok nodes[id]? from h.shows id, ok_bind]
  cases hnode : nodes[id]? with
  | none =>
      refine ⟨d, nodes, rfl, h, .refl, ⟨?_, fun _ _ _ => rfl⟩⟩
      rintro a ha ⟨node, hlive, _⟩
      obtain rfl := List.mem_singleton.mp ha
      rw [hnode] at hlive
      cases hlive
  | some node =>
      by_cases hskip : (node.level < layer || (node.linksAt layer).contains target) = true
      · refine ⟨d, nodes, by simp only [if_pos hskip]; rfl, h, .refl, ⟨?_, fun _ _ _ => rfl⟩⟩
        rintro a ha ⟨node', hnode', hle⟩
        obtain rfl := List.mem_singleton.mp ha
        obtain rfl := Option.some.inj (hnode.symm.trans hnode')
        have hlinked : target ∈ node.linksAt layer := by
          simpa [Nat.not_lt_of_le hle] using hskip
        rw [linksOf_eq hnode]
        exact .self hlinked
      · have hlayer : layer ≤ node.level ∧ target ∉ node.linksAt layer := by
          simpa using hskip
        obtain ⟨links, hlinks, hlist, hkept, hextends⟩ := h.extendedLinks hnode htarget hne hlayer.2
        obtain ⟨hholds, hrel⟩ := h.setLinks loose hnode hlayer.1 hlist hkept fun l a hl => Or.inl hl
        have hlt := ((h.wired.fits id node hnode).lt_length_iff).mpr hlayer.1
        refine ⟨_, _, ?_, hholds, hrel, ?_, ?_⟩
        · simp only [if_neg hskip, hlinks, ok_bind]
          rfl
        · intro a ha _
          obtain rfl := List.mem_singleton.mp ha
          rw [linksOf_setLinks hnode hlt, if_pos ⟨rfl, rfl⟩, linksOf_eq hnode]
          exact hextends
        · intro l a hout
          rw [linksOf_setLinks hnode hlt, if_neg]
          rintro ⟨rfl, rfl⟩
          exact hout ⟨rfl, List.mem_singleton_self _, node, hnode, hlayer.1⟩

end Draft

namespace Edit

variable {d : Draft} {loose : Nat → ItemId → Prop} {nodes : IdMap Node} {layer : Nat}

/-- **Adding links to one target keeps the wiring**, and only the lists of the sources change. -/
theorem connectAll_yields (h : d.Holds loose nodes) {sources : List ItemId} {target : ItemId}
    (htarget : OnLayer nodes layer target) (hne : ∀ s ∈ sources, s ≠ target) :
    (connectAll sources target layer).Yields d fun _ d' =>
      ∃ nodes', d'.Holds loose nodes' ∧ Relinked d nodes d' nodes' ∧
        Gained (d.cap layer) layer target sources nodes nodes' := by
  refine (yields_forM (I := fun rest d' => (∀ s ∈ rest, s ≠ target) ∧ ∃ done, done ++ rest = sources ∧
    ∃ nodes', d'.Holds loose nodes' ∧ Relinked d nodes d' nodes' ∧
      Gained (d.cap layer) layer target done nodes nodes') ?_ sources
    ⟨hne, [], rfl, nodes, h, .refl, .nil⟩).imp ?_
  · rintro source rest d₁ ⟨hrest, done, rfl, nodes₁, h₁, hrel₁, hgained₁⟩
    obtain ⟨d₂, nodes₂, hlink, h₂, hrel₂, hgained₂⟩ :=
      h₁.withLink (htarget.of_frames hrel₁.frames) (hrest source List.mem_cons_self)
    have hcap : d₁.cap layer = d.cap layer := congrArg (fun head => head.params.cap layer) hrel₁.head
    rw [hcap] at hgained₂
    refine yields_updating hlink ⟨fun s hs => hrest s (List.mem_cons_of_mem source hs), done ++ [source], by simp,
      nodes₂, h₂, hrel₁.trans hrel₂, hgained₁.append hgained₂ hrel₁.frames htarget.mem⟩
  · rintro _ d' ⟨_, done, hdone, hI⟩
    rw [List.append_nil] at hdone
    exact hdone ▸ hI

end Edit

end VectorIndex
