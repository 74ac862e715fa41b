import VectorIndex.Proofs.Runs

/-!
# `VectorIndex.Proofs.ReverseIndex` — the reverse index answers like one built anew

A draft builds its backlinks at its first deletion and from then on changes them by differences. What is said
here is what they amount to after any run: the links of the live nodes turned around, the same as if they were
collected from scratch now, in whatever order. So nothing is left of an item that was deleted: nobody links to
it, and when its id comes back, only those link to it that it links to itself.

## Contents
- **From scratch.** `Backlinks.Reverses`, `Backlinks.ofNodes`, and the uniqueness of what they answer.
- **After a deletion.** `Edit.delete_ensures_backlinks`: there are backlinks.
- **After an addition.** `Draft.LinksBack`, kept by the links of an insertion, and `Edit.insert_ensures_linksBack`.
- **Runs.** `run_reverses`.
-/

namespace VectorIndex

/-! ## From scratch -/

namespace Backlinks

variable {b b' : Backlinks} {nodes : IdMap Node}

/-- The sources of every target are the live nodes that have it in their list. -/
def Reverses (b : Backlinks) (nodes : IdMap Node) : Prop :=
  ∀ (layer : Nat) (source target : ItemId), source ∈ b.sources layer target ↔
    ∃ node, nodes[source]? = some node ∧ target ∈ node.linksAt layer

/-- The links of some nodes, collected in their order. -/
def ofNodes (entries : List (ItemId × Node)) : Backlinks :=
  entries.foldl (fun b (id, node) => b.addNode id node) empty

/-- The entries are the nodes of the map, in some order. -/
def Lists (entries : List (ItemId × Node)) (nodes : IdMap Node) : Prop :=
  ∀ id node, (id, node) ∈ entries ↔ nodes[id]? = some node

theorem reverses_ofNodes {entries : List (ItemId × Node)} (h : Lists entries nodes) :
    (ofNodes entries).Reverses nodes := by
  intro layer source target
  unfold sources ofNodes
  rw [Std.ExtTreeSet.mem_toList, mem_sourceSet_addNodes, sourceSet_empty]
  simp only [Std.ExtTreeSet.not_mem_empty, or_false, h source]

/-- In a map without dangling links the two ways to say it are the same. -/
theorem Mirrors.reverses (h : b.Mirrors nodes) (hlinks : Draft.Resolves nodes) : b.Reverses nodes := by
  intro layer source target
  unfold sources
  rw [Std.ExtTreeSet.mem_toList, h layer source target]
  constructor
  · exact And.left
  · rintro ⟨node, hnode, hlink⟩
    exact ⟨⟨node, hnode, hlink⟩, hlinks source node layer target hnode hlink⟩

/-- What reverses the same links gives the same answers, in the same order. -/
theorem Reverses.sources_eq (h : b.Reverses nodes) (h' : b'.Reverses nodes) : b.sources = b'.sources := by
  funext layer target
  unfold sources
  refine congrArg Std.ExtTreeSet.toList (Std.ExtTreeSet.ext_mem fun source => ?_)
  have hsource := (h layer source target).trans (h' layer source target).symm
  unfold sources at hsource
  rwa [Std.ExtTreeSet.mem_toList, Std.ExtTreeSet.mem_toList] at hsource

end Backlinks

/-- No node has the item in a list. -/
def Unlinked (nodes : IdMap Node) (id : ItemId) : Prop :=
  ∀ (source : ItemId) (node : Node) (layer : Nat), nodes[source]? = some node → id ∉ node.linksAt layer

theorem Backlinks.Reverses.sources_eq_nil {b : Backlinks} {nodes : IdMap Node} {id : ItemId}
    (h : b.Reverses nodes) (hid : Unlinked nodes id) (layer : Nat) : b.sources layer id = [] := by
  refine List.eq_nil_iff_forall_not_mem.mpr fun source hsource => ?_
  obtain ⟨node, hnode, hlink⟩ := (h layer source id).mp hsource
  exact hid source node layer hnode hlink

section Sound

variable {d : Draft} {nodes : IdMap Node} {id : ItemId}

theorem Draft.Sound.resolves (h : d.Sound nodes) : Draft.Resolves nodes :=
  fun _ _ _ _ hnode hlink => (h.holds.wired.target hnode hlink).mem

theorem Draft.Sound.reverses (h : d.Sound nodes) {b : Backlinks} (hb : d.backlinks = some b) :
    b.Reverses nodes :=
  (h.holds.mirrors b hb).reverses h.resolves

/-- Nobody links to an item that is gone. -/
theorem Draft.Sound.unlinked (h : d.Sound nodes) (hid : id ∉ nodes) : Unlinked nodes id :=
  fun source node layer hnode hlink => hid (h.resolves source node layer id hnode hlink)

end Sound

/-! ## After a deletion -/

/-- The draft keeps backlinks. -/
def Draft.HasBacklinks (d : Draft) : Prop := ∃ b, d.backlinks = some b

theorem Draft.HasBacklinks.setLinks {d : Draft} (h : d.HasBacklinks) (id : ItemId) (node : Node) (layer : Nat)
    (links : List ItemId) : (d.setLinks id node layer links).HasBacklinks := by
  obtain ⟨b, hb⟩ := h
  exact ⟨_, congrArg (Option.map _) hb⟩

/-- A promotion changes the description only. -/
theorem Draft.HasBacklinks.promoted {d d' : Draft} (h : d.HasBacklinks) (hpromoted : d.promoted = .ok d') :
    d'.HasBacklinks := by
  obtain ⟨levels, _, hfound⟩ := bind_eq_ok.mp hpromoted
  split at hfound <;> exact Except.ok.inj hfound ▸ h

/-- A deletion leaves backlinks behind, also where there were none before. -/
theorem Edit.delete_ensures_backlinks (d : Draft) (id : ItemId) :
    (delete id).Ensures d fun _ d' => d'.HasBacklinks := by
  have hremoved : ∀ removed b, (d.remove id removed b).HasBacklinks := fun removed b =>
    ⟨b.eraseNode id removed, rfl⟩
  have hkept : Draft.KeptByLinks Draft.HasBacklinks := fun _ id node layer links h =>
    h.setLinks id node layer links
  refine hkept.delete fun d₁ hd₁ => ?_
  cases hd₁ with
  | last _ => exact hremoved _ _
  | entry _ _ hpromoted => exact (hremoved _ _).promoted hpromoted
  | other _ _ => exact hremoved _ _

/-! ## After an addition -/

/-- A choice takes nobody who was not offered. -/
theorem Graph.mem_candidates {g : Graph} {ns : List Neighbor} {cs : List Candidate}
    (h : g.candidates ns = .ok cs) : ∀ c ∈ cs, c.neighbor ∈ ns := by
  induction ns generalizing cs with
  | nil =>
      obtain rfl := Except.ok.inj h
      simp
  | cons n ns ih =>
      obtain ⟨found, _, h⟩ := bind_eq_ok.mp h
      cases found with
      | none => exact fun c hc => List.mem_cons_of_mem n (ih h c hc)
      | some node =>
          obtain ⟨rest, hrest, hcs⟩ := bind_eq_ok.mp h
          obtain rfl := Except.ok.inj hcs
          intro c hc
          rcases List.mem_cons.mp hc with rfl | hc
          · exact List.mem_cons_self
          · exact List.mem_cons_of_mem n (ih hrest c hc)

theorem Graph.mem_choose {g : Graph} {found existing chosen : List Neighbor} {cap : Nat}
    (h : g.choose found existing cap = .ok chosen) : ∀ n ∈ chosen, n ∈ found ++ existing := by
  obtain ⟨cs, hcs, h⟩ := bind_eq_ok.mp h
  obtain ⟨es, hes, h⟩ := bind_eq_ok.mp h
  obtain rfl := Except.ok.inj h
  intro n hn
  obtain ⟨c, hc, rfl⟩ := Selection.mem_choose hn
  rcases List.mem_append.mp hc with hc | hc
  · exact List.mem_append_left _ (Graph.mem_candidates hcs c hc)
  · exact List.mem_append_right _ (Graph.mem_candidates hes c hc)

namespace Draft

/-- The draft touched the item, its node is `own`, and everyone who links to it is in its list. -/
structure LinksBack (d : Draft) (id : ItemId) (own : Node) : Prop where
  touched : d.touched[id]? = some own
  answers : ∀ (source : ItemId) (node : Node) (layer : Nat), d.node source = .ok (some node) →
    id ∈ node.linksAt layer → source ∈ own.linksAt layer

variable {d d' : Draft} {id source : ItemId} {own node : Node} {layer : Nat}

theorem LinksBack.node_eq (h : d.LinksBack id own) : d.node id = .ok (some own) := by
  unfold Draft.node
  rw [h.touched]

/-- A node without links comes in, and nobody links to it. -/
theorem linksBack_place (embedding : Embedding) (level : Nat)
    (hnobody : ∀ (source : ItemId) (node : Node) (layer : Nat), d.node source = .ok (some node) →
      id ∉ node.linksAt layer) :
    (d.place id (Node.isolated embedding level)).LinksBack id (Node.isolated embedding level) := by
  refine ⟨Std.ExtTreeMap.getElem?_insert_self, fun source node layer hnode hlink => ?_⟩
  rw [node_place] at hnode
  split at hnode
  · obtain rfl := Option.some.inj (Except.ok.inj hnode)
    rw [Node.linksAt_isolated] at hlink
    cases hlink
  · exact absurd hlink (hnobody source node layer hnode)

/-- One whom the item links to may change its list. -/
theorem LinksBack.setLinks (h : d.LinksBack id own) (hne : source ≠ id)
    (hnode : d.node source = .ok (some node)) (hsource : source ∈ own.linksAt layer) (links : List ItemId) :
    (d.setLinks source node layer links).LinksBack id own := by
  refine ⟨?_, fun other node' l hother hlink => ?_⟩
  · rw [← h.touched]
    exact (getElem?_insert_id _ _ _ _).trans (if_neg hne)
  · rw [node_setLinks] at hother
    split at hother
    · rename_i heq
      subst heq
      obtain rfl := Option.some.inj (Except.ok.inj hother)
      rw [Node.linksAt_setLinks] at hlink
      split at hlink
      · rename_i hl
        exact hl.1 ▸ hsource
      · exact h.answers source node l hnode hlink
    · exact h.answers other node' l hother hlink

theorem LinksBack.withLink (h : d.LinksBack id own) (hne : source ≠ id) (hsource : source ∈ own.linksAt layer)
    (hlink : d.withLink source id layer = .ok d') : d'.LinksBack id own := by
  obtain ⟨found, hfound, hlink⟩ := bind_eq_ok.mp hlink
  cases found with
  | none => exact Except.ok.inj hlink ▸ h
  | some node =>
      dsimp only at hlink
      split at hlink
      · exact Except.ok.inj hlink ▸ h
      · obtain ⟨links, _, hset⟩ := bind_eq_ok.mp hlink
        exact Except.ok.inj hset ▸ h.setLinks hne hfound hsource links

/-- On a layer where its list is empty the item may choose whom to link to. -/
theorem LinksBack.relink (h : d.LinksBack id own) (hnil : own.linksAt layer = []) (links : List ItemId) :
    (d.relink id layer links).LinksBack id (own.setLinks layer links) := by
  unfold Draft.relink
  rw [h.touched]
  refine ⟨Std.ExtTreeMap.getElem?_insert_self, fun other node' l hother hlink => ?_⟩
  rw [node_setLinks] at hother
  split at hother
  · rename_i heq
    obtain rfl := Option.some.inj (Except.ok.inj hother)
    exact heq ▸ hlink
  · have hold := h.answers other node' l hother hlink
    rw [Node.linksAt_setLinks]
    split
    · -- nobody linked to the item on this layer
      rename_i hl
      rw [hl.1, hnil] at hold
      cases hold
    · exact hold

end Draft

namespace Edit

variable {d : Draft} {id : ItemId} {own : Node} {layer : Nat}

theorem connectAll_ensures_linksBack (h : d.LinksBack id own) {sources : List ItemId}
    (hsources : ∀ s ∈ sources, s ≠ id ∧ s ∈ own.linksAt layer) :
    (connectAll sources id layer).Ensures d fun _ d' => d'.LinksBack id own :=
  ensures_forM (fun s hs _ hd => ensures_updating fun _ hlink =>
    hd.withLink (hsources s hs).1 (hsources s hs).2 hlink) h

/-- One layer: whom the item links to is asked to link back, and nobody else. -/
theorem linkLayer_ensures_linksBack (h : d.LinksBack id own) (hlayer : layer < own.links.length)
    (hnil : own.linksAt layer = []) (embedding : Embedding) (entries : List Neighbor) :
    (linkLayer id embedding layer entries).Ensures d fun _ d' =>
      ∃ links, d'.LinksBack id (own.setLinks layer links) := by
  refine ensures_bind (ensures_reading ?_)
  rintro ⟨nearest, chosen⟩ hnearby
  obtain ⟨found, _, hnearby⟩ := bind_eq_ok.mp hnearby
  obtain ⟨chosen', hchosen, heq⟩ := bind_eq_ok.mp hnearby
  obtain ⟨rfl, rfl⟩ := Prod.mk.inj (Except.ok.inj heq)
  refine ensures_bind (ensures_modify (ensures_bind ?_))
  refine (connectAll_ensures_linksBack (h.relink hnil (chosen'.map Neighbor.id)) ?_).imp
    fun _ d' hd' => ensures_pure ⟨_, hd'⟩
  intro s hs
  rw [Node.linksAt_setLinks, if_pos ⟨rfl, hlayer⟩]
  refine ⟨?_, hs⟩
  obtain ⟨n, hn, rfl⟩ := List.mem_map.mp hs
  have hmem := Graph.mem_choose hchosen n hn
  rw [List.append_nil, List.mem_filter] at hmem
  simpa using hmem.2

theorem linkLayers_ensures_linksBack (embedding : Embedding) {layers : List Nat} (hnodup : layers.Nodup)
    (h : d.LinksBack id own) (hlayers : ∀ l ∈ layers, l < own.links.length ∧ own.linksAt l = [])
    (entries : List Neighbor) :
    (linkLayers id embedding layers entries).Ensures d fun _ d' => ∃ own', d'.LinksBack id own' := by
  induction layers generalizing d own entries with
  | nil => exact ensures_pure ⟨own, h⟩
  | cons layer layers ih =>
      obtain ⟨hnew, hnodup⟩ := List.nodup_cons.mp hnodup
      obtain ⟨hlt, hnil⟩ := hlayers layer List.mem_cons_self
      refine ensures_bind ((linkLayer_ensures_linksBack h hlt hnil embedding entries).imp ?_)
      rintro next d₁ ⟨links, h₁⟩
      refine ih hnodup h₁ (fun l hl => ?_) next
      -- the lists further down are still empty
      obtain ⟨hlt', hnil'⟩ := hlayers l (List.mem_cons_of_mem layer hl)
      have hne : l ≠ layer := fun heq => hnew (heq ▸ hl)
      refine ⟨?_, ?_⟩
      · unfold Node.setLinks
        rwa [List.length_set]
      · rw [Node.linksAt_setLinks, if_neg fun hc => hne hc.1]
        exact hnil'

theorem nodup_layersFrom (top : Nat) : (layersFrom top).Nodup :=
  List.nodup_reverse.mpr List.nodup_range

/-- **After an insertion only those link to the item that it links to**, if nobody did before. -/
theorem insert_ensures_linksBack (embedding : Embedding)
    (hnobody : ∀ (source : ItemId) (node : Node) (layer : Nat), d.node source = .ok (some node) →
      id ∉ node.linksAt layer) :
    (insert id embedding).Ensures d fun _ d' => ∃ own, d'.LinksBack id own := by
  have hplaced := Draft.linksBack_place (d := d) embedding d.drawnLevel hnobody
  refine ensures_bind (ensures_get (ensures_bind (ensures_modify (ensures_bind (ensures_get ?_)))))
  split
  · exact ensures_modify ⟨_, hplaced.touched, hplaced.answers⟩
  · refine ensures_bind (ensures_reading fun found _ => ?_)
    cases found with
    | none => exact ensures_throw _
    | some start =>
        refine ensures_bind (ensures_get (ensures_bind (ensures_reading fun nearest _ => ?_)))
        refine ensures_bind ((linkLayers_ensures_linksBack embedding (nodup_layersFrom _) hplaced ?_ _).imp ?_)
        · intro l hl
          have hle := mem_layersFrom.mp hl
          refine ⟨?_, Node.linksAt_isolated embedding d.drawnLevel l⟩
          simp only [Node.isolated, List.length_replicate]
          omega
        · rintro _ d' ⟨own, hown⟩
          split
          · exact ensures_modify ⟨own, hown.touched, hown.answers⟩
          · exact ensures_pure ⟨own, hown⟩

end Edit

/-! ## Runs -/

/-- Only those that the item links to link to it. -/
def Answered (nodes : IdMap Node) (id : ItemId) : Prop :=
  ∃ own, nodes[id]? = some own ∧ ∀ (source : ItemId) (node : Node) (layer : Nat),
    nodes[source]? = some node → id ∈ node.linksAt layer → source ∈ own.linksAt layer

section Calls

variable {d d' : Draft} {nodes nodes' : IdMap Node} {id : ItemId} {embedding : Embedding}

theorem Draft.LinksBack.answered {own : Node} (h : d.LinksBack id own) (hshows : d.graph.Shows nodes) :
    Answered nodes id := by
  have hnode : ∀ other, d.node other = .ok nodes[other]? := hshows
  refine ⟨own, Except.ok.inj ((hnode id).symm.trans h.node_eq), fun source node layer hsource hlink => ?_⟩
  exact h.answers source node layer (hsource ▸ hnode source) hlink

theorem Draft.Sound.insert_ensures (h : d.Sound nodes) (hid : id ∉ nodes) (embedding : Embedding) :
    (Edit.insert id embedding).Ensures d fun _ d' => ∃ own, d'.LinksBack id own := by
  refine Edit.insert_ensures_linksBack embedding fun source node layer hnode hlink => ?_
  have hsource : nodes[source]? = some node := Except.ok.inj ((h.holds.shows source).symm.trans hnode)
  exact h.unlinked hid source node layer hsource hlink

/-- An item just added is linked to by those that it links to. -/
theorem Draft.Sound.addItem_ensures (h : d.Sound nodes) (id : ItemId) (embedding : Embedding) :
    (Edit.addItem id embedding).Ensures d fun _ d' => ∃ own, d'.LinksBack id own := by
  refine Edit.ensures_bind (Edit.ensures_reading fun _ _ => Edit.ensures_bind (Edit.ensures_get ?_))
  split
  · exact Edit.ensures_throw _
  · rename_i hlive
    exact h.insert_ensures (fun hid => hlive ((Draft.contains_eq h.holds.shows id).mpr hid)) embedding

/-- So is an item that came back with another vector. -/
theorem Draft.Sound.updateItem_ensures (h : d.Sound nodes) (id : ItemId) (embedding : Embedding) :
    (Edit.updateItem id embedding).Ensures d fun _ d' => ∃ own, d'.LinksBack id own := by
  refine Edit.ensures_bind (Edit.ensures_reading fun _ _ => Edit.ensures_bind (Edit.ensures_get ?_))
  split
  · exact Edit.ensures_throw _
  · rename_i hgone
    have hlive : id ∈ nodes := (Draft.contains_eq h.holds.shows id).mp (by simpa using hgone)
    obtain ⟨removed, hnode⟩ := mem_iff_exists.mp hlive
    refine Edit.ensures_bind ((Edit.delete_yields h hnode).ensures.imp ?_)
    rintro _ d₁ ⟨_, nodes₁, h₁, _, hrel, _⟩
    refine h₁.insert_ensures (fun hid => ?_) embedding
    exact (mem_erase_key.mp ((mem_iff_of_frames hrel.frames).mp hid)).1 rfl

/-- After a deletion there are backlinks, and they know of nobody who links to the item. -/
theorem Draft.Sound.deleteItem_ensures (h : d.Sound nodes) (id : ItemId) :
    (Edit.deleteItem id).Ensures d fun _ d' => ∃ (nodes' : IdMap Node) (b : Backlinks),
      d'.Sound nodes' ∧ d'.backlinks = some b ∧ id ∉ nodes' := by
  intro u d' hrun
  obtain ⟨b, hb⟩ := Edit.delete_ensures_backlinks d id u d' hrun
  obtain ⟨removed, hnode⟩ := mem_iff_exists.mp (h.mem_of_deleteItem hrun)
  obtain ⟨_, nodes₁, h₁, _, hrel, _⟩ := (Edit.delete_yields h hnode).ensures u d' hrun
  exact ⟨nodes₁, b, h₁, hb, fun hc => (mem_erase_key.mp ((mem_iff_of_frames hrel.frames).mp hc)).1 rfl⟩

end Calls

section Results

variable {distances : Metric → Ranking} {steps : List Step} {s : Session}

/-- **The reverse index mirrors the graph.** After every run, if a writer keeps backlinks, they are the links of
    its live nodes turned around: they answer like those that a scan would give now, and like those collected
    from the live nodes in any order. A deletion leaves backlinks in which nobody links to the item, and indeed
    nobody does. After an item was added or updated, only those link to it that it links to. -/
theorem run_reverses (hrun : World.run distances steps = .opened s) {handle : Handle} {w : Writer}
    (hw : s.writers[handle]? = some w) :
    ∃ nodes : IdMap Node, (∀ id, w.draft.node id = .ok nodes[id]?) ∧
      (∀ b, w.draft.backlinks = some b → b.Reverses nodes ∧
        (∃ scanned, w.draft.scannedBacklinks = .ok scanned ∧ b.sources = scanned.sources) ∧
        ∀ entries, Backlinks.Lists entries nodes → b.sources = (Backlinks.ofNodes entries).sources) ∧
      (∀ id w', w.run (Change.delete id).edit = (.ok (), w') → ∃ (nodes' : IdMap Node) (b : Backlinks),
        (∀ other, w'.draft.node other = .ok nodes'[other]?) ∧ w'.draft.backlinks = some b ∧
        b.Reverses nodes' ∧ (∀ layer, b.sources layer id = []) ∧ Unlinked nodes' id) ∧
      ∀ id embedding c w', c = Change.add id embedding ∨ c = Change.update id embedding →
        w.run c.edit = (.ok (), w') → ∃ nodes' : IdMap Node,
          (∀ other, w'.draft.node other = .ok nodes'[other]?) ∧ Answered nodes' id := by
  obtain ⟨nodes, h, _⟩ := ((Session.Sound.of_run hrun).writers handle w hw).sound
  refine ⟨nodes, h.holds.shows, fun b hb => ?_, fun id w' hdelete => ?_, ?_⟩
  · have hreverses := h.reverses hb
    obtain ⟨scanned, hscan, hmirrors⟩ := Draft.scannedBacklinks_eq h.holds.shows h.resolves
    refine ⟨hreverses, ⟨scanned, hscan, hreverses.sources_eq (hmirrors.reverses h.resolves)⟩, ?_⟩
    exact fun entries hentries => hreverses.sources_eq (Backlinks.reverses_ofNodes hentries)
  · obtain ⟨nodes', b, h', hb, hid⟩ := h.deleteItem_ensures id () w'.draft (Writer.run_eq_ok hdelete)
    have hreverses := h'.reverses hb
    have hunlinked := h'.unlinked hid
    exact ⟨nodes', b, h'.holds.shows, hb, hreverses, hreverses.sources_eq_nil hunlinked, hunlinked⟩
  · intro id embedding c w' hc hchange
    have hon := Writer.run_eq_ok hchange
    have hlinks : ∃ own, w'.draft.LinksBack id own := by
      rcases hc with rfl | rfl
      · exact h.addItem_ensures id embedding () w'.draft hon
      · exact h.updateItem_ensures id embedding () w'.draft hon
    obtain ⟨own, hown⟩ := hlinks
    -- the draft is sound again, whatever the call was
    rcases Change.edit_on h c with ⟨x, _, hx⟩ | ⟨items, d', _, hd', nodes', h', _⟩
    · cases congrArg Prod.fst (hx.symm.trans hon)
    · obtain ⟨_, rfl⟩ := Prod.mk.inj (hd'.symm.trans hon)
      exact ⟨nodes', h'.holds.shows, hown.answered h'.holds.shows⟩

/-- A run: the second writer has deleted an item that two others linked to. -/
def itemDeleted : List Step := threeItems ++ [.call (.change 1 (.delete 2))]

theorem itemDeleted_shows : ((World.run Metric.rank itemDeleted).session.any fun s =>
    s.writers[(1 : Handle)]?.any fun w =>
      (w.draft.backlinks.any fun b => b.sources 0 3 == [1]) &&
      (w.run (Change.delete 3).edit).1.toOption.isSome &&
      (w.run (Change.add 2 [⟨0x40000000⟩]).edit).1.toOption.isSome) = true := by
  decide +kernel

theorem run_reverses_itemDeleted : ∃ (s : Session) (w : Writer) (b : Backlinks) (nodes : IdMap Node),
    World.run Metric.rank itemDeleted = .opened s ∧ s.writers[(1 : Handle)]? = some w ∧
      w.draft.backlinks = some b ∧ b.sources 0 3 = [1] ∧ b.Reverses nodes ∧
      (∃ (w' : Writer) (b' : Backlinks), w.run (Change.delete 3).edit = (.ok (), w') ∧
        w'.draft.backlinks = some b' ∧ b'.sources 0 3 = []) ∧
      ∃ (w' : Writer) (nodes' : IdMap Node), w.run (Change.add 2 [⟨0x40000000⟩]).edit = (.ok (), w') ∧
        (∀ other, w'.draft.node other = .ok nodes'[other]?) ∧ Answered nodes' 2 := by
  obtain ⟨s, hs, hshows⟩ := (Option.any_eq_true _ _).mp itemDeleted_shows
  obtain ⟨w, hw, hshows⟩ := (Option.any_eq_true _ _).mp hshows
  simp only [Bool.and_eq_true] at hshows
  obtain ⟨⟨hbacklinks, hdelete⟩, hadd⟩ := hshows
  obtain ⟨b, hb, hsources⟩ := (Option.any_eq_true _ _).mp hbacklinks
  have hrun := World.session_eq_some.mp hs
  obtain ⟨nodes, _, hreverses, hdeleted, hadded⟩ := run_reverses hrun hw
  obtain ⟨_, b', _, hb', _, hnone, _⟩ := hdeleted 3 _ (eq_ok_of_isSome hdelete)
  obtain ⟨nodes', hshows', hanswered⟩ := hadded 2 _ _ _ (Or.inl rfl) (eq_ok_of_isSome hadd)
  exact ⟨s, w, b, nodes, hrun, hw, hb, eq_of_beq hsources, (hreverses b hb).1,
    ⟨_, b', eq_ok_of_isSome hdelete, hb', hnone 0⟩, _, nodes', eq_ok_of_isSome hadd, hshows', hanswered⟩

end Results

end VectorIndex
