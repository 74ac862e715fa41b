import VectorIndex.Draft.Items
import VectorIndex.Proofs.LiveScan
import VectorIndex.Proofs.WellFormed

/-!
# `VectorIndex.Proofs.Insertion` — an insertion keeps the index well-formed

A new node is placed without links, then linked layer by layer from above. `Draft.inserted` is the result with
the links left out: the node placed, and the entry point moved if the node is the first or the highest. The
rest of an insertion is a rewrite of link lists.

## Contents
- **Placing.** `Draft.inserted`, `Draft.Sound.headed_inserted`, `Draft.Holds.place`.
- **Linking.** `Arrives`, what happens on one layer; `Edit.linkLayer_yields`, `Edit.linkLayers_yields`.
- **The insertion.** `Joins`, `Draft.Sound.joins`, `Edit.insert_yields`.
-/

namespace VectorIndex

/-! ## Placing -/

/-- The draft after an insertion, but for the links. -/
def Draft.inserted (d : Draft) (id : ItemId) (embedding : Embedding) : Draft :=
  let placed := d.place id (Node.isolated embedding d.drawnLevel)
  if d.head.entryPoint = none ∨ d.head.topLevel.toNat < d.drawnLevel then
    placed.withEntry (some id) d.drawnLevel
  else placed

section Placing

variable {d : Draft} {nodes : IdMap Node} {id : ItemId} {embedding : Embedding} {level : Nat}

theorem size_add_one {size : UInt64} (hsize : size.toNat = nodes.size) (hnew : id ∉ nodes) (node : Node) :
    (size + 1).toNat = (nodes.insert id node).size := by
  have hle : nodes.size ≤ UInt32.size := size_le_of_ids
  have hcontains : ¬nodes.contains id = true := fun h => hnew (Std.ExtTreeMap.mem_iff_contains.mpr h)
  rw [Std.ExtTreeMap.size_insert, if_neg hcontains, UInt64.toNat_add, hsize]
  simp only [UInt32.size] at hle
  simp only [UInt64.reduceToNat]
  omega

theorem params_inserted (d : Draft) (id : ItemId) (embedding : Embedding) :
    (d.inserted id embedding).head.params = d.head.params := by
  unfold Draft.inserted
  dsimp only
  split <;> rfl

namespace Draft

theorem inserted_of_moved (h : d.head.entryPoint = none ∨ d.head.topLevel.toNat < d.drawnLevel) :
    d.inserted id embedding =
      (d.place id (Node.isolated embedding d.drawnLevel)).withEntry (some id) d.drawnLevel := by
  unfold inserted
  rw [if_pos h]

theorem inserted_of_kept {entry : ItemId} (hentry : d.head.entryPoint = some entry)
    (htop : ¬d.head.topLevel.toNat < d.drawnLevel) :
    d.inserted id embedding = d.place id (Node.isolated embedding d.drawnLevel) := by
  unfold inserted
  rw [if_neg]
  rintro (hnone | hlt)
  · rw [hentry] at hnone
    cases hnone
  · exact htop hlt

/-- The entry point is moved exactly when it has to be. -/
theorem Sound.headed_inserted (h : d.Sound nodes) (hnew : id ∉ nodes) (embedding : Embedding) :
    Headed (d.inserted id embedding).head (nodes.insert id (Node.isolated embedding d.drawnLevel)) := by
  have hsize := size_add_one h.headed.size hnew (Node.isolated embedding d.drawnLevel)
  have hlevel : (Node.isolated embedding d.drawnLevel).level = d.drawnLevel := Node.level_isolated _ _
  have htop := hlevel.trans (h.toNat_level h.drawnLevel_lt).symm
  cases hentry : d.head.entryPoint with
  | none =>
      -- the first node
      rw [inserted_of_moved (Or.inl hentry)]
      refine headed_of_entry hsize rfl Std.ExtTreeMap.getElem?_insert_self htop ?_
      intro other node hnode
      rw [getElem?_insert_id, h.headed.entry_none.mp hentry] at hnode
      split at hnode
      · exact Nat.le_of_eq (congrArg Node.level (Option.some.inj hnode).symm)
      · simp at hnode
  | some entry =>
      by_cases hhigh : d.head.topLevel.toNat < d.drawnLevel
      · -- a node above all others
        rw [inserted_of_moved (Or.inr hhigh)]
        refine headed_of_entry hsize rfl Std.ExtTreeMap.getElem?_insert_self htop ?_
        intro other node hnode
        rw [getElem?_insert_id] at hnode
        split at hnode
        · exact Nat.le_of_eq (congrArg Node.level (Option.some.inj hnode).symm)
        · have hle := h.headed.level_le other node hnode
          omega
      · -- a node that leaves the entry point where it is
        obtain ⟨head, hhead, hheadLevel⟩ := h.headed.entry_some entry hentry
        have hne : id ≠ entry := by
          rintro rfl
          exact hnew (mem_iff_exists.mpr ⟨head, hhead⟩)
        have hkept : (nodes.insert id (Node.isolated embedding d.drawnLevel))[entry]? = some head := by
          rw [getElem?_insert_id, if_neg hne, hhead]
        rw [inserted_of_kept hentry hhigh]
        refine headed_of_entry hsize hentry hkept hheadLevel fun other node hnode => ?_
        rw [getElem?_insert_id] at hnode
        split at hnode
        · rw [← Option.some.inj hnode]
          omega
        · have hle := h.headed.level_le other node hnode
          omega

end Draft

/-- A node without links comes in. -/
theorem Draft.Holds.place (h : d.Holds tight nodes) (hnew : id ∉ nodes)
    (hlength : embedding.length = d.head.dimension.toNat) (hfinite : ∀ x ∈ embedding, x.isFinite)
    (hlevel : level < d.head.params.layerLimit.toNat) :
    (d.place id (Node.isolated embedding level)).Holds tight
      (nodes.insert id (Node.isolated embedding level)) := by
  have hnobody : ∀ (l : Nat) (s : ItemId) (n : Node), nodes[s]? = some n → id ∉ n.linksAt l := by
    intro l s n hn hlink
    exact (h.wired.links s n l hn).resolves id hlink hnew
  refine ⟨?_, ⟨?_, ?_⟩, ?_⟩
  · intro other
    have hother := h.shows other
    show (d.place id (Node.isolated embedding level)).node other = _
    rw [Draft.node_place, getElem?_insert_id]
    by_cases heq : id = other
    · rw [if_pos heq, if_pos heq]
    · rw [if_neg heq, if_neg heq]
      exact hother
  · intro other node hnode
    rw [getElem?_insert_id] at hnode
    by_cases heq : id = other
    · rw [if_pos heq, Option.some.injEq] at hnode
      subst hnode
      refine ⟨hlength, hfinite, ?_, ?_⟩ <;> simp only [Node.isolated, List.length_replicate]
      · omega
      · exact hlevel
    · rw [if_neg heq] at hnode
      exact h.wired.fits other node hnode
  · intro other node layer hnode
    rw [getElem?_insert_id] at hnode
    by_cases heq : id = other
    · rw [if_pos heq, Option.some.injEq] at hnode
      subst hnode
      rw [Node.linksAt_isolated]
      exact linkList_nil
    · rw [if_neg heq] at hnode
      have hold := h.wired.links other node layer hnode
      have hlive : ∀ t ∈ node.linksAt layer, OnLayer nodes layer t := fun t ht => h.wired.target hnode ht
      refine { hold with onLayer := fun t ht _ => ?_, resolves := fun t ht hgone => ?_ }
      · exact (hlive t ht).insert_new hnew
      · exact hgone (mem_insert_key.mpr (Or.inr (hlive t ht).mem))
  · intro b hb
    exact (h.mirrors b hb).place hnew (Node.linksAt_isolated embedding level) hnobody

end Placing

/-! ## Linking -/

section Linking

variable {d d' : Draft} {nodes nodes' : IdMap Node} {loose : Nat → ItemId → Prop} {id : ItemId}
  {embedding : Embedding} {layer : Nat} {entries : List Neighbor}

/-- The list of a node that the draft touched is replaced. -/
theorem Draft.Holds.relink (h : d.Holds loose nodes) (hid : OnLayer nodes layer id) (htouched : id ∈ d.touched)
    {links : List ItemId} (hlinks : LinkList d.head.params nodes (loose layer id) layer id links)
    (hlive : ∀ t ∈ links, t ∈ nodes) :
    ∃ nodes', (d.relink id layer links).Holds loose nodes' ∧
      Relinked d nodes (d.relink id layer links) nodes' ∧
      ∀ l a, linksOf nodes' l a = if l = layer ∧ a = id then links else linksOf nodes l a := by
  obtain ⟨node, hmine⟩ := mem_iff_exists.mp htouched
  have hnode := touched_node h.shows hmine
  obtain ⟨node', hnode', hle⟩ := hid
  obtain rfl := Option.some.inj (hnode.symm.trans hnode')
  have hlt := ((h.wired.fits id node hnode).lt_length_iff).mpr hle
  obtain ⟨hholds, hrel⟩ :=
    h.setLinks loose hnode hle hlinks (fun t ht => Or.inl (hlive t ht)) fun l a hl => Or.inl hl
  unfold Draft.relink
  rw [hmine]
  exact ⟨_, hholds, hrel, linksOf_setLinks hnode hlt links⟩

/-- There are entries, and `id` is none of them. -/
def Apart (id : ItemId) (entries : List Neighbor) : Prop := entries ≠ [] ∧ ∀ n ∈ entries, n.id ≠ id

/-- On the layer `id` got links, those that it links to got one back, and no other list changed. -/
structure Arrives (cap layer : Nat) (id : ItemId) (nodes nodes' : IdMap Node) : Prop where
  linked : linksOf nodes' layer id ≠ []
  targets : ∀ t ∈ linksOf nodes' layer id, Extends cap nodes id (linksOf nodes layer t) (linksOf nodes' layer t)
  others : ∀ a, a ≠ id → a ∉ linksOf nodes' layer id → linksOf nodes' layer a = linksOf nodes layer a

/-- A search from entries other than `id` does not come to `id` where nobody links to it. -/
theorem Apart.found {rank : Ranking} {query : Embedding} {width : Nat} {found : List Neighbor}
    (h : Apart id entries) (hres : BeamResult rank nodes query entries width layer admitAll found)
    (hwidth : 0 < width) (hfresh : ∀ s, id ∉ linksOf nodes layer s) : Apart id found := by
  refine ⟨hres.ne_nil hwidth h.1, ?_⟩
  intro n hn
  rcases hres.linked hn with ⟨e, he, heq⟩ | ⟨source, hlink⟩
  · rw [← heq]
    exact h.2 e he
  · rintro rfl
    exact hfresh source (follows_iff.mp hlink).1

/-- Other layers may change in the meantime. -/
theorem Arrives.congr {cap : Nat} {nodes₁ nodes₂ : IdMap Node} (h : Arrives cap layer id nodes₁ nodes₂)
    (hframes : frames nodes₁ = frames nodes) (hbefore : ∀ a, linksOf nodes₁ layer a = linksOf nodes layer a)
    (hafter : ∀ a, linksOf nodes' layer a = linksOf nodes₂ layer a) : Arrives cap layer id nodes nodes' where
  linked := by
    rw [hafter]
    exact h.linked
  targets t ht := by
    rw [hafter] at ht ⊢
    rw [← hbefore]
    exact (h.targets t ht).of_mem_iff fun _ => (mem_iff_of_frames hframes).symm
  others a hne ha := by
    rw [hafter] at ha ⊢
    rw [← hbefore]
    exact h.others a hne ha

/-- `id` gets its list first, then those in it get their link back. -/
theorem Gained.arrives {cap : Nat} {nodes₁ : IdMap Node} {links : List ItemId}
    (h : Gained cap layer id links nodes₁ nodes') (hframes : frames nodes₁ = frames nodes)
    (hlists : ∀ l a, linksOf nodes₁ l a = if l = layer ∧ a = id then links else linksOf nodes l a)
    (hlinks : ∀ t ∈ links, OnLayer nodes layer t ∧ t ≠ id) (hne : links ≠ []) :
    Arrives cap layer id nodes nodes' ∧ ∀ l a, l ≠ layer → linksOf nodes' l a = linksOf nodes l a := by
  have hbefore : ∀ l a, ¬(l = layer ∧ a = id) → linksOf nodes₁ l a = linksOf nodes l a := by
    intro l a hother
    rw [hlists, if_neg hother]
  have hown : linksOf nodes' layer id = links := by
    rw [h.others layer id fun hc => (hlinks id hc.2.1).2 rfl, hlists, if_pos ⟨rfl, rfl⟩]
  refine ⟨⟨?_, ?_, ?_⟩, ?_⟩
  · rw [hown]
    exact hne
  · intro t ht
    rw [hown] at ht
    rw [← hbefore layer t fun hc => (hlinks t ht).2 hc.2]
    exact (h.lists t ht ((hlinks t ht).1.of_frames hframes)).of_mem_iff fun _ => (mem_iff_of_frames hframes).symm
  · intro a hother ha
    rw [hown] at ha
    rw [h.others layer a fun hc => ha hc.2.1, hbefore layer a fun hc => hother hc.2]
  · intro l a hlayer
    rw [h.others l a fun hc => hlayer hc.1, hbefore l a fun hc => hlayer hc.1]

/-- What is near on a layer: items other than the node, and a choice of them. Something is near, and something of it
    is chosen. -/
theorem Draft.Holds.nearby (h : d.Holds loose nodes) (hvalid : d.head.params.Valid)
    (hfresh : ∀ s, id ∉ linksOf nodes layer s) (hentries : Entries d.rank nodes embedding layer entries)
    (hapart : Apart id entries) :
    ∃ nearest chosen, d.nearby id embedding layer entries = .ok (nearest, chosen) ∧
      Entries d.rank nodes embedding layer nearest ∧ Apart id nearest ∧
      (∀ P, LinkList d.head.params nodes P layer id (chosen.map Neighbor.id)) ∧
      (∀ t ∈ chosen.map Neighbor.id, OnLayer nodes layer t ∧ t ≠ id) ∧ chosen.map Neighbor.id ≠ [] := by
  obtain ⟨found, hfound, hon, hres⟩ := h.beamSearch hentries
  obtain ⟨hsome, hother⟩ := hapart.found hres hvalid.buildBeam_pos hfresh
  have hall : found.filter (fun n => n.id != id) = found := by
    rw [List.filter_eq_self]
    intro n hn
    simpa using hother n hn
  have hgiven : ∀ n ∈ found ++ [], OnLayer nodes layer n.id ∧ n.id ≠ id := by
    intro n hn
    rw [List.append_nil] at hn
    exact ⟨(hon n hn).2, hother n hn⟩
  obtain ⟨chosen, hchosen, hlist, hmem, hfull⟩ := h.choose (P := False) hgiven
  refine ⟨found, chosen, ?_, hon, ⟨hsome, hother⟩, fun P => hlist.imp False.elim, ?_, ?_⟩
  · unfold Draft.nearby
    rw [hfound, ok_bind]
    dsimp only
    rw [hall, hchosen]
    rfl
  · intro t ht
    obtain ⟨n, hn, rfl⟩ := List.mem_map.mp ht
    exact hgiven n (hmem n hn)
  · obtain ⟨n, hn⟩ := List.exists_mem_of_ne_nil found hsome
    rcases hfull n (List.mem_append_left _ hn) with hin | hlength
    · exact List.ne_nil_of_mem hin
    · exact List.ne_nil_of_length_pos (hlength ▸ hvalid.cap_pos layer)

namespace Edit

/-- **One layer**: the node links to a choice of the items near it, and they link back. -/
theorem linkLayer_yields (h : d.Holds loose nodes) (hvalid : d.head.params.Valid) (hid : OnLayer nodes layer id)
    (htouched : id ∈ d.touched) (hfresh : ∀ s, id ∉ linksOf nodes layer s)
    (hentries : Entries d.rank nodes embedding layer entries) (hapart : Apart id entries) :
    (linkLayer id embedding layer entries).Yields d fun next d' =>
      ∃ nodes', d'.Holds loose nodes' ∧ Relinked d nodes d' nodes' ∧
        Entries d'.rank nodes' embedding layer next ∧ Apart id next ∧
        Arrives (d.cap layer) layer id nodes nodes' ∧
        ∀ l a, l ≠ layer → linksOf nodes' l a = linksOf nodes l a := by
  obtain ⟨nearest, chosen, hnear, hnearest, hnearestApart, hlist, hlinks, hne⟩ :=
    h.nearby hvalid hfresh hentries hapart
  obtain ⟨nodes₁, h₁, hrel₁, hlists₁⟩ :=
    h.relink hid htouched (hlist (loose layer id)) fun t ht => (hlinks t ht).1.mem
  unfold linkLayer
  refine yields_bind (yields_reading hnear (yields_bind (yields_modify (yields_bind ?_))))
  refine (connectAll_yields h₁ (hid.of_frames hrel₁.frames) fun s hs => (hlinks s hs).2).imp ?_
  rintro _ d₂ ⟨nodes₂, h₂, hrel₂, hgained⟩
  have hrel := hrel₁.trans hrel₂
  have hcap : (d.relink id layer (chosen.map Neighbor.id)).cap layer = d.cap layer :=
    congrArg (fun head => head.params.cap layer) hrel₁.head
  obtain ⟨harrives, helsewhere⟩ := (hcap ▸ hgained).arrives hrel₁.frames hlists₁ hlinks hne
  refine yields_pure ⟨nodes₂, h₂, hrel, ?_, ?_, harrives, helsewhere⟩
  · split
    · exact hentries.relinked hrel
    · exact hnearest.relinked hrel
  · split
    · exact hapart
    · exact hnearestApart

/-- **The layers from above to below**: what is found on one layer is on all those below it, and what is linked on
    one layer stays as it is below. -/
theorem linkLayers_yields {layers : List Nat} (hlayers : layers.Pairwise (· > ·)) (h : d.Holds loose nodes)
    (hvalid : d.head.params.Valid) (hid : ∀ l ∈ layers, OnLayer nodes l id) (htouched : id ∈ d.touched)
    (hfresh : ∀ l ∈ layers, ∀ s, id ∉ linksOf nodes l s)
    (hentries : ∀ l ∈ layers, Entries d.rank nodes embedding l entries) (hapart : Apart id entries) :
    (linkLayers id embedding layers entries).Yields d fun _ d' =>
      ∃ nodes', d'.Holds loose nodes' ∧ Relinked d nodes d' nodes' ∧
        (∀ l ∈ layers, Arrives (d.cap l) l id nodes nodes') ∧
        ∀ l a, l ∉ layers → linksOf nodes' l a = linksOf nodes l a := by
  induction layers generalizing d nodes entries with
  | nil => exact yields_pure ⟨nodes, h, .refl, fun l hl => absurd hl List.not_mem_nil, fun _ _ _ => rfl⟩
  | cons layer layers ih =>
      obtain ⟨hgt, hrest⟩ := List.pairwise_cons.mp hlayers
      have hnot : layer ∉ layers := fun hl => absurd (hgt layer hl) (Nat.lt_irrefl layer)
      unfold linkLayers
      refine yields_bind ((linkLayer_yields h hvalid (hid layer List.mem_cons_self) htouched
        (hfresh layer List.mem_cons_self) (hentries layer List.mem_cons_self) hapart).imp ?_)
      rintro next d₁ ⟨nodes₁, h₁, hrel₁, hnext, hapart₁, harrives₁, helsewhere₁⟩
      have hbefore : ∀ l ∈ layers, ∀ a, linksOf nodes₁ l a = linksOf nodes l a :=
        fun l hl a => helsewhere₁ l a fun heq => hnot (heq ▸ hl)
      refine (ih hrest h₁ ?_ ?_ (hrel₁.touched id htouched) ?_ ?_ hapart₁).imp ?_
      · rw [hrel₁.head]
        exact hvalid
      · exact fun l hl => (hid l (List.mem_cons_of_mem layer hl)).of_frames hrel₁.frames
      · intro l hl s
        rw [hbefore l hl]
        exact hfresh l (List.mem_cons_of_mem layer hl) s
      · exact fun l hl n hn => ⟨(hnext n hn).1, (hnext n hn).2.mono (Nat.le_of_lt (hgt l hl))⟩
      · rintro _ d₂ ⟨nodes₂, h₂, hrel₂, harrives₂, helsewhere₂⟩
        refine ⟨nodes₂, h₂, hrel₁.trans hrel₂, ?_, ?_⟩
        · intro l hl
          rcases List.mem_cons.mp hl with rfl | hl
          · exact harrives₁.congr rfl (fun _ => rfl) fun a => helsewhere₂ l a hnot
          · have hcap : d₁.cap l = d.cap l := congrArg (fun head => head.params.cap l) hrel₁.head
            exact hcap ▸ (harrives₂ l hl).congr hrel₁.frames (hbefore l hl) fun _ => rfl
        · intro l a hl
          rw [List.mem_cons, not_or] at hl
          rw [helsewhere₂ l a hl.2, helsewhere₁ l a hl.1]

end Edit

theorem pairwise_layersFrom (top : Nat) : (layersFrom top).Pairwise (· > ·) := by
  unfold layersFrom
  rw [List.pairwise_reverse]
  exact List.pairwise_lt_range

theorem mem_layersFrom {top l : Nat} : l ∈ layersFrom top ↔ l ≤ top := by
  unfold layersFrom
  rw [List.mem_reverse, List.mem_range]
  omega

end Linking

/-! ## The insertion -/

section Insert

variable {d : Draft} {nodes : IdMap Node} {id : ItemId} {embedding : Embedding}

theorem Relinked.withEntry {d' : Draft} {nodes' : IdMap Node} (h : Relinked d nodes d' nodes')
    (entryPoint : Option ItemId) (level : Nat) :
    Relinked (d.withEntry entryPoint level) nodes (d'.withEntry entryPoint level) nodes' := by
  refine ⟨?_, h.touched, h.frames⟩
  exact (congrArg (fun u : Draft => u.withEntry entryPoint level) h.rest : _)

/-- A draft that holds the new nodes and differs from `inserted` in links only is sound. -/
theorem Draft.Sound.of_inserted (h : d.Sound nodes) (hnew : id ∉ nodes) {d' : Draft} {nodes' : IdMap Node}
    (hholds : d'.Holds tight nodes')
    (hrel : Relinked (d.inserted id embedding) (nodes.insert id (Node.isolated embedding d.drawnLevel)) d'
      nodes') : d'.Sound nodes' := by
  refine sound_of_relinked (h.headed_inserted hnew embedding) ?_ hholds hrel
  rw [params_inserted]
  exact h.valid

/-- What an insertion does to the lists: `id` arrives on the layers up to `top`, and no list above changes. -/
structure Joins (params : Params) (top : Nat) (id : ItemId) (nodes nodes' : IdMap Node) : Prop where
  arrives : ∀ l ≤ top, Arrives (params.cap l) l id nodes nodes'
  above : ∀ l a, top < l → linksOf nodes' l a = linksOf nodes l a

/-- The descent to a placed node ends at another one, and from there the placed node joins the layers it shares with
    the others. -/
theorem Draft.Sound.joins (h : d.Sound nodes) (hnew : id ∉ nodes)
    (hplaced : (d.place id (Node.isolated embedding d.drawnLevel)).Holds tight
      (nodes.insert id (Node.isolated embedding d.drawnLevel)))
    {entry : ItemId} (hentry : d.head.entryPoint = some entry) :
    ∃ start nearest,
      (d.place id (Node.isolated embedding d.drawnLevel)).graph.score embedding entry = .ok (some start) ∧
      (d.place id (Node.isolated embedding d.drawnLevel)).graph.descend embedding start d.head.topLevel.toNat
        d.drawnLevel = .ok nearest ∧
      (Edit.linkLayers id embedding (layersFrom (min d.drawnLevel d.head.topLevel.toNat)) [nearest]).Yields
        (d.place id (Node.isolated embedding d.drawnLevel)) fun _ d' =>
          ∃ nodes', d'.Holds tight nodes' ∧
            Relinked (d.place id (Node.isolated embedding d.drawnLevel))
              (nodes.insert id (Node.isolated embedding d.drawnLevel)) d' nodes' ∧
            Joins d.head.params (min d.drawnLevel d.head.topLevel.toNat) id
              (nodes.insert id (Node.isolated embedding d.drawnLevel)) nodes' := by
  have hfresh : ∀ l s, id ∉ linksOf (nodes.insert id (Node.isolated embedding d.drawnLevel)) l s := by
    intro l s
    rw [linksOf_place hnew]
    exact h.holds.wired.not_mem_linksOf hnew l s
  have hon := h.headed.onLayer hentry
  obtain ⟨start, nearest, hscore, hdescend, hentries, hcame⟩ :=
    hplaced.approach (hon.insert_new hnew) embedding d.drawnLevel
  -- nobody links to the new node, so the descent does not come to it
  have hapart : Apart id [nearest] := by
    refine ⟨List.cons_ne_nil _ _, ?_⟩
    rintro n hn rfl
    obtain rfl := List.mem_singleton.mp hn
    rcases hcame with rfl | ⟨l, source, _, _, hlink⟩
    · exact hnew hon.mem
    · exact hfresh l source (follows_iff.mp hlink).1
  refine ⟨start, nearest, hscore, hdescend, (Edit.linkLayers_yields (pairwise_layersFrom _) hplaced h.valid ?_
    (mem_insert_key.mpr (Or.inl rfl)) (fun l _ => hfresh l) ?_ hapart).imp ?_⟩
  · intro l hl
    have hle : l ≤ min d.drawnLevel d.head.topLevel.toNat := mem_layersFrom.mp hl
    refine ⟨Node.isolated embedding d.drawnLevel, by rw [getElem?_insert_id, if_pos rfl], ?_⟩
    rw [Node.level_isolated]
    omega
  · exact fun l hl => hentries l (mem_layersFrom.mp hl)
  · rintro _ d' ⟨nodes', h', hrel, harrives, helsewhere⟩
    exact ⟨nodes', h', hrel, fun l hl => harrives l (mem_layersFrom.mpr hl),
      fun l a hl => helsewhere l a fun hc => absurd (mem_layersFrom.mp hc) (Nat.not_le_of_lt hl)⟩

/-- **An insertion goes through and keeps the index well-formed.** But for links, the result is `Draft.inserted`, and
    among nodes the new one is linked on all layers that it shares with them. -/
theorem Edit.insert_yields (h : d.Sound nodes) (hnew : id ∉ nodes)
    (hlength : embedding.length = d.head.dimension.toNat) (hfinite : ∀ x ∈ embedding, x.isFinite) :
    (Edit.insert id embedding).Yields d fun _ d' =>
      ∃ nodes', d'.Sound nodes' ∧
        Relinked (d.inserted id embedding) (nodes.insert id (Node.isolated embedding d.drawnLevel)) d'
          nodes' ∧
        (d.head.entryPoint ≠ none → Joins d.head.params (min d.drawnLevel d.head.topLevel.toNat) id
          (nodes.insert id (Node.isolated embedding d.drawnLevel)) nodes') := by
  have hplaced := h.holds.place hnew hlength hfinite h.drawnLevel_lt
  unfold Edit.insert
  refine Edit.yields_bind (Edit.yields_get (Edit.yields_bind (Edit.yields_modify
    (Edit.yields_bind (Edit.yields_get ?_)))))
  have hsame : (d.place id (Node.isolated embedding d.drawnLevel)).head.entryPoint = d.head.entryPoint := rfl
  dsimp only
  rw [hsame]
  cases hentry : d.head.entryPoint with
  | none =>
      have hrel : Relinked (d.inserted id embedding) (nodes.insert id (Node.isolated embedding d.drawnLevel))
          ((d.place id (Node.isolated embedding d.drawnLevel)).withEntry (some id) d.drawnLevel)
          (nodes.insert id (Node.isolated embedding d.drawnLevel)) := by
        rw [Draft.inserted_of_moved (Or.inl hentry)]
        exact .refl
      exact Edit.yields_modify ⟨_, h.of_inserted hnew (hplaced.withEntry _ _) hrel, hrel, absurd rfl⟩
  | some entry =>
      obtain ⟨start, nearest, hscore, hdescend, hlinked⟩ := h.joins hnew hplaced hentry
      refine Edit.yields_bind (Edit.yields_reading hscore ?_)
      refine Edit.yields_bind (Edit.yields_get (Edit.yields_bind (Edit.yields_reading hdescend ?_)))
      refine Edit.yields_bind (hlinked.imp ?_)
      rintro _ d₂ ⟨nodes₂, h₂, hrel₂, hjoins⟩
      show Edit.Yields (if d.head.topLevel.toNat < d.drawnLevel then _ else _) _ _
      by_cases hhigh : d.head.topLevel.toNat < d.drawnLevel
      · have hrel : Relinked (d.inserted id embedding)
            (nodes.insert id (Node.isolated embedding d.drawnLevel)) (d₂.withEntry (some id) d.drawnLevel)
            nodes₂ := by
          rw [Draft.inserted_of_moved (Or.inr hhigh)]
          exact hrel₂.withEntry (some id) d.drawnLevel
        rw [if_pos hhigh]
        exact Edit.yields_modify
          ⟨nodes₂, h.of_inserted hnew (h₂.withEntry _ _) hrel, hrel, fun _ => hjoins⟩
      · have hrel : Relinked (d.inserted id embedding)
            (nodes.insert id (Node.isolated embedding d.drawnLevel)) d₂ nodes₂ := by
          rw [Draft.inserted_of_kept hentry hhigh]
          exact hrel₂
        rw [if_neg hhigh]
        exact Edit.yields_pure ⟨nodes₂, h.of_inserted hnew h₂ hrel, hrel, fun _ => hjoins⟩

end Insert

end VectorIndex
