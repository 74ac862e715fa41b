import VectorIndex.Proofs.Collections
import VectorIndex.Proofs.Publication
import VectorIndex.Proofs.Refusals
import VectorIndex.Proofs.ReverseIndex

/-!
# `VectorIndex.Proofs.Renewal` — a cleared writer is as good as a new one

Clearing keeps the writer and its random state, and drops every item. What a cleared draft still holds of its
past is that it gave up its rows, and the backlinks, which a new draft builds only at its first deletion.
`Draft.bare` is a draft without the two. Every call is blind to them: on two sound drafts that are alike but
for these it answers the same and leaves drafts that are again alike.

## Contents
- **What a call does not see.** `Draft.bare`, and the functions on drafts that commute with it.
- **Edits.** `Edit.Matches`, with a rule for each way of building an edit; `Edit.removal_matches`.
- **Calls.** `Change.edit_alike`, `Writer.Twins.runAll`.
- **The commit.** `Draft.reconnected_bare`, `Writer.Twins.settled`.
- **Runs.** `run_clear_renews`.
-/

namespace VectorIndex

/-! ## What a call does not see -/

namespace Draft

/-- The draft without a trace of rows given up, and without backlinks. -/
def bare (d : Draft) : Draft := { d with discards := false, backlinks := none }

/-- What is read without them is the same on drafts that are alike. -/
theorem eq_of_bare {α : Type} {f : Draft → α} (hf : ∀ d, f d = f d.bare) {d d' : Draft}
    (h : d.bare = d'.bare) : f d = f d' := by
  rw [hf d, hf d', h]

/-- A change that comes out the same without them. -/
def Commutes (f : Draft → Except Error Draft) : Prop := ∀ d, (f d).map bare = f d.bare

theorem withLink_commutes (source target : ItemId) (layer : Nat) :
    Commutes fun d => d.withLink source target layer := by
  intro d
  have hnode : d.bare.node source = d.node source := rfl
  unfold withLink
  dsimp only
  rw [hnode]
  cases d.node source with
  | error e => rfl
  | ok found =>
      cases found with
      | none => rfl
      | some node =>
          have hlinks : d.bare.extendedLinks node target layer = d.extendedLinks node target layer := rfl
          simp only [ok_bind]
          split
          · rfl
          · rw [hlinks]
            cases d.extendedLinks node target layer <;> rfl

theorem promoted_commutes : Commutes promoted := by
  intro d
  have hlevels : d.bare.levels = d.levels := rfl
  unfold promoted
  rw [hlevels]
  cases d.levels with
  | error e => rfl
  | ok levels =>
      simp only [ok_bind]
      split <;> rfl

end Draft

/-! ## Edits -/

/-- The same outcome, and drafts that are alike. -/
def Alike {α : Type} (x y : Except Error α × Draft) : Prop := x.1 = y.1 ∧ x.2.bare = y.2.bare

namespace Edit

variable {α β : Type}

/-- On drafts that are alike the two edits do alike. -/
def Matches (e e' : Edit α) : Prop := ∀ d d' : Draft, d.bare = d'.bare → Alike (e.on d) (e'.on d')

theorem matches_pure (a : α) : Matches (pure a) (pure a) := fun _ _ h => ⟨rfl, h⟩

theorem matches_throw (x : Error) : Matches (throw x : Edit α) (throw x) := fun _ _ h => ⟨rfl, h⟩

/-- What follows a step that did alike does alike. -/
theorem alike_bind {e e' : Edit α} {f f' : α → Edit β} {d d' : Draft} (he : Alike (e.on d) (e'.on d'))
    (hf : ∀ a, Matches (f a) (f' a)) : Alike ((e >>= f).on d) ((e' >>= f').on d') := by
  obtain ⟨houtcome, hrest⟩ := he
  rw [on_bind, on_bind]
  cases hx : e.on d with
  | mk x d₁ =>
      cases hx' : e'.on d' with
      | mk x' d₁' =>
          rw [hx, hx'] at houtcome hrest
          dsimp only at houtcome hrest
          subst houtcome
          cases x with
          | error y => exact ⟨rfl, hrest⟩
          | ok a => exact hf a d₁ d₁' hrest

theorem matches_bind {e e' : Edit α} {f f' : α → Edit β} (he : Matches e e')
    (hf : ∀ a, Matches (f a) (f' a)) : Matches (e >>= f) (e' >>= f') :=
  fun d d' h => alike_bind (he d d' h) hf

/-- What is done with the draft does not depend on what is not seen. -/
theorem matches_get_bind {f : Draft → Edit α} (hbare : ∀ d, f d = f d.bare) (hf : ∀ d, Matches (f d) (f d)) :
    Matches (get >>= f) (get >>= f) := by
  intro d d' h
  rw [on_bind, on_bind, on_get, on_get]
  dsimp only
  rw [Draft.eq_of_bare hbare h]
  exact hf d' d d' h

theorem matches_reading {f : Draft → Except Error α} (hbare : ∀ d, f d = f d.bare) :
    Matches (reading f) (reading f) := by
  intro d d' h
  rw [on_reading, on_reading]
  exact ⟨Draft.eq_of_bare hbare h, h⟩

theorem matches_modify {f f' : Draft → Draft} (hbare : ∀ d d', d.bare = d'.bare → (f d).bare = (f' d').bare) :
    Matches (modify f) (modify f') := fun d d' h => ⟨rfl, hbare d d' h⟩

theorem matches_updating {f : Draft → Except Error Draft} (hf : Draft.Commutes f) :
    Matches (updating f) (updating f) := by
  intro d d' h
  have hsame : (f d).map Draft.bare = (f d').map Draft.bare := by rw [hf d, hf d', h]
  rw [on_updating, on_updating]
  cases hx : f d with
  | error x =>
      cases hx' : f d' with
      | error x' =>
          rw [hx, hx'] at hsame
          obtain rfl := Except.error.inj hsame
          exact ⟨rfl, h⟩
      | ok d₁' =>
          rw [hx, hx'] at hsame
          cases hsame
  | ok d₁ =>
      cases hx' : f d' with
      | error x' =>
          rw [hx, hx'] at hsame
          cases hsame
      | ok d₁' =>
          rw [hx, hx'] at hsame
          exact ⟨rfl, Except.ok.inj hsame⟩

theorem matches_forM {f : β → Edit Unit} (hf : ∀ b, Matches (f b) (f b)) (bs : List β) :
    Matches (bs.forM f) (bs.forM f) := by
  induction bs with
  | nil => exact matches_pure ()
  | cons b bs ih => exact matches_bind (hf b) fun _ => ih

theorem connectAll_matches (sources : List ItemId) (target : ItemId) (layer : Nat) :
    Matches (connectAll sources target layer) (connectAll sources target layer) :=
  matches_forM (fun source => matches_updating (Draft.withLink_commutes source target layer)) sources

/-- A change that touches neither. -/
theorem matches_modify_self {f : Draft → Draft} (hbare : ∀ d, (f d).bare = f d.bare) :
    Matches (modify f) (modify f) :=
  matches_modify fun d d' h => by rw [hbare d, hbare d', h]

theorem relink_bare (id : ItemId) (layer : Nat) (links : List ItemId) (d : Draft) :
    (d.relink id layer links).bare = d.bare.relink id layer links := by
  have htouched : d.bare.touched = d.touched := rfl
  unfold Draft.relink
  rw [htouched]
  cases d.touched[id]? <;> rfl

theorem linkLayers_matches (id : ItemId) (embedding : Embedding) (layers : List Nat)
    (entries : List Neighbor) :
    Matches (linkLayers id embedding layers entries) (linkLayers id embedding layers entries) := by
  induction layers generalizing entries with
  | nil => exact matches_pure ()
  | cons layer layers ih =>
      refine matches_bind (matches_bind (matches_reading fun _ => rfl) ?_) ih
      rintro ⟨nearest, chosen⟩
      exact matches_bind (matches_modify_self (relink_bare id layer _)) fun _ =>
        matches_bind (connectAll_matches _ id layer) fun _ => matches_pure _

/-- **An insertion does not see them.** -/
theorem insert_matches (id : ItemId) (embedding : Embedding) :
    Matches (insert id embedding) (insert id embedding) := by
  refine matches_get_bind (fun _ => rfl) fun d => matches_bind (matches_modify_self fun _ => rfl) fun _ =>
    matches_get_bind (fun _ => rfl) fun d₁ => ?_
  split
  · exact matches_modify_self fun _ => rfl
  · refine matches_bind (matches_reading fun _ => rfl) fun found => ?_
    cases found with
    | none => exact matches_throw _
    | some start =>
        refine matches_get_bind (fun _ => rfl) fun d₂ => matches_bind (matches_reading fun _ => rfl) fun _ =>
          matches_bind (linkLayers_matches id embedding _ _) fun _ => ?_
        split
        · exact matches_modify_self fun _ => rfl
        · exact matches_pure ()

theorem repair_matches (id gone : ItemId) (removed : Node) (layer : Nat) :
    Matches (repair id gone removed layer) (repair id gone removed layer) := by
  refine matches_bind (matches_reading fun _ => rfl) fun plan => ?_
  cases plan with
  | none => exact matches_pure ()
  | some r =>
      exact matches_bind (matches_modify_self fun _ => rfl) fun _ => connectAll_matches r.added id layer

/-- Backlinks that answer the same lead to the same repairs. -/
theorem removal_matches {b b' : Backlinks} (h : b.sources = b'.sources) (id : ItemId) (removed : Node) :
    Matches (removal id removed b) (removal id removed b') := by
  have hrepairs := matches_forM (fun layer =>
    matches_forM (fun a => repair_matches a id removed layer) (b'.sources layer id))
    (List.range (removed.level + 1)).reverse
  have hremove : ∀ d d' : Draft, d.bare = d'.bare →
      (d.remove id removed b).bare = (d'.remove id removed b').bare := by
    intro d d' hbare
    have hremoved := congrArg (fun u : Draft => (u.remove id removed b).bare) hbare
    exact hremoved
  unfold removal
  rw [h]
  refine matches_bind (matches_modify hremove) fun _ => matches_get_bind (fun _ => rfl) fun d => ?_
  split
  · exact matches_modify_self fun _ => rfl
  · refine matches_get_bind (fun _ => rfl) fun d₁ => ?_
    split
    · exact matches_bind (matches_updating Draft.promoted_commutes) fun _ => hrepairs
    · exact hrepairs

end Edit

/-! ## Calls -/

section Calls

variable {d d' : Draft} {nodes : IdMap Node}

/-- The drafts show the same nodes, whatever their backlinks are. -/
theorem Draft.Sound.sources_eq (h : d.Sound nodes) (h' : d'.Sound nodes) :
    ∃ b b', d.currentBacklinks = .ok b ∧ d'.currentBacklinks = .ok b' ∧ b.sources = b'.sources := by
  obtain ⟨b, hb, hmirrors⟩ := Draft.currentBacklinks_eq h.holds.shows h.resolves h.holds.mirrors
  obtain ⟨b', hb', hmirrors'⟩ := Draft.currentBacklinks_eq h'.holds.shows h'.resolves h'.holds.mirrors
  exact ⟨b, b', hb, hb', (hmirrors.reverses h.resolves).sources_eq (hmirrors'.reverses h'.resolves)⟩

/-- **A deletion does not tell kept backlinks from a scan.** -/
theorem Edit.delete_alike (h : d.Sound nodes) (h' : d'.Sound nodes) (hbare : d.bare = d'.bare) (id : ItemId) :
    Alike ((delete id).on d) ((delete id).on d') := by
  obtain ⟨b, b', hb, hb', hsources⟩ := h.sources_eq h'
  have hnode : d.node id = .ok nodes[id]? := h.holds.shows id
  have hnode' : d'.node id = .ok nodes[id]? := h'.holds.shows id
  rw [on_delete, on_delete, hnode, hnode', hb, hb']
  cases nodes[id]? with
  | none => exact ⟨rfl, hbare⟩
  | some removed => exact removal_matches hsources id removed d d' hbare

/-- **On sound drafts that are alike a call does alike.** -/
theorem Change.edit_alike (h : d.Sound nodes) (h' : d'.Sound nodes) (hbare : d.bare = d'.bare) (c : Change) :
    Alike (c.edit.on d) (c.edit.on d') := by
  cases c with
  | add id embedding =>
      refine (Edit.matches_bind (Edit.matches_reading fun _ => rfl) fun _ =>
        Edit.matches_get_bind (fun _ => rfl) fun d₁ => ?_) d d' hbare
      split
      · exact Edit.matches_throw _
      · exact Edit.insert_matches id embedding
  | update id embedding =>
      have hdimension : d'.dimension = d.dimension := Draft.eq_of_bare (fun _ => rfl) hbare.symm
      have hcontains : d'.contains id = d.contains id :=
        Draft.eq_of_bare (f := fun u => u.contains id) (fun _ => rfl) hbare.symm
      unfold Change.edit Edit.updateItem
      rw [Edit.on_bind, Edit.on_bind, Edit.on_reading, Edit.on_reading, hdimension]
      cases Embedding.check d.dimension embedding with
      | error x => exact ⟨rfl, hbare⟩
      | ok u =>
          dsimp only
          rw [Edit.on_bind, Edit.on_bind, Edit.on_get, Edit.on_get]
          dsimp only
          rw [hcontains]
          split
          · exact ⟨rfl, hbare⟩
          · exact Edit.alike_bind (Edit.delete_alike h h' hbare id) fun _ => Edit.insert_matches id embedding
  | delete id => exact Edit.delete_alike h h' hbare id
  | clear =>
      have hcleared := congrArg (fun u : Draft => u.cleared.bare) hbare
      exact ⟨rfl, hcleared⟩

/-- Two writers with sound drafts that are alike and count on no rows. -/
structure Writer.Twins (w w' : Writer) : Prop where
  sound : ∃ nodes, w.draft.Sound nodes ∧ w'.draft.Sound nodes
  bare : w.draft.bare = w'.draft.bare
  stored : w.draft.stored = ∅

variable {w w' : Writer}

/-- A call on a sound draft leaves a sound one. -/
theorem Draft.Sound.after_change (h : d.Sound nodes) (c : Change) :
    ∃ nodes', (c.edit.on d).2.Sound nodes' := by
  rcases c.edit_on h with ⟨x, _, hrun⟩ | ⟨items, d₁, _, hrun, nodes₁, h₁, _⟩
  · rw [hrun]
    exact ⟨nodes, h⟩
  · rw [hrun]
    exact ⟨nodes₁, h₁⟩

theorem Writer.Twins.run (h : w.Twins w') (c : Change) :
    (w.run c.edit).1 = (w'.run c.edit).1 ∧ (w.run c.edit).2.Twins (w'.run c.edit).2 := by
  obtain ⟨nodes, hw, hw'⟩ := h.sound
  obtain ⟨hanswer, hrest⟩ := Change.edit_alike hw hw' h.bare c
  obtain ⟨nodes₁, h₁⟩ := hw.after_change c
  obtain ⟨nodes₁', h₁'⟩ := hw'.after_change c
  -- drafts that are alike show the same nodes
  have hshows : (c.edit.on w.draft).2.graph.Shows nodes₁' := by
    have hgraph : (c.edit.on w.draft).2.graph = (c.edit.on w'.draft).2.graph :=
      Draft.eq_of_bare (fun _ => rfl) hrest
    exact hgraph ▸ h₁'.holds.shows
  obtain rfl := Graph.Shows.unique h₁.holds.shows hshows
  refine ⟨hanswer, ⟨nodes₁, h₁, h₁'⟩, hrest, ?_⟩
  rcases (Change.run_continues hw c).stored with hsame | hgone
  · exact hsame.1.trans h.stored
  · exact hgone.1

/-- **Twins answer alike**, whatever they are asked. -/
theorem Writer.Twins.runAll (h : w.Twins w') (calls : List Change) :
    (w.runAll calls).1 = (w'.runAll calls).1 ∧ (w.runAll calls).2.Twins (w'.runAll calls).2 := by
  induction calls generalizing w w' with
  | nil => exact ⟨rfl, h⟩
  | cons c calls ih =>
      obtain ⟨hanswer, hrest⟩ := h.run c
      obtain ⟨hanswers, htwins⟩ := ih hrest
      refine ⟨?_, htwins⟩
      simp only [Writer.runAll, hanswer, hanswers]

theorem Writer.Tracks.runAll {db : Database} (h : w.Tracks db) (calls : List Change) :
    (w.runAll calls).2.Tracks db ∧ (w.runAll calls).2.index = w.index := by
  induction calls generalizing w with
  | nil => exact ⟨h, rfl⟩
  | cons c calls ih =>
      obtain ⟨htracks, hindex⟩ := h.run c
      obtain ⟨hall, hindex'⟩ := ih htracks
      exact ⟨hall, hindex'.trans hindex⟩

end Calls

/-! ## The commit -/

namespace Draft

theorem enterAll_bare (d : Draft) (source : ItemId) (w : Walk) (stack targets : List ItemId) :
    d.bare.enterAll source w stack targets = d.enterAll source w stack targets := by
  have hcontains : d.bare.contains = d.contains := rfl
  induction targets generalizing w stack with
  | nil => rfl
  | cons target targets ih =>
      unfold enterAll
      rw [hcontains, ih, ih]

theorem follow_bare (d : Draft) (w : Walk) (stack : List ItemId) : d.bare.follow w stack = d.follow w stack := by
  fun_induction follow d w stack with
  | case1 w => rw [follow]
  | case2 w id rest e he =>
      have he' : d.bare.node id = .error e := he
      rw [follow, he']
  | case3 w id rest hgone ih =>
      have hgone' : d.bare.node id = .ok none := hgone
      rw [follow, hgone']
      exact ih
  | case4 w id rest node hnode next ih =>
      have hnode' : d.bare.node id = .ok (some node) := hnode
      rw [follow, hnode']
      dsimp only
      rw [enterAll_bare]
      exact ih

theorem walkFrom_bare (d : Draft) (w : Walk) (start : ItemId) : d.bare.walkFrom w start = d.walkFrom w start :=
  d.follow_bare _ _

/-- The draft of an outcome, without what is not seen. -/
def bareHost (found : ItemId × Draft) : ItemId × Draft := (found.1, found.2.bare)

theorem findHost_bare (d : Draft) (w : Walk) (id : ItemId) (hosts : List ItemId) :
    d.bare.findHost w id hosts = (d.findHost w id hosts).map bareHost := by
  have hnode : d.bare.node = d.node := rfl
  have hlinks : d.bare.hostLinks = d.hostLinks := rfl
  induction hosts with
  | nil => rfl
  | cons host hosts ih =>
      unfold findHost
      rw [hnode, hlinks, ih]
      split
      · rfl
      · cases d.node host with
        | error e => rfl
        | ok found =>
            cases found with
            | none => rfl
            | some node =>
                simp only [ok_bind]
                cases d.hostLinks w host node id with
                | error e => rfl
                | ok links => cases links <;> rfl

theorem attach_bare (d : Draft) (w : Walk) (id : ItemId) :
    d.bare.attach w id = (d.attach w id).map bareHost := by
  have hnode : d.bare.node = d.node := rfl
  have hnear : d.bare.nearEntry = d.nearEntry := rfl
  unfold attach
  rw [hnode, hnear]
  cases d.node id with
  | error e => rfl
  | ok found =>
      cases found with
      | none => rfl
      | some orphan =>
          simp only [ok_bind]
          cases d.nearEntry orphan.embedding with
          | error e => rfl
          | ok near => exact findHost_bare d w id _

theorem attachAll_bare (d : Draft) (w : Walk) (ids : List ItemId) :
    attachAll d.bare w ids = (attachAll d w ids).map bare := by
  induction ids generalizing d w with
  | nil => rfl
  | cons id ids ih =>
      unfold attachAll
      rw [attach_bare, ih]
      split
      · rfl
      · cases d.attach w id with
        | error e => rfl
        | ok found =>
            obtain ⟨host, d₁⟩ := found
            simp only [Except.map, ok_bind, bareHost, walkFrom_bare]
            cases d₁.walkFrom { w with enteredFrom := w.enteredFrom.insert id host } id with
            | error e => rfl
            | ok w' => exact ih d₁ w'

/-- **Linking items back does not see them either.** -/
theorem reconnected_commutes : Commutes reconnected := by
  intro d
  have hentry : d.bare.head.entryPoint = d.head.entryPoint := rfl
  have hlive : d.bare.liveIds = d.liveIds := rfl
  unfold reconnected
  rw [hentry, hlive]
  cases d.head.entryPoint with
  | none => rfl
  | some entry =>
      dsimp only
      rw [walkFrom_bare]
      cases d.walkFrom Walk.empty entry with
      | error e => rfl
      | ok w =>
          simp only [ok_bind]
          split
          · rfl
          · exact (attachAll_bare d w _).symm

end Draft

section Commit

variable {d d' : Draft} {nodes : IdMap Node} {w w' : Writer} {db db' : Database}

/-- Without rows below, the live nodes are the touched ones. -/
theorem Draft.touched_of_stored (hstored : d.stored = ∅) (hshows : d.graph.Shows nodes) : d.touched = nodes := by
  apply Std.ExtTreeMap.ext_getElem?
  intro id
  have hid : d.node id = .ok nodes[id]? := hshows id
  unfold Draft.node Rows.node at hid
  rw [hstored] at hid
  cases htouched : d.touched[id]? with
  | some node =>
      rw [htouched] at hid
      exact Except.ok.inj hid
  | none =>
      rw [htouched] at hid
      simp only [Std.ExtTreeMap.getElem?_empty, ite_self] at hid
      exact Except.ok.inj hid

/-- What is written then is the live nodes, and nothing else. -/
theorem Draft.writeTo_of_stored (hstored : d.stored = ∅) (hshows : d.graph.Shows nodes) (id : ItemId) :
    (d.writeTo d.stored)[id]? = nodes[id]?.map Node.encode := by
  have htouched := Draft.touched_of_stored hstored hshows
  unfold Draft.writeTo
  dsimp only
  rw [hstored, htouched]
  cases hnode : nodes[id]? with
  | some node =>
      rw [getElem?_foldl_insert_of_mem (Std.ExtTreeMap.mem_toList_iff_getElem?_eq_some.mpr hnode)]
      · rfl
      · intro node' hnode'
        rw [Std.ExtTreeMap.mem_toList_iff_getElem?_eq_some, hnode] at hnode'
        exact (Option.some.inj hnode').symm
  | none =>
      rw [getElem?_foldl_insert_of_not_mem, getElem?_foldl_erase]
      · simp
      · intro node hnode'
        rw [Std.ExtTreeMap.mem_toList_iff_getElem?_eq_some, hnode] at hnode'
        cases hnode'

/-- Without rows below there is nothing to link back until something was touched. -/
theorem Writer.settled_of_stored (hstored : w.draft.stored = ∅) (hsound : w.draft.Sound nodes) :
    w.settled = w.draft.reconnected := by
  unfold Writer.settled
  by_cases hchanged : w.isChanged = true
  · rw [if_pos hchanged]
  · rw [if_neg hchanged]
    have htouched : w.draft.touched = ∅ := by
      by_contra hne
      exact hchanged (isChanged_iff.mpr (Or.inr (Or.inl hne)))
    have hempty : nodes = ∅ := (Draft.touched_of_stored hstored hsound.holds.shows).symm.trans htouched
    unfold Draft.reconnected
    rw [hsound.headed.entry_none.mpr hempty]
    rfl

/-- Twins settle on drafts that are alike. -/
theorem Writer.Twins.settled (h : w.Twins w') : w.settled.map Draft.bare = w'.settled.map Draft.bare := by
  obtain ⟨nodes, hw, hw'⟩ := h.sound
  have hstored' : w'.draft.stored = ∅ := (Draft.eq_of_bare (fun _ => rfl) h.bare.symm).trans h.stored
  rw [settled_of_stored h.stored hw, settled_of_stored hstored' hw', Draft.reconnected_commutes,
    Draft.reconnected_commutes, h.bare]

/-- A commit that goes through leaves what its writer settled on. -/
theorem Writer.Settles.of_commit {nodes' : IdMap Node} (h : w.Settles (db.release w.index) nodes d nodes')
    {allocated : UInt64} (hcommit : db.commit w allocated = (.ok (), db')) :
    db' = (db.release w.index).withIndex w.index d.head (d.writeTo d.stored) := by
  rcases h.commit_cases allocated with ⟨e, he, _⟩ | hwritten
  · cases congrArg Prod.fst (he.symm.trans hcommit)
  · exact (Prod.mk.inj (hcommit.symm.trans hwritten)).2

/-- The index has this row and this table. -/
def Database.Leaves (db : Database) (index : IndexId) (row : Bytes) (rows : Rows) : Prop :=
  db.metadata[index]? = some row ∧ db.nodes[index]? = some (.rows rows)

/-- **Twins commit alike.** What they leave is the live items, and nothing else. -/
theorem Writer.Twins.commit (h : w.Twins w') {before before' : Database} (ht : w.Tracks before)
    (ht' : w'.Tracks before') {allocated allocated' : UInt64} (hcommit : before.commit w allocated = (.ok (), db))
    (hcommit' : before'.commit w' allocated' = (.ok (), db')) :
    ∃ (row : Bytes) (rows : Rows) (written : IdMap Node), db.Leaves w.index row rows ∧
      db'.Leaves w'.index row rows ∧ (∀ id : ItemId, rows[id]? = written[id]?.map Node.encode) ∧
      ∀ id, id ∈ written ↔ id ∈ w.draft.liveIds := by
  have hfree : w.Tracks (before.release w.index) := ht.of_rows rfl
  have hfree' : w'.Tracks (before'.release w'.index) := ht'.of_rows rfl
  obtain ⟨nodes, d, written, hsettles⟩ := hfree.settles
  obtain ⟨_, d', _, hsettles'⟩ := hfree'.settles
  have hbare : d.bare = d'.bare := by
    have hsettled := h.settled
    rw [hsettles.runs, hsettles'.runs] at hsettled
    exact Except.ok.inj hsettled
  have hhead : d'.head = d.head := Draft.eq_of_bare (fun _ => rfl) hbare.symm
  have hrows : d'.writeTo d'.stored = d.writeTo d.stored :=
    Draft.eq_of_bare (f := fun u => u.writeTo u.stored) (fun _ => rfl) hbare.symm
  have hstored : d.stored = ∅ := (congrArg Draft.stored hsettles.rebased.rest : _).trans h.stored
  have hleaves : ∀ (base : Database) (index : IndexId),
      (base.withIndex index d.head (d.writeTo d.stored)).Leaves index d.head.encode (d.writeTo d.stored) :=
    fun base index => ⟨Std.ExtTreeMap.getElem?_insert_self, Std.ExtTreeMap.getElem?_insert_self⟩
  refine ⟨d.head.encode, d.writeTo d.stored, written, ?_, ?_,
    Draft.writeTo_of_stored hstored hsettles.sound.holds.shows, fun id => ?_⟩
  · rw [hsettles.of_commit hcommit]
    exact hleaves _ _
  · rw [hsettles'.of_commit hcommit', hhead, hrows]
    exact hleaves _ _
  · rw [Draft.mem_liveIds hsettles.before.holds.shows, mem_iff_of_frames hsettles.rebased.frames]

end Commit

/-! ## Runs -/

/-- The writer, in another random state. -/
def Writer.withGenerator (w : Writer) (generator : Random.Generator) : Writer :=
  { w with draft := { w.draft with generator := generator } }

/-- The writer of a new index. -/
def Writer.fresh (distances : Metric → Ranking) (index : IndexId) (dimension : Nat) (metric : Metric)
    (params : Params) (generator : Random.Generator) : Writer :=
  Writer.rankedBy ⟨index, true, Draft.ofRows (Metadata.fresh dimension metric params) ∅ generator⟩ distances

section Starts

variable {distances : Metric → Ranking} {s : Session} {index : IndexId} {dimension : Nat} {metric : Metric}
  {params : Params} {w : Writer} {db : Database}

/-- A writer on an index that is not committed starts without rows. -/
theorem Session.Sound.opened_new (h : s.Sound) {options : WriterOptions} {entropy : Random.Generator}
    (hopen : s.db.openWriter index dimension metric options entropy = .answered (.ok (w, db)))
    (hnew : w.isNew = true) (distances : Metric → Ranking) :
    ∃ (params : Params) (generator : Random.Generator), params.Valid ∧
      w.rankedBy distances = Writer.fresh distances index dimension metric params generator ∧
      w.draft.head = Metadata.fresh dimension metric params ∧ db.rows index = .ok ∅ := by
  obtain ⟨_, rfl, head, isNew, rows, generator, hhead, hrows, rfl⟩ := Database.openWriter_eq_ok hopen
  rcases Database.writerHead_eq_ok hhead with ⟨hrow, _, hvalid, rfl⟩ | ⟨row, _, hold, _⟩
  · obtain rfl : isNew = true := hnew
    have hnone : s.db.rows index = .ok ∅ :=
      Database.rows_eq_ok.mpr (Or.inr ⟨h.tables.absent index hrow, rfl⟩)
    obtain rfl := Except.ok.inj (hrows.symm.trans hnone)
    exact ⟨_, generator, hvalid, rfl, rfl, hnone⟩
  · rw [hold] at hnew
    cases hnew

/-- **A cleared writer and a new one start as twins.** -/
theorem Writer.twins_cleared {nodes : IdMap Node} (h : w.draft.Sound nodes)
    (hrank : w.draft.rank = distances w.draft.head.metric) (hvalid : params.Valid)
    (hdimension : UInt32.ofNat dimension = w.draft.head.dimension) (hmetric : metric = w.draft.head.metric)
    (hparams : params = w.draft.head.params) :
    (w.run Change.clear.edit).2.Twins
      (Writer.fresh distances index dimension metric params w.draft.generator) := by
  obtain ⟨nodes', hcleared, _⟩ := h.cleared
  have hempty : w.draft.cleared.graph.Shows ∅ := by
    intro id
    rw [Std.ExtTreeMap.getElem?_empty]
    exact Draft.node_cleared w.draft id
  obtain rfl := Graph.Shows.unique hcleared.holds.shows hempty
  have hhead : w.draft.cleared.head = Metadata.fresh dimension metric params := by
    unfold Metadata.fresh
    rw [hdimension, hmetric, hparams]
    rfl
  have hranked : w.draft.cleared.rank = distances metric := hrank.trans (congrArg distances hmetric.symm)
  refine ⟨⟨∅, hcleared, (committed_fresh hvalid dimension metric).sound _ w.draft.generator⟩, ?_, rfl⟩
  show (⟨w.draft.cleared.rank, w.draft.cleared.head, ∅, false, ∅, ∅, none, w.draft.generator⟩ : Draft) = _
  rw [hhead, hranked]
  rfl

end Starts

section Results

variable {distances : Metric → Ranking} {steps steps' : List Step} {s s' : Session}

/-- **A cleared writer is as good as a new one.** Take a writer after any run, and a writer just opened on an
    index that is not committed, with the same dimension, metric, parameters and random state. Then any calls,
    made of the first after it was cleared, get the answers that the second gives, and lead to the same nodes,
    the same description and the same random state. If both commits go through, they leave the same row and the
    same node table, in which there are the live items and nothing else. -/
theorem run_clear_renews (hrun : World.run distances steps = .opened s) {handle : Handle} {w : Writer}
    (hw : s.writers[handle]? = some w) (hrun' : World.run distances steps' = .opened s') {index : IndexId}
    {dimension : Nat} {metric : Metric} {options : WriterOptions} {entropy : Random.Generator} {opened : Writer}
    {db' : Database}
    (hopen : s'.db.openWriter index dimension metric options entropy = .answered (.ok (opened, db')))
    (hnew : opened.isNew = true) (hdimension : opened.draft.head.dimension = w.draft.head.dimension)
    (hmetric : opened.draft.head.metric = w.draft.head.metric)
    (hparams : opened.draft.head.params = w.draft.head.params) (calls : List Change)
    {answers answers' : List (Except Error Unit)} {cleared fresh : Writer}
    (hcleared : (w.run Change.clear.edit).2.runAll calls = (answers, cleared))
    (hfresh : ((opened.rankedBy distances).withGenerator w.draft.generator).runAll calls =
      (answers', fresh)) :
    (w.run Change.clear.edit).1 = .ok () ∧ answers = answers' ∧
      (∃ nodes : IdMap Node, (∀ id, cleared.draft.node id = .ok nodes[id]?) ∧
        ∀ id, fresh.draft.node id = .ok nodes[id]?) ∧
      cleared.draft.liveIds = fresh.draft.liveIds ∧ cleared.draft.head = fresh.draft.head ∧
      cleared.draft.generator = fresh.draft.generator ∧
      ∀ allocated allocated' committed committed', s.db.commit cleared allocated = (.ok (), committed) →
        db'.commit fresh allocated' = (.ok (), committed') →
        ∃ (row : Bytes) (rows : Rows) (written : IdMap Node), committed.Leaves w.index row rows ∧
          committed'.Leaves index row rows ∧ (∀ id : ItemId, rows[id]? = written[id]?.map Node.encode) ∧
          ∀ id, id ∈ written ↔ id ∈ cleared.draft.liveIds := by
  have htracks := (Session.Sound.of_run hrun).writers handle w hw
  obtain ⟨nodes, hsound, _⟩ := htracks.sound
  obtain ⟨params, generator, hvalid, hopened, hhead, hrows⟩ :=
    (Session.Sound.of_run hrun').opened_new hopen hnew distances
  rw [hhead] at hdimension hmetric hparams
  have hstart : (w.run Change.clear.edit).2.Twins
      (Writer.fresh distances index dimension metric params w.draft.generator) :=
    Writer.twins_cleared hsound (World.ranked_run distances steps s hrun handle w hw) hvalid hdimension hmetric
      hparams
  -- the new writer's own random state is the one thing of it that is replaced
  have hfresh' : (Writer.fresh distances index dimension metric params w.draft.generator).runAll calls =
      (answers', fresh) := by
    rw [hopened] at hfresh
    exact hfresh
  obtain ⟨hanswers, hend⟩ := hstart.runAll calls
  obtain ⟨htracks₁, hindex₁⟩ := (htracks.run Change.clear).1.runAll calls
  obtain ⟨htracks₂, hindex₂⟩ := Writer.Tracks.runAll (w := Writer.fresh distances index dimension metric params
    w.draft.generator) ((committed_fresh hvalid dimension metric).tracks hrows true w.draft.generator distances)
    calls
  rw [hcleared] at hanswers hend htracks₁ hindex₁
  rw [hfresh'] at hanswers hend htracks₂ hindex₂
  obtain ⟨shown, hshows, hshows'⟩ := hend.sound
  refine ⟨rfl, hanswers, ⟨shown, hshows.holds.shows, hshows'.holds.shows⟩,
    Draft.eq_of_bare (f := Draft.liveIds) (fun _ => rfl) hend.bare,
    Draft.eq_of_bare (f := Draft.head) (fun _ => rfl) hend.bare,
    Draft.eq_of_bare (f := Draft.generator) (fun _ => rfl) hend.bare, fun _ _ _ _ hc hc' => ?_⟩
  have hleaves := hend.commit htracks₁ htracks₂ hc hc'
  rw [hindex₁, hindex₂] at hleaves
  exact hleaves

/-- Some calls, of which one is refused. -/
def someCalls : List Change :=
  [.add 5 [⟨0x3f800000⟩], .add 6 [⟨0x40000000⟩], .add 5 [⟨0x40400000⟩], .delete 5, .update 6 [⟨0x3f000000⟩],
    .add 7 [⟨0x40800000⟩]]

/-- A new index beside that of the run. -/
def besideThreeItems (s : Session) : Request (Writer × Database) :=
  s.db.openWriter 8 1 .euclidean .default (.ofSeed 0)

theorem besideThreeItems_shows : ((World.run Metric.rank threeItems).session.any fun s =>
    s.writers[(1 : Handle)]?.any fun w =>
      match besideThreeItems s with
      | .answered (.ok (opened, db)) =>
          let cleared := (w.run Change.clear.edit).2.runAll someCalls
          let fresh := ((opened.rankedBy Metric.rank).withGenerator w.draft.generator).runAll someCalls
          opened.isNew && opened.draft.head.dimension == w.draft.head.dimension &&
            opened.draft.head.metric == w.draft.head.metric && opened.draft.head.params == w.draft.head.params &&
            cleared.1.map (fun answer => answer.toOption.isSome) == [true, true, false, true, true, true] &&
            (s.db.commit cleared.2 8192).1.toOption.isSome && (db.commit fresh.2 8192).1.toOption.isSome
      | _ => false) = true := by
  decide +kernel

theorem run_clear_renews_threeItems : ∃ (s : Session) (w opened cleared fresh : Writer)
    (db committed committed' : Database) (row : Bytes) (rows : Rows) (answers : List (Except Error Unit)),
    World.run Metric.rank threeItems = .opened s ∧ s.writers[(1 : Handle)]? = some w ∧
      s.db.openWriter 8 1 .euclidean .default (.ofSeed 0) = .answered (.ok (opened, db)) ∧
      (w.run Change.clear.edit).2.runAll someCalls = (answers, cleared) ∧
      ((opened.rankedBy Metric.rank).withGenerator w.draft.generator).runAll someCalls = (answers, fresh) ∧
      cleared.draft.head = fresh.draft.head ∧ s.db.commit cleared 8192 = (.ok (), committed) ∧
      db.commit fresh 8192 = (.ok (), committed') ∧ committed.Leaves w.index row rows ∧
      committed'.Leaves 8 row rows := by
  obtain ⟨s, hs, hshows⟩ := (Option.any_eq_true _ _).mp besideThreeItems_shows
  obtain ⟨w, hw, hshows⟩ := (Option.any_eq_true _ _).mp hshows
  have hrun := World.session_eq_some.mp hs
  split at hshows
  · rename_i opened db hopen
    obtain ⟨⟨answers, cleared⟩, hcleared⟩ : ∃ x, (w.run Change.clear.edit).2.runAll someCalls = x := ⟨_, rfl⟩
    obtain ⟨⟨answers', fresh⟩, hfresh⟩ :
        ∃ x, ((opened.rankedBy Metric.rank).withGenerator w.draft.generator).runAll someCalls = x := ⟨_, rfl⟩
    simp only [hcleared, hfresh, Bool.and_eq_true, beq_iff_eq] at hshows
    obtain ⟨⟨⟨⟨⟨⟨hnew, hdimension⟩, hmetric⟩, hparams⟩, _⟩, hcommit⟩, hcommit'⟩ := hshows
    obtain ⟨_, rfl, _, _, hhead, _, hcommits⟩ := run_clear_renews hrun hw hrun hopen hnew hdimension hmetric
      hparams someCalls hcleared hfresh
    obtain ⟨row, rows, _, hleaves, hleaves', _⟩ :=
      hcommits 8192 8192 _ _ (eq_ok_of_isSome hcommit) (eq_ok_of_isSome hcommit')
    exact ⟨s, w, opened, cleared, fresh, db, _, _, row, rows, answers, hrun, hw, hopen, hcleared, hfresh, hhead,
      eq_ok_of_isSome hcommit, eq_ok_of_isSome hcommit', hleaves, hleaves'⟩
  · cases hshows

end Results

end VectorIndex
