import VectorIndex.Database
import VectorIndex.Proofs.Changes

/-!
# `VectorIndex.Proofs.Refusals` — a refused call leaves no trace

A call fails in one of two ways. It is refused by a check at its front, or a record it has to read on the way
is damaged. Only the second way, an `Error.storage`, can leave a call half done. Nothing is assumed here of
the rows below: any of them may be damaged, and the draft may be anything.

## Contents
- **Failing for the file only.** `StorageOnly` for computations, with the searches on a graph, and
  `Edit.StorageOnly` for edits, with linking, insertion and the repairs of a deletion.
- **Refusals.** `Change.edit_refused`: the draft is as before.
- **Whole runs.** `Writer.runAll`, `Writer.heeded`, and `Writer.runAll_heeded`: a run without its refused
  calls.
-/

namespace VectorIndex

/-! ## Failing for the file only -/

/-- The file failed, or what is stored in it is damaged. -/
def Error.isStorage : Error → Bool
  | .storage _ => true
  | _ => false

/-- The computation has no other way to fail. -/
def StorageOnly {α : Type} (x : Except Error α) : Prop := ∀ e, x = .error e → e.isStorage = true

section Computations

variable {α β : Type}

theorem storageOnly_ok (a : α) : StorageOnly (.ok a : Except Error α) := by
  intro e he
  cases he

theorem storageOnly_corrupted (damage : RecordDamage) :
    StorageOnly (.error (.corrupted damage) : Except Error α) := by
  intro e he
  cases he
  rfl

theorem storageOnly_bind {x : Except Error α} {f : α → Except Error β} (hx : StorageOnly x)
    (hf : ∀ a, StorageOnly (f a)) : StorageOnly (x >>= f) := by
  cases x with
  | error e =>
      intro e' he'
      obtain rfl := Except.error.inj he'
      exact hx _ rfl
  | ok a => exact hf a

theorem storageOnly_mapError (x : Except RecordDamage α) :
    StorageOnly (x.mapError Error.corrupted) := by
  cases x with
  | error damage => exact storageOnly_corrupted damage
  | ok a => exact storageOnly_ok a

theorem storageOnly_foldlM {f : α → β → Except Error α} (hf : ∀ a b, StorageOnly (f a b)) (bs : List β)
    (a : α) : StorageOnly (bs.foldlM f a) := by
  induction bs generalizing a with
  | nil => exact storageOnly_ok a
  | cons b bs ih =>
      rw [List.foldlM_cons]
      exact storageOnly_bind (hf a b) ih

end Computations

/-! ### Graphs -/

/-- A read of the graph fails only for what is stored. -/
def Graph.StorageOnly (g : Graph) : Prop := ∀ id, VectorIndex.StorageOnly (g.node id)

namespace Graph.StorageOnly

variable {g : Graph} (h : g.StorageOnly)
include h

theorem score (query : Embedding) (id : ItemId) : VectorIndex.StorageOnly (g.score query id) := by
  refine storageOnly_bind (h id) fun found => ?_
  cases found <;> exact storageOnly_ok _

theorem scoreAll (query : Embedding) (ids : List ItemId) :
    VectorIndex.StorageOnly (g.scoreAll query ids) := by
  induction ids with
  | nil => exact storageOnly_ok []
  | cons id ids ih =>
      refine storageOnly_bind (h.score query id) fun found => ?_
      cases found with
      | none => exact ih
      | some n => exact storageOnly_bind ih fun _ => storageOnly_ok _

theorem candidates (ns : List Neighbor) : VectorIndex.StorageOnly (g.candidates ns) := by
  induction ns with
  | nil => exact storageOnly_ok []
  | cons n ns ih =>
      refine storageOnly_bind (h n.id) fun found => ?_
      cases found with
      | none => exact ih
      | some node => exact storageOnly_bind ih fun _ => storageOnly_ok _

theorem choose (found existing : List Neighbor) (cap : Nat) :
    VectorIndex.StorageOnly (g.choose found existing cap) :=
  storageOnly_bind (h.candidates found) fun _ =>
    storageOnly_bind (h.candidates existing) fun _ => storageOnly_ok _

/-! A beam search follows links, and each of them is one read. -/

theorem visit {s : BeamSearch} (hs : s.graph = g) (b : Beam) (id : ItemId) :
    VectorIndex.StorageOnly (s.visit b id) := by
  unfold BeamSearch.visit
  split
  · exact storageOnly_ok b
  · refine storageOnly_bind (hs ▸ h.score s.query id) fun found => ?_
    cases found <;> exact storageOnly_ok _

theorem visitAll {s : BeamSearch} (hs : s.graph = g) (b : Beam) (ids : List ItemId) :
    VectorIndex.StorageOnly (s.visitAll b ids) := by
  induction ids generalizing b with
  | nil => exact storageOnly_ok b
  | cons id ids ih => exact storageOnly_bind (h.visit hs b id) ih

theorem advance {s : BeamSearch} (hs : s.graph = g) (b : Beam) :
    VectorIndex.StorageOnly (s.advance b) := by
  fun_induction BeamSearch.advance s b with
  | case1 => exact storageOnly_ok _
  | case2 => exact storageOnly_ok _
  | case3 b c rest hb hmore e he =>
      intro e' he'
      obtain rfl := Except.error.inj he'
      exact h c.id _ (hs ▸ he)
  | case4 b c rest hb hmore hgone ih => exact ih
  | case5 b c rest hb hmore node hnode e he =>
      intro e' he'
      obtain rfl := Except.error.inj he'
      exact h.visitAll hs _ _ _ he
  | case6 b c rest hb hmore node hnode b' hvisit ih => exact ih

theorem beamSearch (query : Embedding) (entries : List Neighbor) (width layer : Nat)
    (admits : ItemId → Bool) : VectorIndex.StorageOnly (g.beamSearch query entries width layer admits) :=
  h.advance rfl _

theorem descend (query : Embedding) (entry : Neighbor) (top bottom : Nat) :
    VectorIndex.StorageOnly (g.descend query entry top bottom) :=
  storageOnly_foldlM (fun nearest layer =>
    storageOnly_bind (h.beamSearch query [nearest] 1 layer admitAll) fun _ => storageOnly_ok _) _ entry

end Graph.StorageOnly

/-! ### Drafts -/

namespace Draft

variable (d : Draft)

theorem storageOnly_node (id : ItemId) : StorageOnly (d.node id) := by
  unfold Draft.node Rows.node
  split
  · exact storageOnly_ok _
  · split
    · exact storageOnly_ok none
    · split
      · exact storageOnly_ok none
      · exact storageOnly_bind (storageOnly_mapError _) fun node => storageOnly_ok (some node)

theorem storageOnly_graph : d.graph.StorageOnly := d.storageOnly_node

theorem storageOnly_extendedLinks (node : Node) (target : ItemId) (layer : Nat) :
    StorageOnly (d.extendedLinks node target layer) := by
  unfold extendedLinks
  dsimp only
  split
  · exact storageOnly_bind (d.storageOnly_graph.scoreAll _ _) fun scored =>
      storageOnly_bind (d.storageOnly_graph.choose scored [] _) fun _ => storageOnly_ok _
  · exact storageOnly_ok _

theorem storageOnly_withLink (source target : ItemId) (layer : Nat) :
    StorageOnly (d.withLink source target layer) := by
  refine storageOnly_bind (d.storageOnly_node source) fun found => ?_
  cases found with
  | none => exact storageOnly_ok d
  | some node =>
      dsimp only
      split
      · exact storageOnly_ok d
      · exact storageOnly_bind (d.storageOnly_extendedLinks node target layer) fun _ => storageOnly_ok _

theorem storageOnly_nearby (id : ItemId) (embedding : Embedding) (layer : Nat) (entries : List Neighbor) :
    StorageOnly (d.nearby id embedding layer entries) :=
  storageOnly_bind (d.storageOnly_graph.beamSearch _ _ _ _ _) fun _ =>
    storageOnly_bind (d.storageOnly_graph.choose _ _ _) fun _ => storageOnly_ok _

theorem storageOnly_addStored (b : Backlinks) (rows : List (ItemId × Bytes)) :
    StorageOnly (addStored b rows) := by
  induction rows generalizing b with
  | nil => exact storageOnly_ok b
  | cons row rows ih => exact storageOnly_bind (storageOnly_mapError _) fun node => ih _

theorem storageOnly_currentBacklinks : StorageOnly d.currentBacklinks := by
  unfold currentBacklinks
  split
  · exact storageOnly_ok _
  · exact storageOnly_addStored _ _

theorem storageOnly_storedLevels (rows : List (ItemId × Bytes)) : StorageOnly (storedLevels rows) := by
  induction rows with
  | nil => exact storageOnly_ok []
  | cons row rows ih =>
      exact storageOnly_bind (storageOnly_mapError _) fun _ => storageOnly_bind ih fun _ => storageOnly_ok _

theorem storageOnly_promoted : StorageOnly d.promoted := by
  refine storageOnly_bind (storageOnly_bind (storageOnly_storedLevels _) fun _ => storageOnly_ok _)
    fun levels => ?_
  split <;> exact storageOnly_ok _

theorem storageOnly_distantSeeds (id : ItemId) (node : Node) (layer : Nat) :
    StorageOnly (d.distantSeeds id node layer) := by
  unfold distantSeeds
  split
  · exact storageOnly_ok []
  · split
    · exact storageOnly_ok []
    · refine storageOnly_bind (d.storageOnly_graph.score _ _) fun found => ?_
      cases found with
      | none => exact storageOnly_ok []
      | some start =>
          exact storageOnly_bind (d.storageOnly_graph.descend _ _ _ _) fun _ => storageOnly_ok _

theorem storageOnly_repairPlan (id gone : ItemId) (removed : Node) (layer : Nat) :
    StorageOnly (d.repairPlan id gone removed layer) := by
  have hg := d.storageOnly_graph
  refine storageOnly_bind (d.storageOnly_node id) fun found => ?_
  cases found with
  | none => exact storageOnly_ok none
  | some node =>
      dsimp only
      split
      · exact storageOnly_ok none
      · refine storageOnly_bind (hg.scoreAll _ _) fun remaining => ?_
        refine storageOnly_bind (hg.scoreAll _ _) fun siblings => ?_
        have hrest : ∀ seeds : List Neighbor, StorageOnly (do
            let found ← d.beamSearch node.embedding seeds layer
            let chosen ← d.choose ((found ++ seeds).filter fun n => n.id != id) remaining layer
            return some (Repair.mk node remaining chosen)) := fun seeds =>
          storageOnly_bind (hg.beamSearch _ _ _ _ _) fun _ =>
            storageOnly_bind (hg.choose _ _ _) fun _ => storageOnly_ok _
        split
        · exact storageOnly_bind (d.storageOnly_distantSeeds id node layer) hrest
        · exact hrest _

end Draft

/-! ### Edits -/

namespace Edit

variable {α β : Type}

/-- On no draft does the edit have another way to fail. -/
def StorageOnly (e : Edit α) : Prop := ∀ d, VectorIndex.StorageOnly (e.on d).1

theorem storageOnly_pure (a : α) : StorageOnly (pure a : Edit α) := fun _ => storageOnly_ok a

theorem storageOnly_get : StorageOnly (get : Edit Draft) := fun d => storageOnly_ok d

theorem storageOnly_modify (f : Draft → Draft) : StorageOnly (modify f : Edit Unit) :=
  fun _ => storageOnly_ok ()

theorem storageOnly_throw (damage : RecordDamage) : StorageOnly (throw (.corrupted damage) : Edit α) :=
  fun _ => storageOnly_corrupted damage

theorem storageOnly_reading {f : Draft → Except Error α} (hf : ∀ d, VectorIndex.StorageOnly (f d)) :
    StorageOnly (reading f) := by
  intro d
  rw [on_reading]
  exact hf d

theorem storageOnly_updating {f : Draft → Except Error Draft} (hf : ∀ d, VectorIndex.StorageOnly (f d)) :
    StorageOnly (updating f) := by
  intro d e he
  rw [on_updating] at he
  cases hfd : f d with
  | error x =>
      rw [hfd] at he
      obtain rfl := Except.error.inj he
      exact hf d _ hfd
  | ok d' =>
      rw [hfd] at he
      cases he

theorem storageOnly_bind {e : Edit α} {f : α → Edit β} (he : e.StorageOnly)
    (hf : ∀ a, (f a).StorageOnly) : (e >>= f).StorageOnly := by
  intro d
  rw [on_bind]
  have hfirst := he d
  split
  · exact hf _ _
  · rename_i x d' hx
    rw [hx] at hfirst
    intro x' hx'
    obtain rfl := Except.error.inj hx'
    exact hfirst _ rfl

theorem storageOnly_forM {f : β → Edit Unit} (hf : ∀ b, (f b).StorageOnly) (bs : List β) :
    StorageOnly (bs.forM f) := by
  induction bs with
  | nil => exact storageOnly_pure ()
  | cons b bs ih => exact storageOnly_bind (hf b) fun _ => ih

theorem storageOnly_connectAll (sources : List ItemId) (target : ItemId) (layer : Nat) :
    (connectAll sources target layer).StorageOnly :=
  storageOnly_forM (fun source => storageOnly_updating fun d => d.storageOnly_withLink source target layer)
    sources

theorem storageOnly_linkLayers (id : ItemId) (embedding : Embedding) (layers : List Nat)
    (entries : List Neighbor) : (linkLayers id embedding layers entries).StorageOnly := by
  induction layers generalizing entries with
  | nil => exact storageOnly_pure ()
  | cons layer layers ih =>
      refine storageOnly_bind ?_ ih
      refine storageOnly_bind (storageOnly_reading fun d => d.storageOnly_nearby id embedding layer entries) ?_
      rintro ⟨nearest, chosen⟩
      exact storageOnly_bind (storageOnly_modify _) fun _ =>
        storageOnly_bind (storageOnly_connectAll _ id layer) fun _ => storageOnly_pure _

/-- An insertion that has begun is stopped by damage only. -/
theorem storageOnly_insert (id : ItemId) (embedding : Embedding) : (insert id embedding).StorageOnly := by
  refine storageOnly_bind storageOnly_get fun _ => storageOnly_bind (storageOnly_modify _) fun _ =>
    storageOnly_bind storageOnly_get fun d => ?_
  split
  · exact storageOnly_modify _
  · refine storageOnly_bind (storageOnly_reading fun d => d.storageOnly_graph.score embedding _) fun found => ?_
    cases found with
    | none => exact storageOnly_throw _
    | some start =>
        refine storageOnly_bind storageOnly_get fun _ =>
          storageOnly_bind (storageOnly_reading fun d => d.storageOnly_graph.descend _ _ _ _) fun _ =>
          storageOnly_bind (storageOnly_linkLayers id embedding _ _) fun _ => ?_
        split
        · exact storageOnly_modify _
        · exact storageOnly_pure ()

theorem storageOnly_repair (id gone : ItemId) (removed : Node) (layer : Nat) :
    (repair id gone removed layer).StorageOnly := by
  refine storageOnly_bind (storageOnly_reading fun d => d.storageOnly_repairPlan id gone removed layer)
    fun plan => ?_
  cases plan with
  | none => exact storageOnly_pure ()
  | some r => exact storageOnly_bind (storageOnly_modify _) fun _ => storageOnly_connectAll r.added id layer

end Edit

/-! ## Refusals -/

section Refusals

variable {d d' : Draft} {x : Error}

namespace Edit

/-- What a deletion does once it knows the node of the item and the backlinks. -/
def removal (id : ItemId) (removed : Node) (backlinks : Backlinks) : Edit Unit := do
  modify fun d => d.remove id removed backlinks
  if (← get).head.size = 0 then modify fun d => d.withEntry none 0
  else
    if (← get).head.entryPoint = some id then updating Draft.promoted
    (List.range (removed.level + 1)).reverse.forM fun layer =>
      repairAll (backlinks.sources layer id) id removed layer

/-- A deletion looks for the node and the backlinks, and changes nothing before it has both. -/
theorem on_delete (d : Draft) (id : ItemId) :
    (delete id).on d = match d.node id with
      | .error e => (.error e, d)
      | .ok none => (.error (.itemNotFound id), d)
      | .ok (some removed) =>
          match d.currentBacklinks with
          | .error e => (.error e, d)
          | .ok b => (removal id removed b).on d := by
  unfold delete
  rw [on_bind, on_reading]
  cases d.node id with
  | error e => rfl
  | ok found =>
      cases found with
      | none => rfl
      | some removed =>
          dsimp only
          rw [on_bind, on_reading]
          cases d.currentBacklinks <;> rfl

theorem storageOnly_removal (id : ItemId) (removed : Node) (b : Backlinks) :
    (removal id removed b).StorageOnly := by
  have hrepairs := storageOnly_forM (fun layer =>
    storageOnly_forM (fun a => storageOnly_repair a id removed layer) (b.sources layer id))
    (List.range (removed.level + 1)).reverse
  refine storageOnly_bind (storageOnly_modify _) fun _ => storageOnly_bind storageOnly_get fun _ => ?_
  split
  · exact storageOnly_modify _
  · refine storageOnly_bind storageOnly_get fun _ => ?_
    split
    · exact storageOnly_bind (storageOnly_updating Draft.storageOnly_promoted) fun _ => hrepairs
    · exact hrepairs

/-- A deletion is refused only at its front, and only if there is no such item. -/
theorem delete_refused {id : ItemId} (h : (delete id).on d = (.error x, d')) (hx : x.isStorage = false) :
    d' = d ∧ d.node id = .ok none := by
  have hnode := d.storageOnly_node id
  have hbacklinks := d.storageOnly_currentBacklinks
  rw [on_delete] at h
  split at h
  · rename_i e he
    obtain rfl := Except.error.inj (Prod.mk.inj h).1
    rw [hnode _ he] at hx
    cases hx
  · rename_i hgone
    exact ⟨(Prod.mk.inj h).2.symm, hgone⟩
  · split at h
    · rename_i e he
      obtain rfl := Except.error.inj (Prod.mk.inj h).1
      rw [hbacklinks _ he] at hx
      cases hx
    · rename_i b _
      rw [storageOnly_removal id _ b d x (congrArg Prod.fst h)] at hx
      cases hx

end Edit

/-- An insertion that was let through is not refused. -/
theorem Edit.insert_not_refused {id : ItemId} {embedding : Embedding}
    (h : (insert id embedding).on d = (.error x, d')) : x.isStorage = true :=
  storageOnly_insert id embedding d x (congrArg Prod.fst h)

/-- A check of the vector changes nothing. -/
theorem Edit.on_check {e : Edit Unit} {embedding : Embedding}
    (h : (do reading fun d => Embedding.check d.dimension embedding; e).on d = (.error x, d')) :
    d' = d ∨ e.on d = (.error x, d') := by
  rw [on_bind, on_reading] at h
  cases hcheck : Embedding.check d.dimension embedding with
  | error y =>
      rw [hcheck] at h
      exact Or.inl (Prod.mk.inj h).2.symm
  | ok u =>
      rw [hcheck] at h
      exact Or.inr h

/-- **A refused call leaves the draft as it was**, whatever the draft is. -/
theorem Change.edit_refused {c : Change} (h : c.edit.on d = (.error x, d')) (hx : x.isStorage = false) :
    d' = d := by
  cases c with
  | add id embedding =>
      rcases Edit.on_check h with hsame | hrest
      · exact hsame
      · rw [Edit.on_bind, Edit.on_get] at hrest
        dsimp only at hrest
        split at hrest
        · exact (Prod.mk.inj hrest).2.symm
        · rw [Edit.insert_not_refused hrest] at hx
          cases hx
  | update id embedding =>
      rcases Edit.on_check h with hsame | hrest
      · exact hsame
      · rw [Edit.on_bind, Edit.on_get] at hrest
        dsimp only at hrest
        split at hrest
        · exact (Prod.mk.inj hrest).2.symm
        · rw [Edit.on_bind] at hrest
          -- a deletion is refused at its own front, and the insertion after it is not refused at all
          cases hdelete : (Edit.delete id).on d with
          | mk outcome d₁ =>
              rw [hdelete] at hrest
              cases outcome with
              | error y =>
                  obtain ⟨hy, rfl⟩ := Prod.mk.inj hrest
                  obtain rfl := Except.error.inj hy
                  exact (Edit.delete_refused hdelete hx).1
              | ok u =>
                  rw [Edit.insert_not_refused hrest] at hx
                  cases hx
  | delete id => exact (Edit.delete_refused h hx).1
  | clear => cases congrArg Prod.fst h

end Refusals

/-! ## Whole runs -/

/-- The call was refused. -/
def isRefusal : Except Error Unit → Bool
  | .ok _ => false
  | .error x => !x.isStorage

namespace Writer

/-- Makes calls one after the other, whatever they answer; returns the answers. -/
def runAll (w : Writer) : List Change → List (Except Error Unit) × Writer
  | [] => ([], w)
  | c :: calls =>
      let (answer, w) := w.run c.edit
      let (answers, w) := w.runAll calls
      (answer :: answers, w)

theorem runAll_append (w : Writer) (calls later : List Change) :
    (w.runAll (calls ++ later)).2 = ((w.runAll calls).2.runAll later).2 := by
  induction calls generalizing w with
  | nil => rfl
  | cons c calls ih => exact ih _

/-- The calls that are not refused when all are made. -/
def heeded (w : Writer) (calls : List Change) : List Change :=
  ((calls.zip (w.runAll calls).1).filter fun (_, answer) => !isRefusal answer).map Prod.fst

variable (w : Writer)

/-- A refused call leaves the writer as it was. -/
theorem run_refused {c : Change} (h : isRefusal (w.run c.edit).1 = true) : (w.run c.edit).2 = w := by
  unfold run at h ⊢
  dsimp only at h ⊢
  cases hrun : c.edit.on w.draft with
  | mk answer d' =>
      rw [hrun] at h
      cases answer with
      | ok u => cases h
      | error x =>
          have hx : x.isStorage = false := Bool.not_eq_eq_eq_not.mp h
          rw [Change.edit_refused hrun hx]

theorem heeded_cons (c : Change) (calls : List Change) :
    w.heeded (c :: calls) =
      if isRefusal (w.run c.edit).1 then (w.run c.edit).2.heeded calls
      else c :: (w.run c.edit).2.heeded calls := by
  unfold heeded
  rw [runAll]
  dsimp only
  rw [List.zip_cons_cons, List.filter_cons]
  cases isRefusal (w.run c.edit).1 <;> rfl

/-- **Refused calls leave no trace.** Made without its refused calls, a run gives the remaining answers, the
    same writer, and with it the same commit. -/
theorem runAll_heeded (calls : List Change) :
    w.runAll (w.heeded calls) =
        ((w.runAll calls).1.filter fun answer => !isRefusal answer, (w.runAll calls).2) ∧
      ∀ (db : Database) (allocated : UInt64),
        db.commit (w.runAll (w.heeded calls)).2 allocated = db.commit (w.runAll calls).2 allocated := by
  have hrun : w.runAll (w.heeded calls) =
      ((w.runAll calls).1.filter fun answer => !isRefusal answer, (w.runAll calls).2) := by
    induction calls generalizing w with
    | nil => rfl
    | cons c calls ih =>
        rw [heeded_cons]
        by_cases hrefused : isRefusal (w.run c.edit).1 = true
        · have hsame := w.run_refused hrefused
          rw [if_pos hrefused, hsame, ih]
          simp only [runAll, List.filter_cons, hrefused, hsame]
          rfl
        · rw [if_neg hrefused]
          simp only [runAll, List.filter_cons, hrefused, ih]
          rfl
  exact ⟨hrun, fun db allocated => by rw [hrun]⟩

end Writer
end VectorIndex
