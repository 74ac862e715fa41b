import VectorIndex.Draft.Items
import VectorIndex.Proofs.Deletion
import VectorIndex.Proofs.Insertion

/-!
# `VectorIndex.Proofs.Changes` — the calls that change an index

To its user an index is a map from ids to vectors. `Change.apply` says what a call does to that map, and when
it is rejected; it knows nothing of graphs. `Change.edit_on` is the result: on a sound draft a call answers as
the map does, a rejected call leaves no trace, and an accepted one leaves a sound draft of the new map.

## Contents
- **The map.** `vectors`, and `Change.apply`.
- **What stays.** `Draft.Continues`: a call changes neither the description's fixed part nor the rows below.
- **The calls.** `Change.edit`, `Change.edit_on`.
-/

namespace VectorIndex

/-! ## The map -/

/-- The vectors of the nodes. -/
def vectors (nodes : IdMap Node) : IdMap Embedding := nodes.map fun _ node => node.embedding

section Vectors

variable {nodes nodes' : IdMap Node} {id : ItemId}

theorem getElem?_vectors : (vectors nodes)[id]? = nodes[id]?.map Node.embedding := by
  simp [vectors]

theorem mem_vectors : id ∈ vectors nodes ↔ id ∈ nodes := by
  rw [Std.ExtTreeMap.mem_iff_isSome_getElem?, getElem?_vectors, Option.isSome_map,
    ← Std.ExtTreeMap.mem_iff_isSome_getElem?]

@[simp] theorem vectors_empty : vectors ∅ = ∅ := by
  apply Std.ExtTreeMap.ext_getElem?
  intro other
  simp [getElem?_vectors]

theorem vectors_insert (node : Node) :
    vectors (nodes.insert id node) = (vectors nodes).insert id node.embedding := by
  apply Std.ExtTreeMap.ext_getElem?
  intro other
  rw [getElem?_vectors, getElem?_insert_id, getElem?_insert_id, getElem?_vectors]
  split <;> rfl

theorem vectors_erase : vectors (nodes.erase id) = (vectors nodes).erase id := by
  apply Std.ExtTreeMap.ext_getElem?
  intro other
  rw [getElem?_vectors, getElem?_erase_id, getElem?_erase_id, getElem?_vectors]
  split <;> rfl

/-- Linking moves no vector. -/
theorem vectors_of_frames (h : frames nodes' = frames nodes) : vectors nodes' = vectors nodes := by
  apply Std.ExtTreeMap.ext_getElem?
  intro other
  have hother := congrArg (·[other]?.map Prod.fst) h
  simp only [getElem?_frames, Option.map_map] at hother
  rw [getElem?_vectors, getElem?_vectors]
  exact hother

end Vectors

/-- A call that changes an index. -/
inductive Change where
  | add (id : ItemId) (embedding : Embedding)
  | update (id : ItemId) (embedding : Embedding)
  | delete (id : ItemId)
  | clear

/-- The call as an edit of a draft. -/
def Change.edit : Change → Edit Unit
  | .add id embedding => Edit.addItem id embedding
  | .update id embedding => Edit.updateItem id embedding
  | .delete id => Edit.deleteItem id
  | .clear => Edit.clear

/-- What a call does to a map of vectors of one dimension. -/
def Change.apply (dimension : Nat) (items : IdMap Embedding) : Change → Except Error (IdMap Embedding)
  | .add id embedding => do
      Embedding.check dimension embedding
      if items.contains id then throw (.duplicateId id) else return items.insert id embedding
  | .update id embedding => do
      Embedding.check dimension embedding
      if items.contains id then return items.insert id embedding else throw (.itemNotFound id)
  | .delete id => if items.contains id then return items.erase id else throw (.itemNotFound id)
  | .clear => return ∅

/-! ## What stays -/

/-- `d'` is a later draft of the index of `d`: the same ranking, rows and description, but for the size and
    the entry point. Giving up all rows is the one thing that happens to them. -/
structure Draft.Continues (d d' : Draft) : Prop where
  rank : d'.rank = d.rank
  dimension : d'.head.dimension = d.head.dimension
  metric : d'.head.metric = d.head.metric
  params : d'.head.params = d.head.params
  stored : (d'.stored = d.stored ∧ d'.discards = d.discards) ∨ (d'.stored = ∅ ∧ d'.discards = true)

/-- There is something to write. -/
def Draft.Altered (d : Draft) : Prop :=
  d.discards = true ∨ d.touched ≠ ∅ ∨ d.deleted ≠ ∅

section Continues

variable {d d' d'' : Draft} {nodes nodes' : IdMap Node} {id : ItemId} {embedding : Embedding}

theorem Draft.Continues.refl : d.Continues d := ⟨rfl, rfl, rfl, rfl, Or.inl ⟨rfl, rfl⟩⟩

theorem Draft.Continues.trans (h : d.Continues d') (h' : d'.Continues d'') : d.Continues d'' := by
  refine ⟨h'.rank.trans h.rank, h'.dimension.trans h.dimension, h'.metric.trans h.metric,
    h'.params.trans h.params, ?_⟩
  rcases h'.stored with ⟨hstored, hdiscards⟩ | hgone
  · rcases h.stored with hkept | hgone
    · exact Or.inl ⟨hstored.trans hkept.1, hdiscards.trans hkept.2⟩
    · exact Or.inr ⟨hstored.trans hgone.1, hdiscards.trans hgone.2⟩
  · exact Or.inr hgone

theorem Relinked.continues (h : Relinked d nodes d' nodes') : d.Continues d' where
  rank := h.rank
  dimension := congrArg Metadata.dimension h.head
  metric := congrArg Metadata.metric h.head
  params := congrArg Metadata.params h.head
  stored := Or.inl ⟨(congrArg Draft.stored h.rest : _), (congrArg Draft.discards h.rest : _)⟩

theorem Draft.continues_inserted : d.Continues (d.inserted id embedding) := by
  unfold Draft.inserted
  dsimp only
  split <;> exact ⟨rfl, rfl, rfl, rfl, Or.inl ⟨rfl, rfl⟩⟩

theorem Draft.mem_touched_inserted (embedding : Embedding) : id ∈ (d.inserted id embedding).touched := by
  unfold Draft.inserted
  dsimp only
  split <;> exact mem_insert_key.mpr (Or.inl rfl)

theorem Draft.Removes.continues (h : d.Removes id d') : d.Continues d' := by
  obtain ⟨_, _, _, _, rfl⟩ := h
  exact ⟨rfl, rfl, rfl, rfl, Or.inl ⟨rfl, rfl⟩⟩

theorem Draft.Removes.mem_deleted (h : d.Removes id d') : id ∈ d'.deleted := by
  obtain ⟨_, _, _, _, rfl⟩ := h
  exact mem_insert_id.mpr (Or.inl rfl)

end Continues

/-! ## The calls -/

/-- A call went through: the draft is sound, shows the new map, and has something to write. -/
def Draft.Advances (d : Draft) (items : IdMap Embedding) (d' : Draft) : Prop :=
  ∃ nodes', d'.Sound nodes' ∧ vectors nodes' = items ∧ d.Continues d' ∧ d'.Altered

section Calls

variable {d : Draft} {nodes : IdMap Node} {id : ItemId} {embedding : Embedding}

theorem Edit.insert_advances (h : d.Sound nodes) (hnew : id ∉ nodes)
    (hcheck : Embedding.check d.dimension embedding = .ok ()) :
    (Edit.insert id embedding).Yields d fun _ d' => d.Advances ((vectors nodes).insert id embedding) d' := by
  obtain ⟨hlength, hfinite⟩ := Embedding.check_eq_ok.mp hcheck
  refine (Edit.insert_yields h hnew hlength hfinite).imp ?_
  rintro _ d' ⟨nodes', hsound, hrel, _⟩
  refine ⟨nodes', hsound, ?_, Draft.continues_inserted.trans hrel.continues, ?_⟩
  · rw [vectors_of_frames hrel.frames, vectors_insert, Node.embedding_isolated]
  · refine Or.inr (Or.inl fun hempty => ?_)
    have htouched := hrel.touched id (Draft.mem_touched_inserted embedding)
    rw [hempty] at htouched
    exact Std.ExtTreeMap.not_mem_empty htouched

theorem Edit.delete_advances (h : d.Sound nodes) (hid : id ∈ nodes) :
    (Edit.delete id).Yields d fun _ d' => d.Advances ((vectors nodes).erase id) d' := by
  obtain ⟨removed, hnode⟩ := mem_iff_exists.mp hid
  refine (Edit.delete_yields h hnode).imp ?_
  rintro _ d' ⟨d₁, nodes', hsound, hremoves, hrel, _⟩
  refine ⟨nodes', hsound, ?_, hremoves.continues.trans hrel.continues, ?_⟩
  · rw [vectors_of_frames hrel.frames, vectors_erase]
  · refine Or.inr (Or.inr fun hempty => ?_)
    have hdeleted : d'.deleted = d₁.deleted := (congrArg Draft.deleted hrel.rest : _)
    rw [hdeleted] at hempty
    exact Std.ExtTreeSet.not_mem_empty (hempty ▸ hremoves.mem_deleted)

/-- Nothing is left, and nothing has to be. -/
theorem Draft.Sound.cleared (h : d.Sound nodes) : d.Advances ∅ d.cleared := by
  have hcontinues : d.Continues d.cleared := ⟨rfl, rfl, rfl, rfl, Or.inr ⟨rfl, rfl⟩⟩
  refine ⟨∅, ⟨⟨?_, ⟨?_, ?_⟩, ?_⟩, headed_empty rfl rfl, h.valid⟩, vectors_empty, hcontinues, Or.inl rfl⟩
  · intro other
    rw [Std.ExtTreeMap.getElem?_empty]
    exact Draft.node_cleared d other
  · intro other node hnode
    simp at hnode
  · intro other node layer hnode
    simp at hnode
  · intro b hb
    obtain rfl := Option.some.inj hb
    exact Backlinks.mirrors_empty

/-- An id is live exactly if the map has it. -/
theorem Draft.Sound.contains_eq (h : d.Sound nodes) (id : ItemId) :
    d.contains id = (vectors nodes).contains id := by
  rw [Bool.eq_iff_iff, Draft.contains_eq h.holds.shows, ← Std.ExtTreeMap.mem_iff_contains, mem_vectors]

/-- What a call on a sound draft does, given what it does to the map. -/
def Draft.AnswersAs (d : Draft) (e : Edit Unit) (answer : Except Error (IdMap Embedding)) : Prop :=
  (∃ x, answer = .error x ∧ e.on d = (.error x, d)) ∨
  ∃ items d', answer = .ok items ∧ e.on d = (.ok (), d') ∧ d.Advances items d'

theorem Edit.Yields.answersAs {e : Edit Unit} {items : IdMap Embedding}
    (h : e.Yields d fun _ d' => d.Advances items d') : d.AnswersAs e (.ok items) := by
  obtain ⟨_, d', hrun, hadvances⟩ := h
  exact Or.inr ⟨items, d', rfl, hrun, hadvances⟩

/-- A check of the vector comes first; if it fails, nothing else happens. -/
theorem Draft.answersAs_check {e : Edit Unit} {answer : Except Error (IdMap Embedding)}
    (h : Embedding.check d.dimension embedding = .ok () → d.AnswersAs e answer) :
    d.AnswersAs (do Edit.reading fun d => Embedding.check d.dimension embedding; e)
      (do Embedding.check d.dimension embedding; answer) := by
  unfold Draft.AnswersAs
  rw [Edit.on_bind, Edit.on_reading]
  cases hcheck : Embedding.check d.dimension embedding with
  | error x => exact Or.inl ⟨x, rfl, rfl⟩
  | ok u => exact h hcheck

theorem Edit.addItem_on (h : d.Sound nodes) (id : ItemId) (embedding : Embedding) :
    d.AnswersAs (addItem id embedding) ((Change.add id embedding).apply d.dimension (vectors nodes)) := by
  refine Draft.answersAs_check fun hcheck => ?_
  unfold Draft.AnswersAs
  rw [on_bind, on_get]
  dsimp only
  rw [← h.contains_eq]
  by_cases hlive : d.contains id = true
  · rw [if_pos hlive, if_pos hlive]
    exact Or.inl ⟨.duplicateId id, rfl, rfl⟩
  · rw [if_neg hlive, if_neg hlive]
    have hnew : id ∉ nodes := fun hid => hlive ((Draft.contains_eq h.holds.shows id).mpr hid)
    exact (insert_advances h hnew hcheck).answersAs

/-- An item that is not there is not deleted. -/
theorem Draft.Sound.deleteItem_of_not_mem (h : d.Sound nodes) (hid : id ∉ nodes) :
    (Edit.deleteItem id).on d = (.error (.itemNotFound id), d) := by
  have hgone : d.node id = .ok none := not_mem_iff.mp hid ▸ h.holds.shows id
  unfold Edit.deleteItem Edit.delete
  rw [Edit.on_bind, Edit.on_reading, hgone]
  rfl

theorem Draft.Sound.mem_of_deleteItem {d' : Draft} (h : d.Sound nodes)
    (hrun : (Edit.deleteItem id).on d = (.ok (), d')) : id ∈ nodes := by
  by_contra hid
  cases congrArg Prod.fst ((h.deleteItem_of_not_mem hid).symm.trans hrun)

theorem Edit.deleteItem_on (h : d.Sound nodes) (id : ItemId) :
    d.AnswersAs (deleteItem id) ((Change.delete id).apply d.dimension (vectors nodes)) := by
  unfold Change.apply
  dsimp only
  rw [← h.contains_eq]
  by_cases hlive : d.contains id = true
  · rw [if_pos hlive]
    exact (delete_advances h ((Draft.contains_eq h.holds.shows id).mp hlive)).answersAs
  · rw [if_neg hlive]
    have hid : id ∉ nodes := fun hid => hlive ((Draft.contains_eq h.holds.shows id).mpr hid)
    exact Or.inl ⟨.itemNotFound id, rfl, h.deleteItem_of_not_mem hid⟩

theorem Edit.updateItem_on (h : d.Sound nodes) (id : ItemId) (embedding : Embedding) :
    d.AnswersAs (updateItem id embedding)
      ((Change.update id embedding).apply d.dimension (vectors nodes)) := by
  refine Draft.answersAs_check fun hcheck => ?_
  unfold Draft.AnswersAs
  rw [on_bind, on_get]
  dsimp only
  rw [← h.contains_eq]
  by_cases hlive : d.contains id = true
  · rw [if_pos hlive, if_neg (by simp [hlive])]
    have hid := (Draft.contains_eq h.holds.shows id).mp hlive
    -- the insertion runs on the draft that the deletion leaves
    refine (yields_bind ((delete_advances h hid).imp ?_)).answersAs
    rintro _ d₁ ⟨nodes₁, h₁, hvectors₁, hcontinues₁, _⟩
    have hnew : id ∉ nodes₁ := by
      rw [← mem_vectors, hvectors₁, mem_erase_key]
      exact fun hc => hc.1 rfl
    have hcheck₁ : Embedding.check d₁.dimension embedding = .ok () := by
      unfold Draft.dimension at hcheck ⊢
      rw [hcontinues₁.dimension]
      exact hcheck
    refine (insert_advances h₁ hnew hcheck₁).imp ?_
    rintro _ d₂ ⟨nodes₂, h₂, hvectors₂, hcontinues₂, haltered⟩
    refine ⟨nodes₂, h₂, ?_, hcontinues₁.trans hcontinues₂, haltered⟩
    rw [hvectors₂, hvectors₁]
    apply Std.ExtTreeMap.ext_getElem?
    intro other
    rw [getElem?_insert_id, getElem?_insert_id, getElem?_erase_id]
    split <;> rfl
  · rw [if_neg hlive, if_pos (by simp [hlive])]
    exact Or.inl ⟨.itemNotFound id, rfl, rfl⟩

/-- **A call on a sound draft answers as the map does.** If the map rejects it, the draft is as before. -/
theorem Change.edit_on (h : d.Sound nodes) (c : Change) :
    d.AnswersAs c.edit (c.apply d.dimension (vectors nodes)) := by
  cases c with
  | add id embedding => exact Edit.addItem_on h id embedding
  | update id embedding => exact Edit.updateItem_on h id embedding
  | delete id => exact Edit.deleteItem_on h id
  | clear => exact Or.inr ⟨∅, d.cleared, rfl, rfl, h.cleared⟩

end Calls

end VectorIndex
