import VectorIndex.Proofs.Runs

/-!
# `VectorIndex.Proofs.Stranding` — which nodes a deletion can leave without links

A node that linked to a deleted item looks for replacements among its other links, the item's other neighbours and
what a search from these finds. One that has neither starts at the entry point, and that search may lead it back to
itself. So a deletion does leave lists empty, but only of nodes that satisfy all of the following before: the item
was their one link on the layer, they were its one neighbour there, and they are the entry point or on a higher
layer, too (`run_delete_relinks`). Neither a node on its own top layer nor one with a second link is ever left
without links, unless it is the entry point.

## Contents
- **Lists.** `Wired.linksOf_eq_singleton`.
- **Runs.** `run_delete_relinks`, and `bridge`, where a node is left without links.
-/

namespace VectorIndex

section Lists

variable {params : Params} {dimension layer : Nat} {nodes : IdMap Node} {id a : ItemId}

/-- A list that has no live link but the one to `id` names only `id`. -/
theorem Wired.linksOf_eq_singleton (h : Wired params dimension tight nodes) (hne : a ≠ id)
    (hlink : id ∈ linksOf nodes layer a) (halone : ¬Held (nodes.erase id) layer a) : linksOf nodes layer a = [id] := by
  obtain ⟨node, hnode, _⟩ := h.onLayer_of_mem_linksOf hlink
  have honly : ∀ t ∈ linksOf nodes layer a, t = id := by
    intro t ht
    by_contra hother
    refine halone ⟨t, ?_, mem_erase_key.mpr ⟨Ne.symm hother, ?_⟩⟩
    · rw [linksOf_erase (Ne.symm hne)]
      exact ht
    · rw [linksOf_eq hnode] at ht
      exact (h.target hnode ht).mem
  rw [linksOf_eq hnode] at hlink honly ⊢
  have hnodup := (h.links a node layer hnode).nodup
  refine List.perm_singleton.mp ((List.perm_ext_iff_of_nodup hnodup (List.nodup_singleton id)).mpr ?_)
  intro t
  rw [List.mem_singleton]
  constructor
  · exact honly t
  · rintro rfl
    exact hlink

end Lists

section Results

variable {distances : Metric → Ranking} {steps : List Step} {s : Session}

/-- **Which nodes a deletion can leave without links.** After every run, if a writer deletes `id`, a node that linked
    to it on a layer has a link there again, unless each was the other's only link on the layer, and the node is the
    entry point or takes part in the layer above. -/
theorem run_delete_relinks (hrun : World.run distances steps = .opened s) {handle : Handle} {w : Writer}
    (hw : s.writers[handle]? = some w) :
    ∃ nodes : IdMap Node, (∀ other, w.draft.node other = .ok nodes[other]?) ∧
      ∀ id w', w.run (Change.delete id).edit = (.ok (), w') →
        ∃ nodes' : IdMap Node, (∀ other, w'.draft.node other = .ok nodes'[other]?) ∧
          ∀ layer a, a ≠ id → id ∈ linksOf nodes layer a → linksOf nodes' layer a ≠ [] ∨
            linksOf nodes layer a = [id] ∧ (∀ t ∈ linksOf nodes layer id, t = a) ∧
              (w'.draft.head.entryPoint = some a ∨ OnLayer nodes (layer + 1) a) := by
  obtain ⟨nodes, h, _⟩ := ((Session.Sound.of_run hrun).writers handle w hw).sound
  refine ⟨nodes, h.holds.shows, ?_⟩
  intro id w' hdelete
  have hon := Writer.run_eq_ok hdelete
  obtain ⟨removed, hnode⟩ := mem_iff_exists.mp (h.mem_of_deleteItem hon)
  obtain ⟨_, nodes', h', _, _, hrelinks⟩ := (Edit.delete_yields h hnode).ensures () w'.draft hon
  refine ⟨nodes', h'.holds.shows, ?_⟩
  intro layer a hne hlink
  refine (hrelinks layer a hlink hne).imp ?_ ?_
  · rintro ⟨t, ht, _⟩
    exact List.ne_nil_of_mem ht
  · intro hstranded
    refine ⟨h.holds.wired.linksOf_eq_singleton hne hlink hstranded.alone, ?_, hstranded.cornered.imp_right ?_⟩
    · intro t ht
      rw [linksOf_eq hnode] at ht
      have hself : id ≠ t := fun heq => (h.holds.wired.links id removed layer hnode).irrefl (heq ▸ ht)
      exact hstranded.siblings t ht (mem_erase_key.mpr ⟨hself, (h.holds.wired.target hnode ht).mem⟩)
    · rintro ⟨node, hlive, hle⟩
      exact ⟨node, getElem?_of_erase hlive, hle⟩

/-- Three items on two layers: links lead from the entry point 1 over 2 to 3, and only 2 has a link to 3. -/
def bridge : Draft where
  rank := Metric.euclidean.rank
  head := ⟨1, .euclidean, 3, some 1, 1, ⟨2, 2, 1, ⟨0x3ff0000000000000⟩, 2⟩⟩
  stored := ∅
  discards := false
  touched := (((∅ : IdMap Node).insert 1 ⟨[⟨0⟩], [[2], [2]]⟩).insert 2 ⟨[⟨0x3f800000⟩], [[3], [1, 3]]⟩).insert 3
    ⟨[⟨0x40000000⟩], [[2], [2]]⟩
  deleted := ∅
  backlinks := none
  generator := ⟨Vector.replicate 8 0, 0⟩

/-- The descent from 1 ends at 2 itself, although 1 takes part in the base layer, too. -/
example : ((Edit.deleteItem 3).on bridge).1.toOption = some () ∧
    (((Edit.deleteItem 3).on bridge).2.node 2).toOption = some (some ⟨[⟨0x3f800000⟩], [[], [1]]⟩) := by
  decide +kernel

end Results

end VectorIndex
