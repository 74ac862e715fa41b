import VectorIndex.Proofs.LiveNodes

/-!
# `VectorIndex.Proofs.LinkLists` — what new links do to the lists

A new link touches one list. A list with room becomes longer; a full one is chosen anew and is full again, and then
it may be the new link that is given up. `Extends` says so of one list, `Gained` of all lists at once while some
nodes get a link to one target. Neither can leave a list without a live link (`Gained.held`).

## Contents
- **Lists.** `linksOf`, the list of an item, and how it follows the map of nodes.
- **One list.** `Extends`.
- **All lists.** `Gained`, `Held`.
-/

namespace VectorIndex

/-! ## Lists -/

/-- The links of an item on a layer; an item that is gone has none. -/
def linksOf (nodes : IdMap Node) (layer : Nat) (id : ItemId) : List ItemId :=
  nodes[id]?.elim [] fun node => node.linksAt layer

section Lists

variable {nodes : IdMap Node} {id : ItemId} {node : Node} {layer : Nat}

theorem linksOf_eq (hnode : nodes[id]? = some node) (layer : Nat) : linksOf nodes layer id = node.linksAt layer := by
  unfold linksOf
  rw [hnode]
  rfl

theorem linksOf_of_not_mem (hid : id ∉ nodes) (layer : Nat) : linksOf nodes layer id = [] := by
  unfold linksOf
  rw [not_mem_iff.mp hid]
  rfl

theorem follows_iff {source target : ItemId} :
    Follows nodes layer source target ↔ target ∈ linksOf nodes layer source ∧ target ∈ nodes := by
  unfold Follows linksOf
  cases nodes[source]? with
  | none => simp
  | some node => simp

/-- One list is replaced. -/
theorem linksOf_setLinks (hnode : nodes[id]? = some node) (hlayer : layer < node.links.length)
    (links : List ItemId) (l : Nat) (a : ItemId) :
    linksOf (nodes.insert id (node.setLinks layer links)) l a =
      if l = layer ∧ a = id then links else linksOf nodes l a := by
  by_cases ha : id = a
  · subst ha
    have hself : (nodes.insert id (node.setLinks layer links))[id]? = some (node.setLinks layer links) := by
      rw [getElem?_insert_id, if_pos rfl]
    rw [linksOf_eq hself, linksOf_eq hnode, Node.linksAt_setLinks]
    simp [hlayer]
  · have hother : (nodes.insert id (node.setLinks layer links))[a]? = nodes[a]? := by
      rw [getElem?_insert_id, if_neg ha]
    rw [if_neg fun hc => ha hc.2.symm]
    unfold linksOf
    rw [hother]

/-- A node that comes in without links changes no list. -/
theorem linksOf_place (hid : id ∉ nodes) (embedding : Embedding) (level l : Nat) (a : ItemId) :
    linksOf (nodes.insert id (Node.isolated embedding level)) l a = linksOf nodes l a := by
  by_cases ha : id = a
  · subst ha
    have hself : (nodes.insert id (Node.isolated embedding level))[id]? = some (Node.isolated embedding level) := by
      rw [getElem?_insert_id, if_pos rfl]
    rw [linksOf_eq hself, linksOf_of_not_mem hid, Node.linksAt_isolated]
  · unfold linksOf
    rw [getElem?_insert_id, if_neg ha]

/-- A removal takes the lists of one item. -/
theorem linksOf_erase {a : ItemId} (ha : id ≠ a) (l : Nat) : linksOf (nodes.erase id) l a = linksOf nodes l a := by
  unfold linksOf
  rw [getElem?_erase_id, if_neg ha]

end Lists

/-! ## One list -/

/-- A list before and after a link to `target` was added: only that link is new, the list does not become shorter
    than its live links were, and if the link was given up the list is full of live ones. -/
structure Extends (cap : Nat) (nodes : IdMap Node) (target : ItemId) (old new : List ItemId) : Prop where
  subset : ∀ t ∈ new, t ∈ old ∨ t = target
  gained : target ∈ new ∨ (new.length = cap ∧ ∀ t ∈ new, t ∈ nodes)
  length_le : (∀ t ∈ old, t ∈ nodes) → old.length ≤ new.length

section Extends

variable {cap : Nat} {nodes nodes' : IdMap Node} {target : ItemId} {old mid new : List ItemId}

/-- The link was there. -/
theorem Extends.self (h : target ∈ old) : Extends cap nodes target old old :=
  ⟨fun _ ht => Or.inl ht, Or.inl h, fun _ => Nat.le_refl _⟩

theorem Extends.trans (h : Extends cap nodes target old mid) (h' : Extends cap nodes target mid new)
    (htarget : target ∈ nodes) : Extends cap nodes target old new where
  subset t ht := by
    rcases h'.subset t ht with ht | ht
    · exact h.subset t ht
    · exact Or.inr ht
  gained := h'.gained
  length_le hold := by
    refine Nat.le_trans (h.length_le hold) (h'.length_le ?_)
    intro t ht
    rcases h.subset t ht with ht | rfl
    · exact hold t ht
    · exact htarget

theorem Extends.of_mem_iff (h : Extends cap nodes target old new) (hmem : ∀ t, t ∈ nodes' ↔ t ∈ nodes) :
    Extends cap nodes' target old new where
  subset := h.subset
  gained := by
    refine h.gained.imp_right ?_
    rintro ⟨hfull, hlive⟩
    exact ⟨hfull, fun t ht => (hmem t).mpr (hlive t ht)⟩
  length_le hold := h.length_le fun t ht => (hmem t).mp (hold t ht)

/-- Such a list has a live link. -/
theorem Extends.exists_live (h : Extends cap nodes target old new) (hcap : 0 < cap) (htarget : target ∈ nodes) :
    ∃ t ∈ new, t ∈ nodes := by
  rcases h.gained with hmem | ⟨hfull, hlive⟩
  · exact ⟨target, hmem, htarget⟩
  · obtain ⟨t, ht⟩ := List.exists_mem_of_length_pos (hfull ▸ hcap)
    exact ⟨t, ht, hlive t ht⟩

end Extends

/-! ## All lists -/

/-- Links to `target` were added to the lists of `sources` on the layer, and no other list changed. -/
structure Gained (cap layer : Nat) (target : ItemId) (sources : List ItemId) (nodes nodes' : IdMap Node) : Prop where
  lists : ∀ a ∈ sources, OnLayer nodes layer a →
    Extends cap nodes target (linksOf nodes layer a) (linksOf nodes' layer a)
  others : ∀ l a, ¬(l = layer ∧ a ∈ sources ∧ OnLayer nodes layer a) → linksOf nodes' l a = linksOf nodes l a

/-- The list has a link to an item that is there. -/
def Held (nodes : IdMap Node) (layer : Nat) (id : ItemId) : Prop := ∃ t ∈ linksOf nodes layer id, t ∈ nodes

/-- A list is replaced by one of live links. -/
theorem held_setLinks {nodes : IdMap Node} {node : Node} {layer : Nat} {id : ItemId} {links : List ItemId}
    (hnode : nodes[id]? = some node) (hlayer : layer < node.links.length) (hlive : ∀ t ∈ links, t ∈ nodes)
    (l : Nat) (a : ItemId) :
    Held (nodes.insert id (node.setLinks layer links)) l a ↔
      if l = layer ∧ a = id then links ≠ [] else Held nodes l a := by
  have hmem : ∀ t, t ∈ nodes.insert id (node.setLinks layer links) ↔ t ∈ nodes := fun t =>
    mem_iff_of_frames (frames_insert_of_frame hnode (frame_setLinks node layer links))
  unfold Held
  simp only [linksOf_setLinks hnode hlayer, hmem]
  split
  · constructor
    · rintro ⟨t, ht, _⟩
      exact List.ne_nil_of_mem ht
    · intro hne
      obtain ⟨t, ht⟩ := List.exists_mem_of_ne_nil links hne
      exact ⟨t, ht, hlive t ht⟩
  · exact Iff.rfl

section Gained

variable {cap layer : Nat} {target : ItemId} {xs ys : List ItemId} {nodes nodes₁ nodes' : IdMap Node}

theorem Gained.nil : Gained cap layer target [] nodes nodes where
  lists _ ha := absurd ha List.not_mem_nil
  others _ _ _ := rfl

theorem Gained.append (h : Gained cap layer target xs nodes nodes₁) (h' : Gained cap layer target ys nodes₁ nodes')
    (hframes : frames nodes₁ = frames nodes) (htarget : target ∈ nodes) :
    Gained cap layer target (xs ++ ys) nodes nodes' where
  lists a ha hon := by
    have hon₁ := hon.of_frames hframes
    by_cases hx : a ∈ xs
    · have hfirst := h.lists a hx hon
      by_cases hy : a ∈ ys
      · have hsecond := (h'.lists a hy hon₁).of_mem_iff fun t => (mem_iff_of_frames hframes).symm
        exact hfirst.trans hsecond htarget
      · rw [h'.others layer a fun hc => hy hc.2.1]
        exact hfirst
    · have hy : a ∈ ys := (List.mem_append.mp ha).resolve_left hx
      have hsecond := (h'.lists a hy hon₁).of_mem_iff fun t => (mem_iff_of_frames hframes).symm
      rw [h.others layer a fun hc => hx hc.2.1] at hsecond
      exact hsecond
  others l a hout := by
    rw [h'.others l a, h.others l a]
    · rintro ⟨rfl, hx, hon⟩
      exact hout ⟨rfl, List.mem_append_left _ hx, hon⟩
    · rintro ⟨rfl, hy, hon⟩
      exact hout ⟨rfl, List.mem_append_right _ hy, hon.of_frames hframes.symm⟩

/-- **No list loses its last live link** when others get one. -/
theorem Gained.held (h : Gained cap layer target xs nodes nodes') (hframes : frames nodes' = frames nodes)
    (hcap : 0 < cap) (htarget : target ∈ nodes) {l : Nat} {a : ItemId} (hheld : Held nodes l a) :
    Held nodes' l a := by
  unfold Held at hheld ⊢
  simp only [mem_iff_of_frames hframes]
  by_cases hsource : l = layer ∧ a ∈ xs ∧ OnLayer nodes layer a
  · obtain ⟨rfl, hx, hon⟩ := hsource
    exact (h.lists a hx hon).exists_live hcap htarget
  · rw [h.others l a hsource]
    exact hheld

end Gained

end VectorIndex
