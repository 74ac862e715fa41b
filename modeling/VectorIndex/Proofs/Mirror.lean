import VectorIndex.Backlinks
import VectorIndex.Proofs.LiveNodes

/-!
# `VectorIndex.Proofs.Mirror` — the backlinks are the reverse of the links

`Backlinks.Mirrors b nodes` says that `b` holds exactly the links that lead to live items, turned around.
Links to an item that is gone are left out on purpose: while a deletion is under way they still stand in the
lists of other nodes, but the backlinks have forgotten them already.

## Contents
- **Lists of links.** `mem_sourceSet_inserts`, `mem_sourceSet_erases`, `mem_sourceSet_replace`.
- **Nodes.** `mem_sourceSet_addNode`, `mem_sourceSet_addNodes`, `mem_sourceSet_eraseNode`.
- **The mirror.** `Backlinks.Mirrors`, kept by a replaced list, a new node and an erased node.
-/

namespace VectorIndex
namespace Backlinks

variable {b : Backlinks} {layer l : Nat} {id source s t : ItemId}

/-! ## Lists of links -/

theorem mem_sourceSet_inserts (ts : List ItemId) :
    s ∈ (ts.foldl (fun b t => b.insert layer source t) b).sourceSet l t ↔
      (layer = l ∧ s = source ∧ t ∈ ts) ∨ s ∈ b.sourceSet l t := by
  induction ts generalizing b with
  | nil => simp
  | cons u ts ih =>
      rw [List.foldl_cons, ih, mem_sourceSet_insert, List.mem_cons]
      constructor
      · rintro (⟨hl, hs, ht⟩ | ⟨hl, ht, hs⟩ | hb)
        · exact Or.inl ⟨hl, hs, Or.inr ht⟩
        · exact Or.inl ⟨hl, hs, Or.inl ht.symm⟩
        · exact Or.inr hb
      · rintro (⟨hl, hs, ht | ht⟩ | hb)
        · exact Or.inr (Or.inl ⟨hl, ht.symm, hs⟩)
        · exact Or.inl ⟨hl, hs, ht⟩
        · exact Or.inr (Or.inr hb)

theorem mem_sourceSet_erases (ts : List ItemId) :
    s ∈ (ts.foldl (fun b t => b.erase layer source t) b).sourceSet l t ↔
      s ∈ b.sourceSet l t ∧ ¬(layer = l ∧ s = source ∧ t ∈ ts) := by
  induction ts generalizing b with
  | nil => simp
  | cons u ts ih =>
      rw [List.foldl_cons, ih, mem_sourceSet_erase, List.mem_cons]
      constructor
      · rintro ⟨⟨hb, hne⟩, hnot⟩
        refine ⟨hb, ?_⟩
        rintro ⟨hl, hs, ht | ht⟩
        · exact hne ⟨hl, ht.symm, hs⟩
        · exact hnot ⟨hl, hs, ht⟩
      · rintro ⟨hb, hnot⟩
        exact ⟨⟨hb, fun ⟨hl, ht, hs⟩ => hnot ⟨hl, hs, Or.inl ht.symm⟩⟩,
          fun ⟨hl, hs, ht⟩ => hnot ⟨hl, hs, Or.inr ht⟩⟩

/-- Only the targets that come or go change. -/
theorem mem_sourceSet_replace (old new : List ItemId) :
    s ∈ (b.replace layer source old new).sourceSet l t ↔
      (layer = l ∧ s = source ∧ t ∈ new ∧ t ∉ old) ∨
      s ∈ b.sourceSet l t ∧ ¬(layer = l ∧ s = source ∧ t ∈ old ∧ t ∉ new) := by
  unfold replace
  rw [mem_sourceSet_inserts, mem_sourceSet_erases]
  simp only [List.mem_filter, Bool.not_eq_true', List.contains_iff_mem, ← Bool.not_eq_true]

/-! ## Nodes -/

theorem mem_sourceSet_addLists (lists : List (List ItemId × Nat)) :
    s ∈ (lists.foldl (fun b (links, layer) => links.foldl (fun b t => b.insert layer id t) b)
        b).sourceSet l t ↔
      (s = id ∧ ∃ links, (links, l) ∈ lists ∧ t ∈ links) ∨ s ∈ b.sourceSet l t := by
  induction lists generalizing b with
  | nil => simp
  | cons list lists ih =>
      obtain ⟨links, layer⟩ := list
      rw [List.foldl_cons, ih, mem_sourceSet_inserts]
      constructor
      · rintro (⟨hs, links', hmem, ht⟩ | ⟨rfl, hs, ht⟩ | hb)
        · exact Or.inl ⟨hs, links', List.mem_cons_of_mem _ hmem, ht⟩
        · exact Or.inl ⟨hs, links, List.mem_cons_self, ht⟩
        · exact Or.inr hb
      · rintro (⟨hs, links', hmem, ht⟩ | hb)
        · rcases List.mem_cons.mp hmem with heq | hmem
          · obtain ⟨rfl, rfl⟩ := Prod.mk.inj heq
            exact Or.inr (Or.inl ⟨rfl, hs, ht⟩)
          · exact Or.inl ⟨hs, links', hmem, ht⟩
        · exact Or.inr (Or.inr hb)

theorem mem_sourceSet_eraseLists (lists : List (List ItemId × Nat)) :
    s ∈ (lists.foldl (fun b (links, layer) => links.foldl (fun b t => b.erase layer id t) b)
        b).sourceSet l t ↔
      s ∈ b.sourceSet l t ∧ ¬(s = id ∧ ∃ links, (links, l) ∈ lists ∧ t ∈ links) := by
  induction lists generalizing b with
  | nil => simp
  | cons list lists ih =>
      obtain ⟨links, layer⟩ := list
      rw [List.foldl_cons, ih, mem_sourceSet_erases]
      constructor
      · rintro ⟨⟨hb, hne⟩, hnot⟩
        refine ⟨hb, ?_⟩
        rintro ⟨hs, links', hmem, ht⟩
        rcases List.mem_cons.mp hmem with heq | hmem
        · obtain ⟨rfl, rfl⟩ := Prod.mk.inj heq
          exact hne ⟨rfl, hs, ht⟩
        · exact hnot ⟨hs, links', hmem, ht⟩
      · rintro ⟨hb, hnot⟩
        refine ⟨⟨hb, ?_⟩, ?_⟩
        · rintro ⟨rfl, hs, ht⟩
          exact hnot ⟨hs, links, List.mem_cons_self, ht⟩
        · rintro ⟨hs, links', hmem, ht⟩
          exact hnot ⟨hs, links', List.mem_cons_of_mem _ hmem, ht⟩

/-- The lists of a node, by layer. -/
theorem exists_mem_zipIdx_iff {node : Node} :
    (∃ links, (links, l) ∈ node.links.zipIdx ∧ t ∈ links) ↔ t ∈ node.linksAt l := by
  unfold Node.linksAt
  constructor
  · rintro ⟨links, hmem, ht⟩
    rw [List.mem_zipIdx_iff_getElem?] at hmem
    rw [hmem]
    exact ht
  · intro ht
    cases hl : node.links[l]? with
    | none =>
        rw [hl] at ht
        exact absurd ht List.not_mem_nil
    | some links =>
        rw [hl] at ht
        exact ⟨links, List.mem_zipIdx_iff_getElem?.mpr hl, ht⟩

theorem mem_sourceSet_addNode {node : Node} :
    s ∈ (b.addNode id node).sourceSet l t ↔ (s = id ∧ t ∈ node.linksAt l) ∨ s ∈ b.sourceSet l t := by
  unfold addNode
  rw [mem_sourceSet_addLists, exists_mem_zipIdx_iff]

/-- The links of many nodes, turned around. -/
theorem mem_sourceSet_addNodes (nodes : List (ItemId × Node)) :
    s ∈ (nodes.foldl (fun b (id, node) => b.addNode id node) b).sourceSet l t ↔
      (∃ node, (s, node) ∈ nodes ∧ t ∈ node.linksAt l) ∨ s ∈ b.sourceSet l t := by
  induction nodes generalizing b with
  | nil => simp
  | cons entry nodes ih =>
      obtain ⟨id, node⟩ := entry
      rw [List.foldl_cons, ih, mem_sourceSet_addNode]
      constructor
      · rintro (⟨node', hmem, ht⟩ | ⟨rfl, ht⟩ | hb)
        · exact Or.inl ⟨node', List.mem_cons_of_mem _ hmem, ht⟩
        · exact Or.inl ⟨node, List.mem_cons_self, ht⟩
        · exact Or.inr hb
      · rintro (⟨node', hmem, ht⟩ | hb)
        · rcases List.mem_cons.mp hmem with heq | hmem
          · obtain ⟨rfl, rfl⟩ := Prod.mk.inj heq
            exact Or.inr (Or.inl ⟨rfl, ht⟩)
          · exact Or.inl ⟨node', hmem, ht⟩
        · exact Or.inr (Or.inr hb)

theorem sourceSet_eraseTarget (id : ItemId) :
    sourceSet ⟨b.layers.map fun _ targets => targets.erase id⟩ l t =
      if id = t then ∅ else b.sourceSet l t := by
  unfold sourceSet
  rw [Std.ExtTreeMap.getElem?_map]
  cases b.layers[l]? with
  | none => simp
  | some targets =>
      simp only [Option.map_some, Option.getD_some, getElem?_erase_id]
      split <;> rfl

theorem mem_sourceSet_eraseNode {node : Node} :
    s ∈ (b.eraseNode id node).sourceSet l t ↔
      id ≠ t ∧ s ∈ b.sourceSet l t ∧ ¬(s = id ∧ t ∈ node.linksAt l) := by
  unfold eraseNode
  dsimp only
  rw [sourceSet_eraseTarget]
  by_cases h : id = t
  · simp [h]
  · rw [if_neg h, mem_sourceSet_eraseLists, exists_mem_zipIdx_iff]
    exact ⟨fun hs => ⟨h, hs⟩, And.right⟩

/-! ## The mirror -/

/-- The backlinks hold exactly the links to live items. -/
def Mirrors (b : Backlinks) (nodes : IdMap Node) : Prop :=
  ∀ layer source target, source ∈ b.sourceSet layer target ↔ Follows nodes layer source target

variable {nodes : IdMap Node}

theorem mirrors_empty : empty.Mirrors ∅ := by
  intro layer source target
  simp [Follows]

/-- The links of one node in a map where another node was put. -/
theorem follows_insert {node : Node} : Follows (nodes.insert id node) l s t ↔
    (if id = s then t ∈ node.linksAt l else ∃ n, nodes[s]? = some n ∧ t ∈ n.linksAt l) ∧
      (id = t ∨ t ∈ nodes) := by
  unfold Follows
  rw [getElem?_insert_id, mem_insert_key]
  by_cases h : id = s
  · simp [h]
  · simp [h]

/-- A list is replaced; its new targets are live, or were there before. -/
theorem Mirrors.replace (h : b.Mirrors nodes) {node : Node} (hnode : nodes[id]? = some node)
    (hlayer : layer < node.links.length) {links : List ItemId}
    (hlinks : ∀ t ∈ links, t ∈ nodes ∨ t ∈ node.linksAt layer) :
    (b.replace layer id (node.linksAt layer) links).Mirrors
      (nodes.insert id (node.setLinks layer links)) := by
  intro l s t
  have hid : id ∈ nodes := mem_iff_exists.mpr ⟨node, hnode⟩
  have hlive : (id = t ∨ t ∈ nodes) ↔ t ∈ nodes := by
    constructor
    · rintro (rfl | ht)
      · exact hid
      · exact ht
    · exact Or.inr
  rw [mem_sourceSet_replace, h l s t, follows_insert, hlive, Node.linksAt_setLinks]
  unfold Follows
  by_cases hs : id = s
  · subst hs
    rw [if_pos rfl, hnode]
    simp only [Option.some.injEq, exists_eq_left', true_and]
    by_cases hl : layer = l
    · -- the replaced list itself; a target that is gone can only be an old one
      subst hl
      rw [if_pos ⟨rfl, hlayer⟩]
      have hnew := hlinks t
      grind
    · rw [if_neg (fun hc => hl hc.1.symm)]
      simp [hl]
  · rw [if_neg hs]
    have hne : s ≠ id := Ne.symm hs
    simp [hne]

/-- A node without links comes in; nobody links to it yet. -/
theorem Mirrors.place (h : b.Mirrors nodes) {node : Node} (hnew : id ∉ nodes)
    (hempty : ∀ l, node.linksAt l = [])
    (hnobody : ∀ (l : Nat) (s : ItemId) (n : Node), nodes[s]? = some n → id ∉ n.linksAt l) :
    b.Mirrors (nodes.insert id node) := by
  intro l s t
  rw [h l s t, follows_insert, hempty]
  unfold Follows
  by_cases hs : id = s
  · subst hs
    rw [if_pos rfl, not_mem_iff.mp hnew]
    simp
  · rw [if_neg hs]
    constructor
    · exact fun ⟨hlink, ht⟩ => ⟨hlink, Or.inr ht⟩
    · rintro ⟨⟨n, hn, ht⟩, rfl | hlive⟩
      · exact absurd ht (hnobody l s n hn)
      · exact ⟨⟨n, hn, ht⟩, hlive⟩

/-- A node goes, and its links with it; links to it are forgotten. -/
theorem Mirrors.eraseNode (h : b.Mirrors nodes) {node : Node} (hnode : nodes[id]? = some node) :
    (b.eraseNode id node).Mirrors (nodes.erase id) := by
  intro l s t
  rw [mem_sourceSet_eraseNode, h l s t]
  unfold Follows
  rw [getElem?_erase_id, mem_erase_key]
  by_cases hs : id = s
  · subst hs
    rw [if_pos rfl, hnode]
    simp only [Option.some.injEq, exists_eq_left', true_and]
    constructor
    · exact fun ⟨_, ⟨ht, _⟩, hnot⟩ => absurd ht hnot
    · rintro ⟨⟨_, hn, _⟩, _⟩
      cases hn
  · rw [if_neg hs]
    constructor
    · exact fun ⟨hne, ⟨hlink, ht⟩, _⟩ => ⟨hlink, hne, ht⟩
    · exact fun ⟨hlink, hne, ht⟩ => ⟨hne, ⟨hlink, ht⟩, fun hc => hs hc.1.symm⟩

end Backlinks
end VectorIndex
