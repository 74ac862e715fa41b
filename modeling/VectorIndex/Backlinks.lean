import VectorIndex.Node

/-!
# `VectorIndex.Backlinks` — who links to an item

Links are directed, so finding the nodes that link to an item would take a scan of the graph. This index
answers it: for each layer and each target it holds the set of sources. It follows the graph by the changes
of single link lists.

## Contents
- `Backlinks`, `Backlinks.sources`, the view by which every operation is described.
- **Single links.** `insert` and `erase`.
- **Lists and nodes.** `replace`, `addNode`, `eraseNode`.
-/

namespace VectorIndex

/-- For each layer, the sources of the links to each target. -/
structure Backlinks where
  layers : Std.ExtTreeMap Nat (IdMap IdSet)

namespace Backlinks

/-- No links. -/
def empty : Backlinks := ⟨∅⟩

/-- The set of the nodes that link to `target` on `layer`. -/
def sourceSet (b : Backlinks) (layer : Nat) (target : ItemId) : IdSet :=
  ((b.layers[layer]?.getD ∅)[target]?).getD ∅

/-- The nodes that link to `target` on `layer`, in ascending order. -/
def sources (b : Backlinks) (layer : Nat) (target : ItemId) : List ItemId := (b.sourceSet layer target).toList

/-- The index with the sources of one target changed. -/
def alter (b : Backlinks) (layer : Nat) (target : ItemId) (change : IdSet → IdSet) : Backlinks :=
  ⟨b.layers.alter layer fun targets =>
    some ((targets.getD ∅).alter target fun found => some (change (found.getD ∅)))⟩

/-! ## Single links -/

/-- Records the link `source → target`. -/
def insert (b : Backlinks) (layer : Nat) (source target : ItemId) : Backlinks :=
  b.alter layer target (·.insert source)

/-- Forgets the link `source → target`. -/
def erase (b : Backlinks) (layer : Nat) (source target : ItemId) : Backlinks :=
  b.alter layer target (·.erase source)

/-! ## Lists and nodes -/

/-- Follows the change of the links of `source` on `layer` from `old` to `new`. -/
def replace (b : Backlinks) (layer : Nat) (source : ItemId) (old new : List ItemId) : Backlinks :=
  let forgotten := (old.filter fun t => !new.contains t).foldl (fun b t => b.erase layer source t) b
  (new.filter fun t => !old.contains t).foldl (fun b t => b.insert layer source t) forgotten

/-- Records the links of a node. -/
def addNode (b : Backlinks) (id : ItemId) (node : Node) : Backlinks :=
  node.links.zipIdx.foldl (fun b (links, layer) => links.foldl (fun b t => b.insert layer id t) b) b

/-- Forgets a node: its links, and the links to it on every layer. -/
def eraseNode (b : Backlinks) (id : ItemId) (node : Node) : Backlinks :=
  let outgoing :=
    node.links.zipIdx.foldl (fun b (links, layer) => links.foldl (fun b t => b.erase layer id t) b) b
  ⟨outgoing.layers.map fun _ targets => targets.erase id⟩

/-! ## What the operations change -/

@[simp] theorem sourceSet_empty (layer : Nat) (target : ItemId) : empty.sourceSet layer target = ∅ := by
  simp [empty, sourceSet]

/-- Only the sources of that target change. -/
theorem sourceSet_alter (b : Backlinks) (layer : Nat) (target : ItemId) (change : IdSet → IdSet)
    (l : Nat) (t : ItemId) :
    (b.alter layer target change).sourceSet l t =
      if layer = l ∧ target = t then change (b.sourceSet l t) else b.sourceSet l t := by
  simp only [alter, sourceSet, Std.ExtTreeMap.getElem?_alter, Std.LawfulEqCmp.compare_eq_iff_eq]
  by_cases hl : layer = l
  · subst hl
    by_cases ht : target = t
    · subst ht
      simp
    · simp [Std.ExtTreeMap.getElem?_alter, ht]
  · simp [hl]

theorem mem_sourceSet_insert {b : Backlinks} {layer l : Nat} {source target s t : ItemId} :
    s ∈ (b.insert layer source target).sourceSet l t ↔
      (layer = l ∧ target = t ∧ s = source) ∨ s ∈ b.sourceSet l t := by
  rw [insert, sourceSet_alter]
  by_cases h : layer = l ∧ target = t
  · obtain ⟨rfl, rfl⟩ := h
    rw [if_pos ⟨rfl, rfl⟩, Std.ExtTreeSet.mem_insert, Std.LawfulEqCmp.compare_eq_iff_eq]
    simp [eq_comm]
  · rw [if_neg h]
    constructor
    · exact Or.inr
    · rintro (⟨hl, ht, _⟩ | hs)
      · exact absurd ⟨hl, ht⟩ h
      · exact hs

theorem mem_sourceSet_erase {b : Backlinks} {layer l : Nat} {source target s t : ItemId} :
    s ∈ (b.erase layer source target).sourceSet l t ↔
      s ∈ b.sourceSet l t ∧ ¬(layer = l ∧ target = t ∧ s = source) := by
  rw [erase, sourceSet_alter]
  by_cases h : layer = l ∧ target = t
  · obtain ⟨rfl, rfl⟩ := h
    rw [if_pos ⟨rfl, rfl⟩, Std.ExtTreeSet.mem_erase, ne_eq, Std.LawfulEqCmp.compare_eq_iff_eq]
    simp only [true_and, and_comm, eq_comm]
  · rw [if_neg h]
    constructor
    · exact fun hs => ⟨hs, fun ⟨hl, ht, _⟩ => h ⟨hl, ht⟩⟩
    · exact And.left

end Backlinks

end VectorIndex
