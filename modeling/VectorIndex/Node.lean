import VectorIndex.Basic
import VectorIndex.Metric

/-!
# `VectorIndex.Node` — an item of the graph

A node holds the embedding of an item and, for every layer it takes part in, the items it links to. Links
are directed: a node does not know who links to it.

## Contents
- `Node`, `Node.level`, `Node.linksAt`.
- `Node.isolated`, a node without links; `Node.setLinks`, the list of one layer replaced.
-/

namespace VectorIndex

/-- An embedding and its links, one list per layer, the base layer first. -/
structure Node where
  embedding : Embedding
  links : List (List ItemId)
deriving DecidableEq

namespace Node

/-- A node on the layers up to `level`, without links. -/
def isolated (embedding : Embedding) (level : Nat) : Node := ⟨embedding, List.replicate (level + 1) []⟩

/-- The highest layer the node takes part in. -/
def level (node : Node) : Nat := node.links.length - 1

/-- The links on `layer`, none above the node's level. -/
def linksAt (node : Node) (layer : Nat) : List ItemId := node.links[layer]?.getD []

/-- The node with its links on `layer` replaced. -/
def setLinks (node : Node) (layer : Nat) (links : List ItemId) : Node :=
  { node with links := node.links.set layer links }

/-! ## What the operations change -/

@[simp] theorem embedding_isolated (embedding : Embedding) (level : Nat) :
    (isolated embedding level).embedding = embedding := rfl

@[simp] theorem level_isolated (embedding : Embedding) (level : Nat) :
    (isolated embedding level).level = level := by
  simp [isolated, Node.level]

@[simp] theorem linksAt_isolated (embedding : Embedding) (level layer : Nat) :
    (isolated embedding level).linksAt layer = [] := by
  simp only [isolated, linksAt, List.getElem?_replicate]
  split <;> rfl

@[simp] theorem embedding_setLinks (node : Node) (layer : Nat) (links : List ItemId) :
    (node.setLinks layer links).embedding = node.embedding := rfl

@[simp] theorem level_setLinks (node : Node) (layer : Nat) (links : List ItemId) :
    (node.setLinks layer links).level = node.level := by
  simp [setLinks, level]

/-- Only the list of that layer changes, and only if the node has the layer. -/
theorem linksAt_setLinks (node : Node) (layer other : Nat) (links : List ItemId) :
    (node.setLinks layer links).linksAt other =
      if other = layer ∧ layer < node.links.length then links else node.linksAt other := by
  simp only [setLinks, linksAt, List.getElem?_set]
  by_cases heq : layer = other
  · subst heq
    by_cases hlt : layer < node.links.length
    · simp [hlt]
    · simp [hlt]
  · simp [heq, Ne.symm heq]

end Node

end VectorIndex
