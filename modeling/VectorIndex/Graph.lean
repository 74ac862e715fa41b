import VectorIndex.Error
import VectorIndex.Node
import VectorIndex.Selection

/-!
# `VectorIndex.Graph` — a readable graph

The searches below need two things of a graph: how embeddings rank, and the node of an id. A committed
snapshot and a writer's uncommitted view are both such graphs. An id need not resolve: a link to it is
skipped. Reading can fail when the stored node is damaged.

## Contents
- `Graph`.
- `Graph.score`, `Graph.scoreAll`: the distances of items to an embedding.
- `Graph.candidates`: scored items together with their embeddings.
-/

namespace VectorIndex

/-- Read access to the nodes of an index. -/
structure Graph where
  rank : Ranking
  node : ItemId → Except Error (Option Node)

namespace Graph

/-- The distance from `query` to an item, `none` when the item does not resolve. -/
def score (g : Graph) (query : Embedding) (id : ItemId) : Except Error (Option Neighbor) := do
  match ← g.node id with
  | none => return none
  | some node => return some ⟨id, g.rank query node.embedding⟩

/-- The distances of the items that resolve, in their order. -/
def scoreAll (g : Graph) (query : Embedding) : List ItemId → Except Error (List Neighbor)
  | [] => return []
  | id :: ids => do
      match ← g.score query id with
      | none => g.scoreAll query ids
      | some n => return n :: (← g.scoreAll query ids)

/-- The neighbours that resolve, with their embeddings. -/
def candidates (g : Graph) : List Neighbor → Except Error (List Candidate)
  | [] => return []
  | n :: ns => do
      match ← g.node n.id with
      | none => g.candidates ns
      | some node => return ⟨n, node.embedding⟩ :: (← g.candidates ns)

/-- The links that a node keeps, chosen among scored items. -/
def choose (g : Graph) (found existing : List Neighbor) (cap : Nat) : Except Error (List Neighbor) := do
  let found ← g.candidates found
  let existing ← g.candidates existing
  return Selection.choose g.rank found existing cap

end Graph

end VectorIndex
