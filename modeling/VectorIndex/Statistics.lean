import VectorIndex.Node
import VectorIndex.Number.Double

/-!
# `VectorIndex.Statistics` — the shape of a graph

## Contents
- `LayerCount`, `Statistics`: how many nodes and links each layer has.
- `Statistics.record` counts one node; `Statistics.ofNodes` counts all.
- `Statistics.listCount`, `Statistics.linkCount`, `Statistics.meanDegree`: link lists, links, and links per
  list, over all layers.
-/

namespace VectorIndex

/-- How many nodes take part in a layer, and how many links they have there. -/
structure LayerCount where
  nodes : Nat
  links : Nat
deriving DecidableEq

/-- Counts of a graph, the base layer first. -/
structure Statistics where
  items : Nat
  layers : List LayerCount
deriving DecidableEq

namespace Statistics

/-- No nodes. -/
def empty : Statistics := ⟨0, []⟩

/-- The counts with the lists of one node added. A node without lists makes no layer. Counted by its level, which is 0,
it would make a base layer without nodes, and with no other node the mean degree would be a NaN. No statistics show
the difference: they count stored nodes, and one without lists is not read (`Node.decode`). -/
def addLists : List LayerCount → List (List ItemId) → List LayerCount
  | counts, [] => counts
  | [], list :: lists => ⟨1, list.length⟩ :: addLists [] lists
  | count :: counts, list :: lists => ⟨count.nodes + 1, count.links + list.length⟩ :: addLists counts lists

/-- The counts with one node added. -/
def record (s : Statistics) (node : Node) : Statistics where
  items := s.items + 1
  layers := addLists s.layers node.links

/-- The counts of some nodes. -/
def ofNodes (nodes : List Node) : Statistics := nodes.foldl record empty

/-- How many nodes take part in each layer. -/
def layerDistribution (s : Statistics) : List Nat := s.layers.map LayerCount.nodes

/-- How many links each layer has. -/
def linksPerLayer (s : Statistics) : List Nat := s.layers.map LayerCount.links

/-- The number of link lists. -/
def listCount (s : Statistics) : Nat := s.layerDistribution.foldr (· + ·) 0

/-- The number of links. -/
def linkCount (s : Statistics) : Nat := s.linksPerLayer.foldr (· + ·) 0

/-- Links per list, 0 when there are no lists. -/
def meanDegree (s : Statistics) : Double :=
  if s.listCount = 0 then ⟨0⟩
  else .ofValue ((UInt64.ofNat s.linkCount).toFloat / (UInt64.ofNat s.listCount).toFloat)

end Statistics

end VectorIndex
