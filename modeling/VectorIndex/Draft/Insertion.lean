import VectorIndex.Draft.Linking
import VectorIndex.Level

/-!
# `VectorIndex.Draft.Insertion` — a new node finds its place

A new node is drawn a level. From the entry point the search comes down to that level, and on each layer
from there on the node links to a choice of the nearest nodes, and they link back. A node of a level above
all others becomes the entry point.

## Contents
- `Draft.drawnLevel`.
- `Edit.linkLayer`, `Edit.linkLayers`, `Edit.insert`.
-/

namespace VectorIndex

/-- The level that the next draw gives. -/
def Draft.drawnLevel (d : Draft) : Nat :=
  levelOfDraw d.generator.peek d.head.params.levelScale d.head.params.layerLimit

/-- The nodes near a new node on a layer, and those among them that it links to. -/
def Draft.nearby (d : Draft) (id : ItemId) (embedding : Embedding) (layer : Nat)
    (entries : List Neighbor) : Except Error (List Neighbor × List Neighbor) := do
  let found ← d.beamSearch embedding entries layer
  let nearest := found.filter fun n => n.id != id
  return (nearest, ← d.choose nearest [] layer)

/-- The draft with the links of a node it touched replaced on one layer. -/
def Draft.relink (d : Draft) (id : ItemId) (layer : Nat) (links : List ItemId) : Draft :=
  match d.touched[id]? with
  | none => d
  | some node => d.setLinks id node layer links

/-- The layers from `top` down to the base layer. -/
def layersFrom (top : Nat) : List Nat := (List.range (top + 1)).reverse

namespace Edit

/-- Links a new node on one layer; returns the entries for the layer below. -/
def linkLayer (id : ItemId) (embedding : Embedding) (layer : Nat) (entries : List Neighbor) :
    Edit (List Neighbor) := do
  let (nearest, chosen) ← reading fun d => d.nearby id embedding layer entries
  modify fun d => d.relink id layer (chosen.map Neighbor.id)
  connectAll (chosen.map Neighbor.id) id layer
  return if nearest.isEmpty then entries else nearest

/-- Links a new node on the given layers, from above to below. -/
def linkLayers (id : ItemId) (embedding : Embedding) : List Nat → List Neighbor → Edit Unit
  | [], _ => pure ()
  | layer :: layers, entries => do linkLayers id embedding layers (← linkLayer id embedding layer entries)

/-- Inserts an item that is not live. -/
def insert (id : ItemId) (embedding : Embedding) : Edit Unit := do
  let level := (← get).drawnLevel
  modify fun d => d.place id (Node.isolated embedding level)
  match (← get).head.entryPoint with
  | none => modify fun d => d.withEntry (some id) level
  | some entry =>
      match ← reading fun d => d.graph.score embedding entry with
      | none => throw (.corrupted (.entryPoint entry))
      | some start =>
          let top := (← get).head.topLevel.toNat
          let nearest ← reading fun d => d.graph.descend embedding start top level
          linkLayers id embedding (layersFrom (min level top)) [nearest]
          if top < level then modify fun d => d.withEntry (some id) level

end Edit

end VectorIndex
