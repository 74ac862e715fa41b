import VectorIndex.Graph.Beam

/-!
# `VectorIndex.Graph.Descent` — coming down to a layer

The upper layers hold few nodes and long links. A search starts at the entry point and goes down layer by
layer, each time moving to the nearest node it can reach.

## Contents
- `layersDown`, the layers walked.
- `Graph.descend`.
-/

namespace VectorIndex

/-- The layers from `top` down to the one above `bottom`. -/
def layersDown (top bottom : Nat) : List Nat := (List.range' (bottom + 1) (top - bottom)).reverse

/-- Everything is admitted. -/
def admitAll : ItemId → Bool := fun _ => true

/-- The nearest node found by beams of width one on the layers above `bottom`, from `entry` on layer
`top`. -/
def Graph.descend (g : Graph) (query : Embedding) (entry : Neighbor) (top bottom : Nat) :
    Except Error Neighbor :=
  (layersDown top bottom).foldlM
    (fun nearest layer => return (← g.beamSearch query [nearest] 1 layer admitAll).headD nearest) entry

end VectorIndex
