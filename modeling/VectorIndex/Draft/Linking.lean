import VectorIndex.Draft.Edit
import VectorIndex.Graph.Descent

/-!
# `VectorIndex.Draft.Linking` — links of single nodes

## Contents
- `Draft.beamSearch`, `Draft.choose`: searching and choosing on the live graph, as an insertion does.
- `Draft.withLink`: a node gets one more link and gives up the least useful one if its list is full.
- `Edit.connect`, `Edit.connectAll`: the same as edits.
-/

namespace VectorIndex

namespace Draft

/-- Beam search on the live graph with the beam width for linking. -/
def beamSearch (d : Draft) (query : Embedding) (entries : List Neighbor) (layer : Nat) :
    Except Error (List Neighbor) :=
  d.graph.beamSearch query entries d.buildBeam layer admitAll

/-- The links that a node keeps on `layer`, chosen among scored items. -/
def choose (d : Draft) (found existing : List Neighbor) (layer : Nat) : Except Error (List Neighbor) :=
  d.graph.choose found existing (d.cap layer)

/-- The links of `node` on `layer` with one more target. A list that grew beyond its cap is chosen anew. -/
def extendedLinks (d : Draft) (node : Node) (target : ItemId) (layer : Nat) :
    Except Error (List ItemId) := do
  let links := node.linksAt layer ++ [target]
  if d.cap layer < links.length then
    let scored ← d.graph.scoreAll node.embedding links
    return (← d.choose scored [] layer).map Neighbor.id
  else return links

/-- The draft with a link `source → target`, unless `source` is gone, does not take part in the layer or has
the link. -/
def withLink (d : Draft) (source target : ItemId) (layer : Nat) : Except Error Draft := do
  match ← d.node source with
  | none => return d
  | some node =>
      if node.level < layer || (node.linksAt layer).contains target then return d
      else return d.setLinks source node layer (← d.extendedLinks node target layer)

end Draft

namespace Edit

/-- Runs a computation on the current draft. -/
def reading {α : Type} (f : Draft → Except Error α) : Edit α := do ofExcept (f (← get))

/-- Replaces the draft, unless the new one cannot be computed. -/
def updating (f : Draft → Except Error Draft) : Edit Unit := do set (← ofExcept (f (← get)))

/-- Adds a link `source → target`. -/
def connect (source target : ItemId) (layer : Nat) : Edit Unit :=
  updating fun d => d.withLink source target layer

/-- Adds a link to `target` from each of the sources, in their order. -/
def connectAll (sources : List ItemId) (target : ItemId) (layer : Nat) : Edit Unit :=
  sources.forM fun source => connect source target layer

/-! ## Running them -/

@[simp] theorem on_reading {α : Type} (f : Draft → Except Error α) (d : Draft) :
    on (reading f) d = (f d, d) := by
  simp [reading, on_bind]

/-- An update that fails leaves the draft as it was. -/
theorem on_updating (f : Draft → Except Error Draft) (d : Draft) :
    on (updating f) d = match f d with
      | .ok d' => (.ok (), d')
      | .error e => (.error e, d) := by
  simp only [updating, on_bind, on_get, on_ofExcept]
  cases f d <;> rfl

end Edit

end VectorIndex
