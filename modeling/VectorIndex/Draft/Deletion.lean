import VectorIndex.Draft.Linking

/-!
# `VectorIndex.Draft.Deletion` — removing a node and closing the gap

When a node goes, every node that linked to it loses a link and looks for replacements: its surviving links,
the deleted node's other neighbours, and what a beam search from these finds. If it has none of these, the
search starts at the entry point.

## Contents
- **Reverse links.** `Draft.scannedBacklinks`, `Draft.currentBacklinks`.
- **Entry point.** `Draft.promoted`: the highest remaining level, the lowest id among equals.
- **Repair.** `Draft.repairPlan`, `Edit.repair`.
- **Deletion.** `Edit.delete`.
-/

namespace VectorIndex

namespace Draft

/-! ## Reverse links -/

/-- The backlinks with the links of stored nodes added. -/
def addStored (b : Backlinks) : List (ItemId × Bytes) → Except Error Backlinks
  | [] => return b
  | (id, record) :: rows => do addStored (b.addNode id (← decodeNode record)) rows

/-- The reverse of the live links, from a scan of all live nodes. -/
def scannedBacklinks (d : Draft) : Except Error Backlinks :=
  addStored (d.touched.toList.foldl (fun b (id, node) => b.addNode id node) Backlinks.empty) d.untouchedRows

/-- The reverse of the live links; scanned only if the draft does not keep it yet. -/
def currentBacklinks (d : Draft) : Except Error Backlinks :=
  match d.backlinks with
  | some b => .ok b
  | none => d.scannedBacklinks

/-! ## Entry point -/

/-- The levels of stored nodes. -/
def storedLevels : List (ItemId × Bytes) → Except Error (List (ItemId × Nat))
  | [] => return []
  | (id, record) :: rows => do
      let level ← decodeNodeLevel record
      return (id, level) :: (← storedLevels rows)

/-- The higher of two levels, the lower id if they are equal. -/
def higher (best : Option (ItemId × Nat)) (entry : ItemId × Nat) : Option (ItemId × Nat) :=
  match best with
  | none => some entry
  | some b => if entry.2 < b.2 || entry.2 == b.2 && b.1 < entry.1 then some b else some entry

/-- The live items with their levels. -/
def levels (d : Draft) : Except Error (List (ItemId × Nat)) := do
  let stored ← storedLevels d.untouchedRows
  return d.touched.toList.map (fun (id, node) => (id, node.level)) ++ stored

/-- The draft with the live node of the highest level as its entry point. -/
def promoted (d : Draft) : Except Error Draft := do
  match (← d.levels).foldl higher none with
  | some (id, level) => return d.withEntry (some id) level
  | none => return d.withEntry none 0

/-! ## Repair -/

/-- Where the search for replacements starts when a node has no links and no siblings: the place nearest
to it that can be reached from the entry point. -/
def distantSeeds (d : Draft) (id : ItemId) (node : Node) (layer : Nat) : Except Error (List Neighbor) :=
  match d.head.entryPoint with
  | none => return []
  | some entry =>
      if entry = id then return []
      else do
        match ← d.graph.score node.embedding entry with
        | none => return []
        | some start => return [← d.graph.descend node.embedding start d.head.topLevel.toNat layer]

/-- How a node is relinked on a layer. -/
structure Repair where
  node : Node
  /-- The links that survive. -/
  remaining : List Neighbor
  /-- The new links. -/
  chosen : List Neighbor

/-- How the node `id` is relinked on `layer` after `removed`, the node of `gone`, was deleted; `none` if it
is gone itself or does not take part in the layer. -/
def repairPlan (d : Draft) (id gone : ItemId) (removed : Node) (layer : Nat) :
    Except Error (Option Repair) := do
  match ← d.node id with
  | none => return none
  | some node =>
      if node.level < layer then return none
      else
        let remaining ← d.graph.scoreAll node.embedding (node.linksAt layer)
        let siblings := (removed.linksAt layer).filter fun n => n != id && n != gone
        let near := remaining ++ (← d.graph.scoreAll node.embedding siblings)
        let seeds ← if near.isEmpty then d.distantSeeds id node layer else pure near
        let found ← d.beamSearch node.embedding seeds layer
        let chosen ← d.choose ((found ++ seeds).filter fun n => n.id != id) remaining layer
        return some ⟨node, remaining, chosen⟩

/-- The links that a repair adds. -/
def Repair.added (r : Repair) : List ItemId :=
  (r.chosen.map Neighbor.id).filter fun id => !r.remaining.any fun n => n.id == id

end Draft

namespace Edit

/-- Relinks the node `id` on `layer` after `removed`, the node of `gone`, was deleted. -/
def repair (id gone : ItemId) (removed : Node) (layer : Nat) : Edit Unit := do
  match ← reading fun d => d.repairPlan id gone removed layer with
  | none => pure ()
  | some r =>
      modify fun d => d.setLinks id r.node layer (r.chosen.map Neighbor.id)
      connectAll r.added id layer

/-- Relinks nodes on one layer, in their order. -/
def repairAll (ids : List ItemId) (gone : ItemId) (removed : Node) (layer : Nat) : Edit Unit :=
  ids.forM fun id => repair id gone removed layer

/-! ## Deletion -/

/-- Deletes a live item and repairs the links around it, from its top layer down. -/
def delete (id : ItemId) : Edit Unit := do
  match ← reading fun d => d.node id with
  | none => throw (.itemNotFound id)
  | some removed =>
      let backlinks ← reading Draft.currentBacklinks
      modify fun d => d.remove id removed backlinks
      if (← get).head.size = 0 then modify fun d => d.withEntry none 0
      else
        if (← get).head.entryPoint = some id then updating Draft.promoted
        (List.range (removed.level + 1)).reverse.forM fun layer =>
          repairAll (backlinks.sources layer id) id removed layer

end Edit

end VectorIndex
