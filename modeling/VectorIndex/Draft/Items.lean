import VectorIndex.Draft.Deletion
import VectorIndex.Draft.Insertion
import VectorIndex.Distance

/-!
# `VectorIndex.Draft.Items` — an index as a collection of items

These are the calls that change an index. A call is rejected, with nothing changed and no level drawn, if
the vector does not fit or the id is or is not there.

## Contents
- `Draft.dimension`, `Draft.vector`.
- `Edit.addItem`, `Edit.updateItem`, `Edit.deleteItem`, `Edit.clear`.
-/

namespace VectorIndex

namespace Draft

/-- The dimension of every item. -/
def dimension (d : Draft) : Nat := d.head.dimension.toNat

/-- The vector of a live item. -/
def vector (d : Draft) (id : ItemId) : Except Error (Option Embedding) :=
  (d.node id).map (Option.map Node.embedding)

end Draft

namespace Edit

/-- Adds a new item. -/
def addItem (id : ItemId) (embedding : Embedding) : Edit Unit := do
  reading fun d => Embedding.check d.dimension embedding
  if (← get).contains id then throw (.duplicateId id)
  insert id embedding

/-- Deletes an item. -/
def deleteItem (id : ItemId) : Edit Unit := delete id

/-- Replaces the vector of an item. -/
def updateItem (id : ItemId) (embedding : Embedding) : Edit Unit := do
  reading fun d => Embedding.check d.dimension embedding
  if !(← get).contains id then throw (.itemNotFound id)
  delete id
  insert id embedding

/-- Deletes every item. -/
def clear : Edit Unit := modify Draft.cleared

end Edit

end VectorIndex
