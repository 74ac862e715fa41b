import VectorIndex.Backlinks
import VectorIndex.Metadata
import VectorIndex.Random
import VectorIndex.Rows

/-!
# `VectorIndex.Draft` — an index under change

A draft reads an index through a snapshot of its rows and keeps every node it touched beside them. Nothing
of the snapshot changes; a commit later writes the differences. An item is live if the draft holds a node
for it, or if it has a row and was not deleted.

## Contents
- **State.** `Draft`, `Draft.ofRows`.
- **The live graph.** `Draft.node`, `Draft.contains`, `Draft.untouchedRows`, `Draft.liveIds`, `Draft.graph`.
- **Changes that cannot fail.** `place`, `setLinks`, `remove`, `withEntry`, `cleared`.
-/

namespace VectorIndex

/-- The uncommitted state of an index. -/
structure Draft where
  /-- How embeddings rank; the metric of the index decides it. -/
  rank : Ranking
  /-- The description of the index, with the changes so far. -/
  head : Metadata
  /-- The committed rows that still count. -/
  stored : Rows
  /-- Every committed row was given up. -/
  discards : Bool
  /-- Nodes added or changed. -/
  touched : IdMap Node
  /-- Committed items that were deleted. -/
  deleted : IdSet
  /-- The reverse of the live links, once a deletion has needed it. -/
  backlinks : Option Backlinks
  /-- The source of levels. -/
  generator : Random.Generator

namespace Draft

/-- The draft that starts from committed rows. -/
def ofRows (head : Metadata) (rows : Rows) (generator : Random.Generator) : Draft where
  rank := head.metric.rank
  head := head
  stored := rows
  discards := false
  touched := ∅
  deleted := ∅
  backlinks := none
  generator := generator

/-! ## The live graph -/

/-- The live node of an id. -/
def node (d : Draft) (id : ItemId) : Except Error (Option Node) :=
  match d.touched[id]? with
  | some node => .ok (some node)
  | none => if d.deleted.contains id then .ok none else d.stored.node id

/-- The item is live. No record is decoded. -/
def contains (d : Draft) (id : ItemId) : Bool :=
  d.touched.contains id || !d.deleted.contains id && d.stored.contains id

/-- The rows that count and are neither changed nor deleted, in ascending order. -/
def untouchedRows (d : Draft) : List (ItemId × Bytes) :=
  d.stored.toList.filter fun (id, _) => !d.touched.contains id && !d.deleted.contains id

/-- The live items. -/
def liveIds (d : Draft) : IdSet :=
  (d.touched.keys ++ d.untouchedRows.map Prod.fst).foldl (·.insert ·) ∅

/-- The live nodes as a graph. -/
def graph (d : Draft) : Graph := ⟨d.rank, d.node⟩

/-- Most links of a node on `layer`. -/
def cap (d : Draft) (layer : Nat) : Nat := d.head.params.cap layer

/-- Beam width while linking a node. -/
def buildBeam (d : Draft) : Nat := d.head.params.buildBeam.toNat

/-! ## Changes that cannot fail -/

/-- The draft with another entry point. -/
def withEntry (d : Draft) (entryPoint : Option ItemId) (level : Nat) : Draft :=
  { d with head := d.head.withEntry entryPoint level }

/-- The draft with a new node, not linked yet; its level used up a draw. -/
def place (d : Draft) (id : ItemId) (node : Node) : Draft :=
  { d with
    head := { d.head with size := d.head.size + 1 }
    touched := d.touched.insert id node
    deleted := d.deleted.erase id
    generator := d.generator.next }

/-- The draft with the links of `node`, the live node of `id`, replaced on one layer. -/
def setLinks (d : Draft) (id : ItemId) (node : Node) (layer : Nat) (links : List ItemId) : Draft :=
  { d with
    touched := d.touched.insert id (node.setLinks layer links)
    backlinks := d.backlinks.map fun b => b.replace layer id (node.linksAt layer) links }

/-- The draft without an item; other nodes may still link to it. `backlinks` is the reverse of the live
links before. -/
def remove (d : Draft) (id : ItemId) (node : Node) (backlinks : Backlinks) : Draft :=
  { d with
    head := { d.head with size := d.head.size - 1 }
    touched := d.touched.erase id
    deleted := d.deleted.insert id
    backlinks := some (backlinks.eraseNode id node) }

/-- The draft without any item. -/
def cleared (d : Draft) : Draft :=
  { d with
    head := { d.head with size := 0 }.withEntry none 0
    stored := ∅
    discards := true
    touched := ∅
    deleted := ∅
    backlinks := some Backlinks.empty }

/-! ## What the changes do to the live graph -/

@[simp] theorem node_withEntry (d : Draft) (entryPoint : Option ItemId) (level : Nat) :
    (d.withEntry entryPoint level).node = d.node := rfl

@[simp] theorem contains_withEntry (d : Draft) (entryPoint : Option ItemId) (level : Nat) :
    (d.withEntry entryPoint level).contains = d.contains := rfl

/-- A placed node is read back, and no other item changes. -/
theorem node_place (d : Draft) (id other : ItemId) (node : Node) :
    (d.place id node).node other = if id = other then .ok (some node) else d.node other := by
  simp only [place, Draft.node, Std.ExtTreeMap.getElem?_insert, Std.LawfulEqCmp.compare_eq_iff_eq]
  by_cases h : id = other
  · simp [h]
  · simp only [if_neg h]
    cases d.touched[other]? with
    | some n => rfl
    | none => simp [h]

/-- New links are read back, and no other item changes. -/
theorem node_setLinks (d : Draft) (id other : ItemId) (node : Node) (layer : Nat) (links : List ItemId) :
    (d.setLinks id node layer links).node other =
      if id = other then .ok (some (node.setLinks layer links)) else d.node other := by
  simp only [setLinks, Draft.node, Std.ExtTreeMap.getElem?_insert, Std.LawfulEqCmp.compare_eq_iff_eq]
  by_cases h : id = other
  · simp [h]
  · simp [h]

/-- A removed item is gone, and no other item changes. -/
theorem node_remove (d : Draft) (id other : ItemId) (node : Node) (backlinks : Backlinks) :
    (d.remove id node backlinks).node other = if id = other then .ok none else d.node other := by
  simp only [remove, Draft.node, Std.ExtTreeMap.getElem?_erase, Std.LawfulEqCmp.compare_eq_iff_eq]
  by_cases h : id = other
  · simp [h]
  · simp [h]

/-- Nothing is left after clearing. -/
@[simp] theorem node_cleared (d : Draft) (id : ItemId) : d.cleared.node id = .ok none := by
  simp [cleared, Draft.node, Rows.node]

end Draft

end VectorIndex
