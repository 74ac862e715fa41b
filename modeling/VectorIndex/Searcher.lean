import VectorIndex.Distance
import VectorIndex.Graph.Descent
import VectorIndex.Metadata
import VectorIndex.Rows
import VectorIndex.Statistics

/-!
# `VectorIndex.Searcher` — reading a committed index

A searcher is a snapshot: a description and the rows committed with it. Later commits do not change it.

## Contents
- **Nearest items of a graph.** `Graph.nearest`: descent from the entry point, then a beam on the base layer
  that also starts at the entry point, from where every item can be reached.
- **Searching.** `Searcher.search`, `Searcher.searchFiltered`, `Searcher.searchByItem`.
- **Reading.** `Searcher.contains`, `Searcher.vector`, `Searcher.itemIds`, `Searcher.items`,
  `Searcher.statistics`.
-/

namespace VectorIndex

/-- The set of admitted items; no filter admits all. -/
def admittedBy (filter : Option IdSet) : ItemId → Bool :=
  match filter with
  | none => admitAll
  | some ids => ids.contains

/-- The `k` admitted items nearest to `query` that a beam of width `max ef k` finds, in ascending order. -/
def Graph.nearest (g : Graph) (entryPoint : Option ItemId) (top : Nat) (query : Embedding) (k ef : Nat)
    (filter : Option IdSet) : Except Error (List Neighbor) :=
  if k = 0 || filter.any (·.isEmpty) then return []
  else
    match entryPoint with
    | none => return []
    | some id => do
        match ← g.score query id with
        | none => .error (.corrupted (.entryPoint id))
        | some start =>
            let close ← g.descend query start top 0
            let entries := if close.id = start.id then [close] else [close, start]
            return (← g.beamSearch query entries (max ef k) 0 (admittedBy filter)).take k

/-- A snapshot of a committed index. -/
structure Searcher where
  index : IndexId
  head : Metadata
  rows : Rows

namespace Searcher

/-- The dimension of every item. -/
def dimension (s : Searcher) : Nat := s.head.dimension.toNat

/-- The rows as a graph. -/
def graph (s : Searcher) : Graph := s.rows.graph s.head.metric.rank

/-! ## Searching -/

/-- The items nearest to an embedding, with reported distances. -/
def nearest (s : Searcher) (query : Embedding) (k ef : Nat) (filter : Option IdSet) :
    Except Error (List Neighbor) := do
  let found ← s.graph.nearest s.head.entryPoint s.head.topLevel.toNat query k ef filter
  return found.map fun n => ⟨n.id, s.head.metric.report n.distance⟩

/-- The query has the dimension of the index. -/
def checkQuery (s : Searcher) (query : Embedding) : Except Error Unit :=
  if query.length = s.dimension then .ok () else .error (.dimensionMismatch s.dimension query.length)

/-- The `k` items nearest to `query`, nearest first. -/
def search (s : Searcher) (query : Embedding) (k ef : Nat) : Except Error (List Neighbor) := do
  s.checkQuery query
  s.nearest query k ef none

/-- The `k` items among `ids` nearest to `query`, nearest first. -/
def searchFiltered (s : Searcher) (query : Embedding) (k ef : Nat) (ids : IdSet) :
    Except Error (List Neighbor) := do
  s.checkQuery query
  s.nearest query k ef (some ids)

/-- The vector of an item. -/
def vector (s : Searcher) (id : ItemId) : Except Error (Option Embedding) :=
  (s.rows.node id).map (Option.map Node.embedding)

/-- The `k` items nearest to the vector of an item, `none` if there is no such item. -/
def searchByItem (s : Searcher) (id : ItemId) (k ef : Nat) : Except Error (Option (List Neighbor)) := do
  match ← s.vector id with
  | none => return none
  | some query => return some (← s.nearest query k ef none)

/-! ## Reading -/

/-- There is such an item. -/
def contains (s : Searcher) (id : ItemId) : Bool := s.rows.contains id

/-- All items, in ascending order. -/
def itemIds (s : Searcher) : List ItemId := s.rows.keys

/-- All items with their vectors, in ascending order; a damaged record yields an error in its place. -/
def items (s : Searcher) : List (Except Error (ItemId × Embedding)) :=
  s.rows.toList.map fun (id, record) => (decodeNode record).map fun node => (id, node.embedding)

/-- The nodes of some records, up to the first damaged one. -/
def decodeAll : List (ItemId × Bytes) → Except Error (List Node)
  | [] => return []
  | (_, record) :: rows => do
      let node ← decodeNode record
      return node :: (← decodeAll rows)

/-- The shape of the graph, from a scan of all rows. -/
def statistics (s : Searcher) : Except Error Statistics :=
  (decodeAll s.rows.toList).map Statistics.ofNodes

end Searcher

end VectorIndex
