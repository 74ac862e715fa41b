import VectorIndex.Graph
import VectorIndex.Node.Codec

/-!
# `VectorIndex.Rows` — the committed nodes of an index

An index keeps one stored record per item. A snapshot of these rows is a graph: reading a node decodes its
record, and a damaged record is an error of that read only.

## Contents
- `Rows`, `Rows.node`, `Rows.graph`.
-/

namespace VectorIndex

/-- The stored records of an index. -/
abbrev Rows := IdMap Bytes

/-- The node that a record holds. -/
def decodeNode (record : Bytes) : Except Error Node := (Node.decode record).mapError Error.corrupted

/-- The level of the node that a record holds. -/
def decodeNodeLevel (record : Bytes) : Except Error Nat := (Node.decodeLevel record).mapError Error.corrupted

namespace Rows

/-- The node stored under an id. -/
def node (rows : Rows) (id : ItemId) : Except Error (Option Node) :=
  match rows[id]? with
  | none => .ok none
  | some record => (decodeNode record).map some

/-- The rows as a graph. -/
def graph (rows : Rows) (rank : Ranking) : Graph := ⟨rank, rows.node⟩

end Rows

end VectorIndex
