import VectorIndex.Params

/-!
# `VectorIndex.Metadata` — the description of an index

What an index is (dimension, metric, parameters) and the head of its graph (number of items, entry point,
top level). It is stored in one row per index.

## Contents
- `Metadata`, and `Metadata.fresh` for an index without items.
- `Metadata.withEntry`, the head of the graph moved.
-/

namespace VectorIndex

/-- The description of an index. -/
structure Metadata where
  dimension : UInt32
  metric : Metric
  /-- Number of items. -/
  size : UInt64
  /-- A node of the highest level, none when the index is empty. -/
  entryPoint : Option ItemId
  /-- The level of the entry point. -/
  topLevel : UInt8
  params : Params
deriving DecidableEq, Inhabited

namespace Metadata

/-- An index without items. The dimension is stored in 32 bits. -/
def fresh (dimension : Nat) (metric : Metric) (params : Params) : Metadata where
  dimension := UInt32.ofNat dimension
  metric := metric
  size := 0
  entryPoint := none
  topLevel := 0
  params := params

/-- The description with another entry point. The level is stored in one byte. -/
def withEntry (metadata : Metadata) (entryPoint : Option ItemId) (level : Nat) : Metadata :=
  { metadata with entryPoint := entryPoint, topLevel := UInt8.ofNat level }

end Metadata

end VectorIndex
