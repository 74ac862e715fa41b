import VectorIndex.Bytes
import VectorIndex.Metadata

/-!
# `VectorIndex.Metadata.Codec` — the stored form of a description

A row is a layout version in four bytes and the fields in order, little-endian: dimension (4 bytes), metric
index (4), size (8), entry point (a byte 0, or a byte 1 and 4 bytes), top level (1), and the parameters (8
bytes each). Bytes after the last field are ignored.

## Contents
- **Writing.** `Metadata.encode`, always in the layout `supportedVersion`.
- **Reading.** `Metadata.decode` accepts the layouts up to `supportedVersion`.
-/

namespace VectorIndex

/-- The newest layout this library reads, and the one it writes. -/
def supportedVersion : UInt32 := 1

namespace Metric

/-- The number that stands for a metric in a row. -/
def index : Metric → Nat
  | .euclidean => 0
  | .cosine => 1
  | .manhattan => 2
  | .dotProduct => 3

/-- The metric that a number stands for. -/
def ofIndex? : Nat → Option Metric
  | 0 => some .euclidean
  | 1 => some .cosine
  | 2 => some .manhattan
  | 3 => some .dotProduct
  | _ => none

/-- A number stands for at most one metric, and each metric has its number. -/
theorem ofIndex?_eq_some_iff {n : Nat} {metric : Metric} : ofIndex? n = some metric ↔ n = metric.index := by
  constructor
  · intro h
    unfold ofIndex? at h
    split at h <;> simp_all [index] <;> subst h <;> rfl
  · rintro rfl
    cases metric <;> rfl

end Metric

namespace Metadata

/-! ## Writing -/

/-- An optional item: whether it is there, then the item. -/
def optionBytes : Option ItemId → Bytes
  | none => [0]
  | some id => 1 :: wordBytes 4 id.toNat

/-- The five parameters in eight bytes each. -/
def paramsBytes (params : Params) : Bytes :=
  wordBytes 8 params.degree.toNat ++ wordBytes 8 params.baseDegree.toNat ++
    wordBytes 8 params.buildBeam.toNat ++ wordBytes 8 params.levelScale.bits.toNat ++
    wordBytes 8 params.layerLimit.toNat

/-- The fields, without the version. -/
def payload (metadata : Metadata) : Bytes :=
  wordBytes 4 metadata.dimension.toNat ++ wordBytes 4 metadata.metric.index ++
    wordBytes 8 metadata.size.toNat ++ optionBytes metadata.entryPoint ++
    wordBytes 1 metadata.topLevel.toNat ++ paramsBytes metadata.params

/-- The stored form of a description. -/
def encode (metadata : Metadata) : Bytes := wordBytes 4 supportedVersion.toNat ++ metadata.payload

/-! ## Reading -/

/-- Takes a word off the front of a row. -/
def readField (width : Nat) (bytes : Bytes) : Except RecordDamage (Nat × Bytes) :=
  match readWord width bytes with
  | none => .error .metadataEnd
  | some field => .ok field

/-- Takes a metric off the front. -/
def readMetric (bytes : Bytes) : Except RecordDamage (Metric × Bytes) := do
  let (index, bytes) ← readField 4 bytes
  match Metric.ofIndex? index with
  | none => .error (.metricIndex (UInt32.ofNat index))
  | some metric => .ok (metric, bytes)

/-- Takes an optional item off the front. -/
def readOption (bytes : Bytes) : Except RecordDamage (Option ItemId × Bytes) := do
  let (tag, bytes) ← readField 1 bytes
  match tag with
  | 0 => return (none, bytes)
  | 1 =>
      let (id, bytes) ← readField 4 bytes
      return (some (UInt32.ofNat id), bytes)
  | _ => .error (.optionTag (UInt8.ofNat tag))

/-- Takes the parameters off the front. -/
def readParams (bytes : Bytes) : Except RecordDamage (Params × Bytes) := do
  let (degree, bytes) ← readField 8 bytes
  let (baseDegree, bytes) ← readField 8 bytes
  let (buildBeam, bytes) ← readField 8 bytes
  let (levelScale, bytes) ← readField 8 bytes
  let (layerLimit, bytes) ← readField 8 bytes
  return (⟨UInt64.ofNat degree, UInt64.ofNat baseDegree, UInt64.ofNat buildBeam,
    ⟨UInt64.ofNat levelScale⟩, UInt64.ofNat layerLimit⟩, bytes)

/-- Takes the fields off the front. -/
def readPayload (bytes : Bytes) : Except RecordDamage (Metadata × Bytes) := do
  let (dimension, bytes) ← readField 4 bytes
  let (metric, bytes) ← readMetric bytes
  let (size, bytes) ← readField 8 bytes
  let (entryPoint, bytes) ← readOption bytes
  let (topLevel, bytes) ← readField 1 bytes
  let (params, bytes) ← readParams bytes
  return (⟨UInt32.ofNat dimension, metric, UInt64.ofNat size, entryPoint, UInt8.ofNat topLevel, params⟩,
    bytes)

/-- The description that a row holds. -/
def decode (bytes : Bytes) : Except StorageError Metadata :=
  match readWord 4 bytes with
  | none => .error (.corrupted .metadataTooShort)
  | some (version, payload) =>
      if supportedVersion.toNat < version then
        .error (.incompatibleVersion (UInt32.ofNat version) supportedVersion)
      else
        match readPayload payload with
        | .ok (metadata, _) => .ok metadata
        | .error damage => .error (.corrupted damage)

end Metadata

end VectorIndex
