import VectorIndex.Basic
import VectorIndex.Metric
import VectorIndex.Number.Double

/-!
# `VectorIndex.Error` — why a call failed

Errors are kept by cause; their wording is in the `message` functions and nowhere else. Every error except
`Error.storage` means that the call was rejected before anything was applied.

## Contents
- **Causes.** `ParameterFault`, `VectorFault`, `RecordDamage`, `BackendFault`, `StorageError`, `Error`. Where
  a cause can also come from outside the library, a constructor `other` carries its wording.
- **Wording.** `Error.message`.
- **Recovery.** `Error.requiresReopen`: whether the database should be closed and opened again.
-/

namespace VectorIndex

/-! ## Causes -/

/-- What is wrong with a parameter. -/
inductive ParameterFault where
  | dimension
  | degree (degree : UInt64)
  | baseDegree (baseDegree degree : UInt64)
  | buildBeam
  | levelScale (scale : Double)
  | layerLimit (limit : UInt64)
  | other (text : String)
deriving DecidableEq

/-- What is wrong with a vector. -/
inductive VectorFault where
  | component (position : Nat) (value : Single)
  | other (text : String)
deriving DecidableEq

/-- What is wrong with stored data. -/
inductive RecordDamage where
  | nodeTooShort
  | nodeChecksum
  | nodeTruncated
  | nodeWithoutLayers
  | nodeTrailingBytes
  | metadataTooShort
  | metadataEnd
  | metricIndex (index : UInt32)
  | optionTag (tag : UInt8)
  | entryPoint (id : ItemId)
  | item (id : ItemId)
  | unattachable (id : ItemId)
  | other (text : String)
deriving DecidableEq

/-- What the file of a database reports. -/
inductive BackendFault where
  | alreadyOpen
  | unreadable
  | tableType (name : String)
  | tableMissing (name : String)
  | damaged (text : String)
deriving DecidableEq

/-- Failures of the file or of what is stored in it. -/
inductive StorageError where
  | unavailable (text : String)
  | backend (fault : BackendFault)
  | corrupted (damage : RecordDamage)
  | incompatibleVersion (found supported : UInt32)
  | full (required limit : UInt64)
  | serialization (text : String)
deriving DecidableEq

/-- Why a call failed. -/
inductive Error where
  | dimensionMismatch (expected actual : Nat)
  | metricMismatch (expected actual : Metric)
  | duplicateId (id : ItemId)
  | itemNotFound (id : ItemId)
  | indexNotFound (index : IndexId)
  | writerBusy (index : IndexId)
  | indexLimitReached (index : IndexId) (max : UInt32)
  | invalidVector (fault : VectorFault)
  | invalidParameter (fault : ParameterFault)
  | storage (error : StorageError)
deriving DecidableEq

/-- Stored data is damaged. -/
def Error.corrupted (damage : RecordDamage) : Error := .storage (.corrupted damage)

/-- The file failed. -/
def Error.backend (fault : BackendFault) : Error := .storage (.backend fault)

/-! ## Wording -/

namespace ParameterFault

/-- The wording of a parameter fault. -/
def message : ParameterFault → String
  | .dimension => "dimension must be at least 1"
  | .degree m => s!"m must be at least 2, got {m}"
  | .baseDegree base m => s!"m_max0 ({base}) must be at least m ({m})"
  | .buildBeam => "ef_construction must be positive"
  | .levelScale scale => s!"ml must be positive, got {scale.text}"
  | .layerLimit limit => s!"max_layers must be within 1..=255, got {limit}"
  | .other text => text

end ParameterFault

namespace VectorFault

/-- The wording of a vector fault. -/
def message : VectorFault → String
  | .component position value => s!"component {position} is {value.text}"
  | .other text => text

end VectorFault

namespace RecordDamage

/-- The wording of damage. -/
def message : RecordDamage → String
  | .nodeTooShort => "node record too small"
  | .nodeChecksum => "node checksum mismatch"
  | .nodeTruncated => "truncated node record"
  | .nodeWithoutLayers => "node without layers"
  | .nodeTrailingBytes => "trailing bytes after node"
  | .metadataTooShort => "metadata record too small"
  | .metadataEnd => "io error: unexpected end of file"
  | .metricIndex index => s!"invalid value: integer `{index}`, expected variant index 0 <= i < 4"
  | .optionTag tag => s!"tag for enum is not valid, found {tag}"
  | .entryPoint id => s!"entry point {id} does not resolve"
  | .item id => s!"item {id} does not resolve"
  | .unattachable id => s!"no reachable node can link to {id}"
  | .other text => text

end RecordDamage

namespace BackendFault

/-- The wording of a file fault. -/
def message : BackendFault → String
  | .alreadyOpen => "Database already open. Cannot acquire lock."
  | .unreadable => "DB corrupted: not a database file"
  | .tableType name => s!"Table '{name}' is of another type"
  | .tableMissing name => s!"Table '{name}' does not exist"
  | .damaged text => s!"DB corrupted: {text}"

end BackendFault

namespace StorageError

/-- The wording of a storage error. -/
def message : StorageError → String
  | .unavailable text => s!"IO error: {text}"
  | .backend fault => s!"Backend error: {fault.message}"
  | .corrupted damage => s!"Corrupted record: {damage.message}"
  | .incompatibleVersion found supported =>
      s!"Incompatible index version {found}, this engine supports up to {supported}"
  | .full required limit => s!"Map size exceeded: commit needs {required} bytes, limit is {limit}"
  | .serialization text => s!"Serialization error: {text}"

/-- The file can no longer be trusted while it is open. -/
def requiresReopen : StorageError → Bool
  | .unavailable _ | .backend _ | .corrupted _ => true
  | .incompatibleVersion _ _ | .full _ _ | .serialization _ => false

end StorageError

namespace Error

/-- The wording of an error. -/
def message : Error → String
  | .dimensionMismatch expected actual => s!"Dimension mismatch: expected {expected}, got {actual}"
  | .metricMismatch expected actual =>
      s!"Metric mismatch: index uses {expected.title}, got {actual.title}"
  | .duplicateId id => s!"Item {id} already exists"
  | .itemNotFound id => s!"Item not found: {id}"
  | .indexNotFound index => s!"Index not found: {index}"
  | .writerBusy index => s!"A writer is already open on index {index}"
  | .indexLimitReached index max =>
      s!"Cannot create index {index}: the database already holds {max} indexes"
  | .invalidVector fault => s!"Invalid vector: {fault.message}"
  | .invalidParameter fault => s!"Invalid parameter: {fault.message}"
  | .storage error => s!"Storage error: {error.message}"

/-- Rejections leave the database usable; after a failure of the file it should be opened again. -/
def requiresReopen : Error → Bool
  | .storage error => error.requiresReopen
  | _ => false

end Error

end VectorIndex
