import VectorIndex.Bytes
import VectorIndex.Checksum
import VectorIndex.Error
import VectorIndex.Node

/-!
# `VectorIndex.Node.Codec` — the stored form of a node

A record is a checksum and a payload. The payload is the number of layers in one byte, the dimension, the
components, and for each layer the number of links and the links. Words are little-endian and, but for the
first byte, four bytes wide.

## Contents
- **Writing.** `Node.payload`, `Node.encode`.
- **Reading.** `Node.decode` accepts only what `encode` writes; `Node.decodeLevel` looks no further than the
  layer count. Both check the checksum first.
-/

namespace VectorIndex
namespace Node

/-! ## Writing -/

/-- Words of four bytes, one after the other. -/
def wordsBytes (words : List UInt32) : Bytes := words.flatMap fun word => wordBytes 4 word.toNat

/-- One layer: how many links, then the links. -/
def layerBytes (links : List ItemId) : Bytes := wordBytes 4 links.length ++ wordsBytes links

/-- The record without its checksum. -/
def payload (node : Node) : Bytes :=
  UInt8.ofNat node.links.length ::
    (wordBytes 4 node.embedding.length ++ wordsBytes (node.embedding.map Single.bits) ++
      node.links.flatMap layerBytes)

/-- The stored form of a node. -/
def encode (node : Node) : Bytes := wordBytes 4 (crc32 node.payload).toNat ++ node.payload

/-! ## Reading -/

/-- Takes the link lists of `count` layers off the front. -/
def readLayers : Nat → Bytes → Option (List (List ItemId) × Bytes)
  | 0, bytes => some ([], bytes)
  | count + 1, bytes => do
      let (length, bytes) ← readWord 4 bytes
      let (links, bytes) ← readWords length bytes
      let (layers, bytes) ← readLayers count bytes
      return (links :: layers, bytes)

/-- Takes a node of `layers` layers off the front. -/
def readNode (layers : Nat) (bytes : Bytes) : Option (Node × Bytes) := do
  let (dimension, bytes) ← readWord 4 bytes
  let (components, bytes) ← readWords dimension bytes
  let (links, bytes) ← readLayers layers bytes
  return (⟨components.map Single.mk, links⟩, bytes)

/-- The payload of a record whose checksum holds. -/
def checkedPayload (bytes : Bytes) : Except RecordDamage Bytes :=
  match readWord 4 bytes with
  | none => .error .nodeTooShort
  | some (checksum, payload) =>
      if (crc32 payload).toNat = checksum then .ok payload else .error .nodeChecksum

/-- The layer count at the front of a payload, at least one, and the rest. -/
def layerCount (payload : Bytes) : Except RecordDamage (Nat × Bytes) :=
  match payload with
  | [] => .error .nodeTruncated
  | count :: rest => if count = 0 then .error .nodeWithoutLayers else .ok (count.toNat, rest)

/-- The node that a record holds. -/
def decode (bytes : Bytes) : Except RecordDamage Node := do
  let payload ← checkedPayload bytes
  let (layers, body) ← layerCount payload
  match readNode layers body with
  | none => .error .nodeTruncated
  | some (node, []) => .ok node
  | some (_, _ :: _) => .error .nodeTrailingBytes

/-- The level of the node that a record holds, from the front of the record. -/
def decodeLevel (bytes : Bytes) : Except RecordDamage Nat := do
  let payload ← checkedPayload bytes
  let (layers, _) ← layerCount payload
  return layers - 1

end Node
end VectorIndex
