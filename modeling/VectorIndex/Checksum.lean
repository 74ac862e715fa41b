import VectorIndex.Basic

/-!
# `VectorIndex.Checksum` — the CRC-32 of a record

The cyclic redundancy check of IEEE 802.3 in its reflected form: the register starts and ends inverted, and
a byte enters at the low end.

## Contents
- `crcShift`, `crcByte`, `crc32`.
-/

namespace VectorIndex

/-- One step of the division by the reflected polynomial. -/
def crcShift (register : UInt32) : UInt32 :=
  if register &&& 1 = 1 then register >>> 1 ^^^ 0xedb88320 else register >>> 1

/-- The register after one more byte. -/
def crcByte (register : UInt32) (byte : UInt8) : UInt32 :=
  Nat.repeat crcShift 8 (register ^^^ byte.toUInt32)

/-- The CRC-32 of a byte sequence. -/
def crc32 (bytes : Bytes) : UInt32 := bytes.foldl crcByte 0xffffffff ^^^ 0xffffffff

/-- The check value of the standard: the CRC-32 of the digits 1 to 9. -/
example : crc32 [49, 50, 51, 52, 53, 54, 55, 56, 57] = 0xcbf43926 := by decide +kernel

end VectorIndex
