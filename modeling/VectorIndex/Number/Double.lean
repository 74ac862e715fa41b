import VectorIndex.Number.Decimal

/-!
# `VectorIndex.Number.Double` — binary64 numbers, kept by their bits

The level scale of an index is a binary64 number that is stored and read back bit for bit.

## Contents
- **Numbers.** `Double`, `value`, `ofValue`, and the test `isPositiveFinite` that parameters must pass.
- **Text.** `Double.text`, the form that messages show.
-/

namespace VectorIndex

/-- A binary64 number, by its bits. -/
structure Double where
  bits : UInt64
deriving DecidableEq, Inhabited

namespace Double

/-- The number that the bits denote; every NaN denotes the same value. -/
def value (x : Double) : Float := Float.ofBits x.bits

/-- The bits of a number. -/
def ofValue (x : Float) : Double := ⟨x.toBits⟩

/-- Neither infinite nor a NaN: the exponent field is not all ones. -/
def isFinite (x : Double) : Bool := x.bits &&& 0x7ff0000000000000 != 0x7ff0000000000000

/-- The sign bit is set. -/
def isSigned (x : Double) : Bool := 0x8000000000000000 ≤ x.bits

/-- Finite and greater than zero. -/
def isPositiveFinite (x : Double) : Bool := x.isFinite && !x.isSigned && x.bits != 0

/-! ## Text -/

/-- A finite number without its sign, `none` for zero. -/
def magnitude (x : Double) : Option Dyadic :=
  let exponent := (x.bits >>> 52 &&& 0x7ff).toNat
  let fraction := (x.bits &&& 0xfffffffffffff).toNat
  if exponent = 0 then
    if fraction = 0 then none else some ⟨fraction, -1074, false⟩
  else some ⟨fraction + 0x10000000000000, exponent - 1075, fraction = 0 ∧ 1 < exponent⟩

/-- The number as messages show it: the fewest digits that read back, in positional notation. -/
def text (x : Double) : String :=
  let sign := if x.isSigned then "-" else ""
  if x.isFinite then
    match x.magnitude with
    | none => sign ++ "0"
    | some m => sign ++ m.shortest.text
  else if x.bits &&& 0xfffffffffffff = 0 then sign ++ "inf"
  else "NaN"

end Double

end VectorIndex
