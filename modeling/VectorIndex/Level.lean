import VectorIndex.Number.Double

/-!
# `VectorIndex.Level` — the level of a new node

A node's level falls off exponentially, so each layer holds a fixed share of the one below it.

## Contents
- `levelOfDraw`.
-/

namespace VectorIndex

/-- `2^-53`, the spacing of the 53-bit fractions. -/
def fractionUnit : Float := Float.ofBits 0x3ca0000000000000

/-- The level for a 64-bit draw: minus the logarithm of a number in `(0, 1]`, times the scale, cut to an
integer from 0 up to the last layer. A product that is a NaN or negative counts as 0. With a single layer
no draw matters. -/
def levelOfDraw (draw : UInt64) (scale : Double) (layerLimit : UInt64) : Nat :=
  if layerLimit ≤ 1 then 0
  else
    let fraction := (draw >>> 11).toFloat * fractionUnit
    min (-(1 - fraction).log * scale.value).toUInt64.toNat (layerLimit.toNat - 1)

/-- A level is below the limit, if there is any room below it. -/
theorem levelOfDraw_lt {draw : UInt64} {scale : Double} {layerLimit : UInt64}
    (h : 0 < layerLimit.toNat) : levelOfDraw draw scale layerLimit < layerLimit.toNat := by
  unfold levelOfDraw
  split
  · exact h
  · simp only
    omega

end VectorIndex
