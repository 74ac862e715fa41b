import VectorIndex.Number.Decimal

/-!
# `VectorIndex.Number.Single` — binary32 numbers, kept by their bits

A stored component must come back bit for bit, also when it is a NaN with a payload, and distances are
ranked by a total order that tells `-0.0` from `0.0`. So a number is its 32 bits, and arithmetic goes
through `Single.value`.

## Contents
- **Numbers.** `Single`, `value`, `ofValue`, and the IEEE comparison `lt`.
- **Total order.** `rankKey` maps the bit patterns to integers so that their order is the total order of
  IEEE 754: negative numbers reversed, `-0.0` below `0.0`, NaNs at both ends. `rankKey_inj` says that no
  two patterns share a key.
- **Text.** `Single.text`, the form that messages show.
-/

namespace VectorIndex

/-- A binary32 number, by its bits. -/
structure Single where
  bits : UInt32
deriving DecidableEq, Inhabited

namespace Single

/-- The number that the bits denote; every NaN denotes the same value. -/
def value (x : Single) : Float32 := Float32.ofBits x.bits

/-- The bits of a number. -/
def ofValue (x : Float32) : Single := ⟨x.toBits⟩

/-- Positive infinity. -/
def infinity : Single := ⟨0x7f800000⟩

/-- The IEEE comparison: false when a side is a NaN, and `-0.0` is not below `0.0`. -/
def lt (x y : Single) : Bool := x.value < y.value

/-- Neither infinite nor a NaN: the exponent field is not all ones. -/
def isFinite (x : Single) : Bool := x.bits &&& 0x7f800000 != 0x7f800000

/-! ## The total order -/

/-- The place of a bit pattern in the total order: the negative patterns come first, in reverse. -/
def rankKey (x : Single) : UInt32 :=
  if x.bits < 0x80000000 then x.bits + 0x80000000 else 0xffffffff - x.bits

theorem toNat_rankKey (x : Single) :
    x.rankKey.toNat =
      if x.bits.toNat < 0x80000000 then x.bits.toNat + 0x80000000 else 0xffffffff - x.bits.toNat := by
  have hx := x.bits.toNat_lt
  unfold rankKey
  by_cases hlt : x.bits < 0x80000000
  · have hn : x.bits.toNat < 0x80000000 := by simpa [UInt32.lt_iff_toNat_lt] using hlt
    rw [if_pos hlt, if_pos hn, UInt32.toNat_add]
    simp only [UInt32.reduceToNat]
    omega
  · have hn : ¬ x.bits.toNat < 0x80000000 := by simpa [UInt32.lt_iff_toNat_lt] using hlt
    rw [if_neg hlt, if_neg hn, UInt32.toNat_sub_of_le]
    · rfl
    · simp only [UInt32.le_iff_toNat_le, UInt32.reduceToNat]
      omega

/-- Different bit patterns have different places. -/
theorem rankKey_inj {x y : Single} (h : x.rankKey = y.rankKey) : x = y := by
  have hx := x.bits.toNat_lt
  have hy := y.bits.toNat_lt
  have hbits : x.bits = y.bits := by
    apply UInt32.toNat_inj.mp
    have hkeys := congrArg UInt32.toNat h
    rw [toNat_rankKey, toNat_rankKey] at hkeys
    split at hkeys <;> split at hkeys <;> omega
  cases x
  cases y
  exact congrArg mk hbits

/-! ## Text -/

/-- A finite number without its sign, `none` for zero. -/
def magnitude (x : Single) : Option Dyadic :=
  let exponent := (x.bits >>> 23 &&& 0xff).toNat
  let fraction := (x.bits &&& 0x7fffff).toNat
  if exponent = 0 then
    if fraction = 0 then none else some ⟨fraction, -149, false⟩
  else some ⟨fraction + 0x800000, exponent - 150, fraction = 0 ∧ 1 < exponent⟩

/-- The number as messages show it: the fewest digits that read back, in positional notation. -/
def text (x : Single) : String :=
  let sign := if x.bits < 0x80000000 then "" else "-"
  if x.isFinite then
    match x.magnitude with
    | none => sign ++ "0"
    | some m => sign ++ m.shortest.text
  else if x.bits &&& 0x7fffff = 0 then sign ++ "inf"
  else "NaN"

end Single

end VectorIndex
