import Mathlib
import VectorIndex.Metric
import VectorIndex.Neighbor

/-!
# `VectorIndex.Proofs.Comparison` — how binary32 numbers compare

A number that is not a NaN has a place on the number line, `Single.place`: its bits without the sign, negated
for a negative number, so that both zeros are at `0`. The IEEE comparisons compare places (`Single.lt_iff`,
`Single.beq_iff`). The total order, by which neighbours are sorted, refines them: it only adds an order
between the zeros and a position for NaNs (`Single.rankKey_lt_of_place_lt`). A metric never ranks by a NaN
(`Metric.isNaN_rank`), so for distances the two agree up to the sign of a zero.

The whole of Mathlib is imported for one lemma of Batteries, `pack_unpack`, which no smaller module of Mathlib brings.

## Contents
- **Fields.** `Unpacked`, what the fields of a bit pattern say; the comparison of unpacked numbers is that of
  their signed bits (`Unpacked.compare_eq`).
- **Numbers.** `Single.isNaN`, `Single.place`, `Single.lt_iff`, `Single.beq_iff`.
- **Total order.** `Single.rankKey_lt_of_place_lt`, `Neighbor.place_le_of_le`.
- **Distances.** `Metric.isNaN_rank`.
-/

namespace VectorIndex

open Float.Model (Format UnpackedFloat)
open Float.Model.UnpackedFloat

/-! ## Fields -/

/-- An unpacked number of the sign `s` whose bits without the sign are `n`: exponents start at -149, and only
    the smallest exponent has significands without the leading bit. -/
inductive Unpacked (s : Sign) : Nat → UnpackedFloat → Prop
  | zero : Unpacked s 0 (.zero s)
  | finite {n m : Nat} {e : Int} (hpos : 0 < m) (hm : m < 0x1000000) (hlow : -149 ≤ e) (hhigh : e ≤ 104)
      (hnormal : 0x800000 ≤ m ∨ e = -149) (hn : (n : Int) = m + (e + 149) * 0x800000) :
      Unpacked s n (.finite s m e hpos)
  | infinity : Unpacked s (0x7f800000) (.infinity s)
  | notANumber {n : Nat} (hn : 0x7f800000 < n) : Unpacked s n .notANumber

/-- The sign of a bit pattern. -/
def signOf (b : BitVec Format.binary32.numBits) : Sign := if b.toNat < 0x80000000 then .positive else .negative

theorem toNat_unpackMantissa (b : BitVec Format.binary32.numBits) :
    (unpackMantissa b).toNat = b.toNat % 0x800000 := by
  simp [unpackMantissa, BitVec.extractLsb_toNat]

theorem toNat_unpackExponent (b : BitVec Format.binary32.numBits) :
    (unpackExponent b).toNat = b.toNat / 0x800000 % 256 := by
  simp [unpackExponent, BitVec.extractLsb_toNat, Nat.shiftRight_eq_div_pow]

theorem ofBitVec_unpackSign (b : BitVec Format.binary32.numBits) :
    Sign.ofBitVec (unpackSign b) = signOf b := by
  have hb : b.toNat < 0x100000000 := b.isLt
  have hsign : (unpackSign b).toNat = b.toNat / 0x80000000 % 2 := by
    simp [unpackSign, BitVec.extractLsb_toNat, Nat.shiftRight_eq_div_pow]
  unfold Sign.ofBitVec signOf
  by_cases hlt : b.toNat < 0x80000000
  · rw [if_pos hlt, if_pos]
    apply BitVec.eq_of_toNat_eq
    rw [hsign]
    simp
    omega
  · rw [if_neg hlt, if_neg]
    intro h
    have := congrArg BitVec.toNat h
    rw [hsign] at this
    simp at this
    omega

theorem toNat_implicitBit (v : BitVec 23) : (1#1 ++ v).toNat = 0x800000 + v.toNat := by
  rw [BitVec.toNat_append, ← Nat.shiftLeft_add_eq_or_of_lt v.isLt]
  simp [Nat.shiftLeft_eq]

/-- What a bit pattern unpacks to. -/
theorem unpacked_unpack (b : BitVec Format.binary32.numBits) :
    Unpacked (signOf b) (b.toNat % 0x80000000) (UnpackedFloat.unpack .binary32 b) := by
  have hb : b.toNat < 0x100000000 := b.isLt
  have hmantissa := toNat_unpackMantissa b
  have hexponent := toNat_unpackExponent b
  have hbias : ((Format.binary32.exponentBias : Nat) : Int) = 127 := rfl
  have hones : unpackExponent b = -1#8 ↔ b.toNat / 0x800000 % 256 = 255 := by
    rw [← BitVec.toNat_inj, hexponent]
    exact Iff.rfl
  have hnone : unpackExponent b = 0#8 ↔ b.toNat / 0x800000 % 256 = 0 := by
    rw [← BitVec.toNat_inj, hexponent]
    exact Iff.rfl
  have hempty : unpackMantissa b = 0#23 ↔ b.toNat % 0x800000 = 0 := by
    rw [← BitVec.toNat_inj, hmantissa]
    exact Iff.rfl
  unfold UnpackedFloat.unpack
  dsimp only
  rw [ofBitVec_unpackSign]
  by_cases h255 : unpackExponent b = -1#8
  · rw [if_pos h255]
    have hn := hones.mp h255
    by_cases hzero : unpackMantissa b = 0#23
    · rw [if_pos hzero]
      have hm := hempty.mp hzero
      rw [show b.toNat % 0x80000000 = 0x7f800000 by omega]
      exact .infinity
    · rw [if_neg hzero]
      exact .notANumber (by have := mt hempty.mpr hzero; omega)
  · rw [if_neg h255]
    have hn := mt hones.mpr h255
    by_cases h0 : unpackExponent b = 0#8
    · rw [if_pos h0]
      have hn0 := hnone.mp h0
      by_cases hzero : unpackMantissa b = 0#23
      · rw [dif_pos hzero]
        have hm := hempty.mp hzero
        rw [show b.toNat % 0x80000000 = 0 by omega]
        exact .zero
      · rw [dif_neg hzero]
        have hm := mt hempty.mpr hzero
        refine .finite _ ?_ ?_ ?_ ?_ ?_ <;> omega
    · rw [if_neg h0]
      have hn0 := mt hnone.mpr h0
      have himplicit := toNat_implicitBit (unpackMantissa b)
      refine .finite _ ?_ ?_ ?_ ?_ ?_ <;> omega

/-- Packing what was unpacked loses nothing but the payload of a NaN. -/
theorem unpack_pack_unpack (b : BitVec Format.binary32.numBits) :
    UnpackedFloat.unpack .binary32 (UnpackedFloat.pack .binary32 (UnpackedFloat.unpack .binary32 b)) =
      UnpackedFloat.unpack .binary32 b := by
  rw [pack_unpack b]
  by_cases hnan : isNaNBits b = true
  · rw [if_pos hnan, unpack_packedNaN]
    rw [isNaNBits, decide_eq_true_eq] at hnan
    simp [UnpackedFloat.unpack, hnan]
  · rw [if_neg hnan]

/-- The exponent decides first, then the significand: together they are compared as one number. -/
theorem compare_finite {n n' m m' : Nat} {e e' : Int} (hm : m < 0x1000000) (hm' : m' < 0x1000000)
    (hlow : -149 ≤ e) (hlow' : -149 ≤ e') (hnormal : 0x800000 ≤ m ∨ e = -149)
    (hnormal' : 0x800000 ≤ m' ∨ e' = -149) (hn : (n : Int) = m + (e + 149) * 0x800000)
    (hn' : (n' : Int) = m' + (e' + 149) * 0x800000) :
    (compare e e').then (compare m m') = compare (n : Int) n' := by
  rcases Int.lt_trichotomy e e' with hlt | rfl | hgt
  · rw [Int.compare_eq_lt.mpr hlt, Int.compare_eq_lt.mpr (by omega)]
    rfl
  · rw [Int.compare_eq_eq.mpr rfl]
    rcases Nat.lt_trichotomy m m' with hlt | rfl | hgt
    · rw [Nat.compare_eq_lt.mpr hlt, Int.compare_eq_lt.mpr (by omega)]
      rfl
    · rw [Nat.compare_eq_eq.mpr rfl, Int.compare_eq_eq.mpr (by omega)]
      rfl
    · rw [Nat.compare_eq_gt.mpr hgt, Int.compare_eq_gt.mpr (by omega)]
      rfl
  · rw [Int.compare_eq_gt.mpr hgt, Int.compare_eq_gt.mpr (by omega)]
    rfl

theorem compare_neg_neg (a b : Int) : compare (-a) (-b) = (compare a b).swap := by
  rcases Int.lt_trichotomy a b with hlt | rfl | hgt
  · rw [Int.compare_eq_lt.mpr hlt, Int.compare_eq_gt.mpr (by omega)]
    rfl
  · rw [Int.compare_eq_eq.mpr rfl, Int.compare_eq_eq.mpr rfl]
    rfl
  · rw [Int.compare_eq_gt.mpr hgt, Int.compare_eq_lt.mpr (by omega)]
    rfl

/-- The sign of the greater magnitude decides. -/
theorem compare_apply_of_lt {s t : Sign} {n m : Nat} (h : n < m) :
    compare (s.apply n) (t.apply m) = match t with | .negative => Ordering.gt | .positive => Ordering.lt := by
  cases t with
  | negative => exact Int.compare_eq_gt.mpr (by cases s <;> simp only [Sign.apply] <;> omega)
  | positive => exact Int.compare_eq_lt.mpr (by cases s <;> simp only [Sign.apply] <;> omega)

theorem compare_apply_of_gt {s t : Sign} {n m : Nat} (h : m < n) :
    compare (s.apply n) (t.apply m) = match s with | .negative => Ordering.lt | .positive => Ordering.gt := by
  cases s with
  | negative => exact Int.compare_eq_lt.mpr (by cases t <;> simp only [Sign.apply] <;> omega)
  | positive => exact Int.compare_eq_gt.mpr (by cases t <;> simp only [Sign.apply] <;> omega)

/-- Two numbers compare as their signed bits do. -/
theorem Unpacked.compare_eq {s t : Sign} {n m : Nat} {u v : UnpackedFloat} (hu : Unpacked s n u)
    (hv : Unpacked t m v) (hn : n ≤ 0x7f800000) (hm : m ≤ 0x7f800000) :
    u.compare v = some (compare (s.apply n) (t.apply m)) := by
  cases hu with
  | notANumber hnan => omega
  | zero =>
      cases hv with
      | notANumber hnan => omega
      | zero => cases s <;> cases t <;> rfl
      | finite hpos =>
          rw [compare_apply_of_lt (by omega)]
          cases t <;> rfl
      | infinity =>
          rw [compare_apply_of_lt (by omega)]
          cases t <;> rfl
  | @finite _ m₁ e₁ hpos₁ hm₁ hlow₁ hhigh₁ hnormal₁ hn₁ =>
      cases hv with
      | notANumber hnan => omega
      | zero =>
          rw [compare_apply_of_gt (by omega)]
          cases s <;> rfl
      | @finite _ m₂ e₂ hpos₂ hm₂ hlow₂ hhigh₂ hnormal₂ hn₂ =>
          have hfinite := compare_finite hm₁ hm₂ hlow₁ hlow₂ hnormal₁ hnormal₂ hn₁ hn₂
          cases s with
          | negative =>
              cases t with
              | negative =>
                  show some ((compare e₁ e₂).then (compare m₁ m₂)).swap = some (compare (-(n : Int)) (-(m : Int)))
                  rw [compare_neg_neg, hfinite]
              | positive => exact congrArg some (Int.compare_eq_lt.mpr (by simp only [Sign.apply]; omega)).symm
          | positive =>
              cases t with
              | negative => exact congrArg some (Int.compare_eq_gt.mpr (by simp only [Sign.apply]; omega)).symm
              | positive => exact congrArg some hfinite
      | infinity =>
          rw [compare_apply_of_lt (by omega)]
          cases t <;> rfl
  | infinity =>
      cases hv with
      | notANumber hnan => omega
      | zero =>
          rw [compare_apply_of_gt (by omega)]
          cases s <;> rfl
      | finite hpos =>
          rw [compare_apply_of_gt (by omega)]
          cases s <;> rfl
      | infinity => cases s <;> cases t <;> rfl

theorem Unpacked.eq_notANumber_iff {s : Sign} {n : Nat} {u : UnpackedFloat} (h : Unpacked s n u) :
    u = .notANumber ↔ 0x7f800000 < n := by
  cases h with
  | zero => simp
  | finite hpos hm hlow hhigh hnormal hn => simp; omega
  | infinity => simp
  | notANumber hn => simp [hn]

/-! ## Numbers -/

namespace Single

/-- The bits without the sign. -/
def magnitudeBits (x : Single) : Nat := x.bits.toNat % 0x80000000

/-- Not a number: the exponent field is all ones and the significand is not zero. -/
def isNaN (x : Single) : Bool := 0x7f800000 < x.magnitudeBits

/-- The place on the number line: the bits without the sign, negated for a negative number. -/
def place (x : Single) : Int := if x.bits.toNat < 0x80000000 then x.magnitudeBits else -x.magnitudeBits

/-- The fields of a number. -/
abbrev unpacked (x : Single) : UnpackedFloat := UnpackedFloat.unpack .binary32 x.bits.toBitVec

theorem unpacked_value (x : Single) : x.value.toModel.unpack = x.unpacked :=
  unpack_pack_unpack x.bits.toBitVec

theorem unpacked_eq_notANumber_iff (x : Single) : x.unpacked = .notANumber ↔ x.isNaN = true := by
  rw [isNaN, decide_eq_true_eq]
  exact (unpacked_unpack x.bits.toBitVec).eq_notANumber_iff

/-- The IEEE comparison is that of places, and a NaN compares with nothing. -/
theorem compare_unpacked (x y : Single) :
    x.unpacked.compare y.unpacked =
      if x.isNaN || y.isNaN then none else some (compare x.place y.place) := by
  by_cases hx : x.isNaN = true
  · rw [(unpacked_eq_notANumber_iff x).mpr hx, hx]
    rfl
  · by_cases hy : y.isNaN = true
    · rw [(unpacked_eq_notANumber_iff y).mpr hy, hy, Bool.or_true, if_pos rfl]
      cases x.unpacked <;> rfl
    · have hplace : ∀ z : Single, (signOf z.bits.toBitVec).apply z.magnitudeBits = z.place := by
        intro z
        unfold signOf place
        by_cases hsign : z.bits.toNat < 0x80000000
        · rw [if_pos hsign, if_pos (by exact hsign)]
          rfl
        · rw [if_neg hsign, if_neg (by exact hsign)]
          rfl
      rw [if_neg (by simp [hx, hy]), ← hplace x, ← hplace y]
      rw [isNaN, decide_eq_true_eq, Nat.not_lt] at hx hy
      exact (unpacked_unpack x.bits.toBitVec).compare_eq (unpacked_unpack y.bits.toBitVec) hx hy

/-- A number is below another when its place is; a NaN is below nothing and above nothing. -/
theorem lt_iff {x y : Single} :
    x.lt y = true ↔ x.isNaN = false ∧ y.isNaN = false ∧ x.place < y.place := by
  have hcompare : x.lt y = (x.unpacked.compare y.unpacked == some .lt) := by
    rw [← unpacked_value, ← unpacked_value, Bool.eq_iff_iff]
    calc x.lt y = true ↔ x.value < y.value := decide_eq_true_iff
      _ ↔ x.value.toModel < y.value.toModel := decide_eq_true_iff
      _ ↔ _ := Iff.rfl
  rw [hcompare, compare_unpacked]
  cases x.isNaN <;> cases y.isNaN <;> simp [Int.compare_eq_lt]

/-- Numbers are equal when their places are; a NaN is equal to nothing. -/
theorem beq_iff {x y : Single} :
    (x.value == y.value) = true ↔ x.isNaN = false ∧ y.isNaN = false ∧ x.place = y.place := by
  have hcompare : (x.value == y.value) = (x.unpacked.compare y.unpacked == some .eq) := by
    rw [← unpacked_value, ← unpacked_value]
    rfl
  rw [hcompare, compare_unpacked]
  cases x.isNaN <;> cases y.isNaN <;> simp

/-- The bits of a value say whether it is a NaN. -/
theorem isNaN_ofValue (d : Float32) : (ofValue d).isNaN = d.isNaN := by
  have hunpacked : d.isNaN = (ofValue d).unpacked.isNaN := rfl
  rw [hunpacked, Bool.eq_iff_iff, ← unpacked_eq_notANumber_iff]
  cases (ofValue d).unpacked <;> simp [UnpackedFloat.isNaN]

/-! ## Total order -/

/-- The total order refines the order of places. -/
theorem rankKey_lt_of_place_lt {x y : Single} (h : x.place < y.place) : x.rankKey < y.rankKey := by
  have hx := x.bits.toNat_lt
  have hy := y.bits.toNat_lt
  rw [UInt32.lt_iff_toNat_lt, toNat_rankKey, toNat_rankKey]
  unfold place magnitudeBits at h
  by_cases hpx : x.bits.toNat < 0x80000000 <;> by_cases hpy : y.bits.toNat < 0x80000000 <;>
    simp only [hpx, hpy, if_true, if_false] at h ⊢ <;> omega

end Single

/-- A neighbour that comes first is not further. -/
theorem Neighbor.place_le_of_le {a b : Neighbor} (h : a.le b = true) : a.distance.place ≤ b.distance.place := by
  apply Int.not_lt.mp
  intro hlt
  have hkey := Single.rankKey_lt_of_place_lt hlt
  have hgt : compare a b = .gt := by
    rw [Neighbor.compare_def, Std.compare_eq_gt.mpr hkey]
    rfl
  rw [Neighbor.le, hgt] at h
  cases h

/-! ## Distances -/

/-- A metric never ranks by a NaN. -/
theorem Metric.isNaN_rank (metric : Metric) (a b : Embedding) : (metric.rank a b).isNaN = false := by
  unfold Metric.rank
  by_cases hnan : (metric.measure a b).isNaN = true
  · simp only [hnan, if_true]
    decide
  · simp only [hnan]
    rw [if_neg (by simp), Single.isNaN_ofValue]
    exact eq_false_of_ne_true hnan

end VectorIndex
