import VectorIndex.Distance
import VectorIndex.Proofs.Rounding

/-!
# `VectorIndex.Proofs.Symmetry` — the distance from here to there is the distance back

Rounding treats both signs alike, so `x - y` and `y - x` differ in the sign and in nothing else, and none of the
measures can tell them apart (`sq_sub_comm_value`, `abs_sub_comm_value`). The sums go through the components in the
same order from both ends. What is left are NaNs: a measure that is one ranks as infinitely far, and the square root
that a caller is told is taken of a sum of squares, which is never negative (`notNegative_squaredEuclidean`): it starts
at a negative zero, and loses that sign with its first term (`unsigned_sumOver`).

## Contents
- **Signs.** `abs_roundWithAccuracy`, `abs_normalize_neg`, `abs_sub_unpacked`, `abs_repacked`.
- **Operations.** `mul_comm_value`, `abs_sub_comm_value`, `sq_sub_comm_value`.
- **Measures.** `sumOver_comm`, `Metric.rank_comm`.
- **No NaN.** `Unsigned` and `NotNegative`, through sums; `repacked_eq_notANumber`, `Metric.isNaN_report`.
- **Distances.** `Metric.rank_total`, `Metric.distance_symmetric`.
-/

namespace VectorIndex

open Float.Model (Format UnpackedFloat)
open Float.Model.UnpackedFloat

/-! ## Signs -/

theorem sign_mul_comm (s t : Sign) : s * t = t * s := by cases s <;> cases t <;> rfl

theorem sign_mul_self (s : Sign) : s * s = .positive := by cases s <;> rfl

theorem apply_sub_apply (s t : Sign) (m n : Int) : s.apply m - t.apply n = -(t.apply n - s.apply m) :=
  (Int.neg_sub _ _).symm

/-- The sign plays no part in rounding. -/
theorem abs_roundWithAccuracy (s t : Sign) (m : Nat) (e : Int) (accuracy : Accuracy) :
    (roundWithAccuracy .binary32 s m e accuracy).abs = (roundWithAccuracy .binary32 t m e accuracy).abs := by
  unfold roundWithAccuracy
  dsimp only
  split <;> rfl

/-- A number and its opposite are rounded to opposite numbers. -/
theorem abs_normalize_neg (m : Int) (e : Int) (s : Sign) :
    (UnpackedFloat.normalize .binary32 (-m) e s).abs = (UnpackedFloat.normalize .binary32 m e s).abs := by
  have hneg : (-(-m)).toNat = m.toNat := by rw [Int.neg_neg]
  unfold UnpackedFloat.normalize
  rcases Int.lt_trichotomy m 0 with hlt | rfl | hgt
  · rw [Int.compare_eq_lt.mpr hlt, Int.compare_eq_gt.mpr (by omega)]
    exact abs_roundWithAccuracy ..
  · rfl
  · rw [Int.compare_eq_gt.mpr hgt, Int.compare_eq_lt.mpr (by omega), hneg]
    exact abs_roundWithAccuracy ..

theorem abs_sub_unpacked (u v : UnpackedFloat) : (sub .binary32 u v).abs = (sub .binary32 v u).abs := by
  cases u with
  | notANumber => cases v <;> rfl
  | infinity s =>
      cases v with
      | infinity t => cases s <;> cases t <;> rfl
      | _ => rfl
  | zero s =>
      cases v with
      | zero t => cases s <;> cases t <;> rfl
      | _ => rfl
  | finite s m e hm =>
      cases v with
      | finite t n f hn =>
          unfold sub
          dsimp only
          rw [apply_sub_apply, abs_normalize_neg, min_comm]
      | _ => rfl

theorem unpackSign_packComponents (s : Sign) (e : BitVec 8) (m : BitVec 23) :
    Sign.ofBitVec (unpackSign (packComponents .binary32 s e m)) = s := by
  have he := e.isLt
  have hm := m.isLt
  rw [ofBitVec_unpackSign]
  unfold signOf
  rw [toNat_packComponents]
  cases s with
  | negative => exact if_neg (by simp only [signBit]; omega)
  | positive => exact if_pos (by simp only [signBit]; omega)

/-- What the fields of a number unpack to, whatever its sign. -/
theorem abs_unpack_packComponents (s t : Sign) (e : BitVec 8) (m : BitVec 23) :
    (UnpackedFloat.unpack .binary32 (packComponents .binary32 s e m)).abs =
      (UnpackedFloat.unpack .binary32 (packComponents .binary32 t e m)).abs := by
  unfold UnpackedFloat.unpack
  dsimp only
  rw [unpackSign_packComponents, unpackSign_packComponents]
  simp only [unpackMantissa_packComponents, unpackExponent_packComponents]
  split
  · split <;> rfl
  · split
    · split <;> rfl
    · rfl

theorem abs_repacked (u : UnpackedFloat) : (repacked u.abs).abs = (repacked u).abs := by
  cases u with
  | notANumber => rfl
  | infinity s => cases s <;> rfl
  | zero s => cases s <;> rfl
  | finite s m e hm =>
      obtain ⟨exponent, significand, hpack, -⟩ := pack_finite hm e
      unfold repacked
      show (UnpackedFloat.unpack .binary32 (pack .binary32 (.finite .positive m e hm))).abs = _
      rw [hpack, hpack]
      exact abs_unpack_packComponents ..

theorem abs_repacked_sub (u v : UnpackedFloat) :
    (repacked (sub .binary32 u v)).abs = (repacked (sub .binary32 v u)).abs := by
  rw [← abs_repacked, abs_sub_unpacked, abs_repacked]

/-! ## Operations -/

theorem mul_comm_unpacked (u v : UnpackedFloat) : mul .binary32 u v = mul .binary32 v u := by
  cases u <;> cases v <;> simp only [mul, sign_mul_comm, Nat.mul_comm, Int.add_comm]

/-- A square does not show the sign. -/
theorem mul_self_unpacked (u : UnpackedFloat) : mul .binary32 u u = mul .binary32 u.abs u.abs := by
  cases u <;> simp only [mul, UnpackedFloat.abs, sign_mul_self]

/-- The product is the same in both orders. -/
theorem mul_comm_value (x y : Float32) : x * y = y * x :=
  congrArg (fun u => Float32.ofModel (.pack u)) (mul_comm_unpacked x.toModel.unpack y.toModel.unpack)

/-- The difference and its opposite have one absolute value. -/
theorem abs_sub_comm_value (x y : Float32) : (x - y).abs = (y - x).abs :=
  congrArg (fun u => Float32.ofModel (.pack u)) (abs_repacked_sub x.toModel.unpack y.toModel.unpack)

/-- The difference and its opposite have one square. -/
theorem sq_sub_comm_value (x y : Float32) : (x - y) * (x - y) = (y - x) * (y - x) := by
  have hsq : ∀ d : Float32, d * d = .ofModel (.pack (mul .binary32 d.toModel.unpack.abs d.toModel.unpack.abs)) :=
    fun d => congrArg (fun u => Float32.ofModel (.pack u)) (mul_self_unpacked d.toModel.unpack)
  have habs : (x - y).toModel.unpack.abs = (y - x).toModel.unpack.abs :=
    abs_repacked_sub x.toModel.unpack y.toModel.unpack
  rw [hsq, hsq, habs]

/-! ## Measures -/

section Measures

variable (a b : Embedding)

/-- A sum of symmetric terms is symmetric, as both directions add in component order. -/
theorem sumOver_comm {f : Float32 → Float32 → Float32} (hf : ∀ x y, f x y = f y x) (acc : Float32) :
    sumOver f acc a b = sumOver f acc b a := by
  induction a generalizing acc b with
  | nil => cases b <;> rfl
  | cons x xs ih =>
      cases b with
      | nil => rfl
      | cons y ys =>
          unfold sumOver
          rw [hf, ih]

theorem dotProduct_comm : dotProduct a b = dotProduct b a := sumOver_comm a b mul_comm_value _

theorem cosineDistance_comm : cosineDistance a b = cosineDistance b a := by
  unfold cosineDistance
  dsimp only
  rw [dotProduct_comm a b, mul_comm_value (norm a)]
  cases norm a == 0 <;> cases norm b == 0 <;> rfl

theorem Metric.measure_comm (metric : Metric) : metric.measure a b = metric.measure b a := by
  cases metric with
  | euclidean => exact sumOver_comm a b sq_sub_comm_value _
  | cosine => exact cosineDistance_comm a b
  | manhattan => exact sumOver_comm a b abs_sub_comm_value _
  | dotProduct =>
      show -VectorIndex.dotProduct a b = -VectorIndex.dotProduct b a
      rw [dotProduct_comm]

theorem Metric.rank_comm (metric : Metric) : metric.rank a b = metric.rank b a := by
  unfold Metric.rank
  rw [Metric.measure_comm]

end Measures

/-! ## No NaN -/

/-- The sign bit is not set; a NaN has no sign. -/
def Unsigned (u : UnpackedFloat) : Prop := u.abs = u

/-- Neither below zero nor negative infinity; a negative zero may be. -/
def NotNegative : UnpackedFloat → Prop
  | .infinity s => s = .positive
  | .finite s _ _ _ => s = .positive
  | .zero _ => True
  | .notANumber => True

theorem unsigned_finite_iff {s : Sign} {m : Nat} {e : Int} {hm : 0 < m} :
    Unsigned (.finite s m e hm) ↔ s = .positive := by
  unfold Unsigned UnpackedFloat.abs
  simp [eq_comm]

theorem Unsigned.notNegative {u : UnpackedFloat} (h : Unsigned u) : NotNegative u := by
  cases u with
  | notANumber => trivial
  | infinity s => exact (UnpackedFloat.infinity.inj h).symm
  | zero s => trivial
  | finite s m e hm => exact unsigned_finite_iff.mp h

theorem unsigned_abs (u : UnpackedFloat) : Unsigned u.abs := by cases u <;> rfl

theorem unsigned_roundWithAccuracy (m : Nat) (e : Int) (accuracy : Accuracy) :
    Unsigned (roundWithAccuracy .binary32 .positive m e accuracy) := by
  unfold roundWithAccuracy
  dsimp only
  split <;> rfl

theorem unsigned_square (u : UnpackedFloat) : Unsigned (mul .binary32 u u) := by
  rw [mul_self_unpacked]
  cases u with
  | finite s m e hm => exact unsigned_roundWithAccuracy ..
  | _ => rfl

/-- A sum has the sign bit only if both of its parts have it. -/
theorem NotNegative.add_unsigned {u v : UnpackedFloat} (hu : NotNegative u) (hv : Unsigned v) :
    Unsigned (UnpackedFloat.add .binary32 u v) := by
  cases u with
  | notANumber => rfl
  | infinity s =>
      obtain rfl : s = .positive := hu
      cases v with
      | infinity t =>
          obtain rfl : t = .positive := hv.notNegative
          rfl
      | _ => rfl
  | zero s =>
      cases v with
      | zero t =>
          obtain rfl : Sign.positive = t := UnpackedFloat.zero.inj hv
          cases s <;> rfl
      | _ => exact hv
  | finite s m e hm =>
      obtain rfl : s = .positive := hu
      cases v with
      | finite t n f hn =>
          obtain rfl := unsigned_finite_iff.mp hv
          unfold UnpackedFloat.add UnpackedFloat.normalize
          dsimp only [Sign.apply]
          split
          · rename_i hlt
            rw [Int.compare_eq_lt] at hlt
            omega
          · rfl
          · exact unsigned_roundWithAccuracy ..
      | notANumber => rfl
      | infinity t => exact hv
      | zero t => rfl

theorem unsigned_unpack_packComponents (e : BitVec 8) (m : BitVec 23) :
    Unsigned (UnpackedFloat.unpack .binary32 (packComponents .binary32 .positive e m)) := by
  unfold UnpackedFloat.unpack
  dsimp only
  rw [unpackSign_packComponents]
  split
  · split <;> rfl
  · split
    · split <;> rfl
    · rfl

theorem Unsigned.repacked {u : UnpackedFloat} (hu : Unsigned u) : Unsigned (repacked u) := by
  cases u with
  | notANumber => rfl
  | infinity s =>
      rw [repacked_infinity]
      exact hu
  | zero s =>
      rw [repacked_zero]
      exact hu
  | finite s m e hm =>
      obtain rfl := unsigned_finite_iff.mp hu
      obtain ⟨exponent, significand, hpack, -⟩ := pack_finite hm e
      unfold VectorIndex.repacked
      rw [hpack]
      exact unsigned_unpack_packComponents ..

/-- A sum of terms without a sign loses the sign it starts with at its first term. -/
theorem unsigned_sumOver {f : Float32 → Float32 → Float32} (hf : ∀ x y, Unsigned (f x y).toModel.unpack)
    {a b : Embedding} {acc : Float32} (hacc : NotNegative acc.toModel.unpack)
    (hsome : (a ≠ [] ∧ b ≠ []) ∨ Unsigned acc.toModel.unpack) : Unsigned (sumOver f acc a b).toModel.unpack := by
  induction a generalizing b acc with
  | nil =>
      have hunsigned := hsome.resolve_left fun h => h.1 rfl
      cases b <;> exact hunsigned
  | cons x xs ih =>
      cases b with
      | nil => exact hsome.resolve_left fun h => h.2 rfl
      | cons y ys =>
          have hsum : Unsigned (acc + f x.value y.value).toModel.unpack := (hacc.add_unsigned (hf _ _)).repacked
          exact ih hsum.notNegative (Or.inr hsum)

theorem notNegative_negativeZero : NotNegative negativeZero.toModel.unpack := trivial

theorem unsigned_squaredEuclidean {a b : Embedding} (ha : a ≠ []) (hb : b ≠ []) :
    Unsigned (squaredEuclidean a b).toModel.unpack := by
  refine unsigned_sumOver (fun x y => ?_) notNegative_negativeZero (Or.inl ⟨ha, hb⟩)
  exact (unsigned_square (x - y).toModel.unpack).repacked

theorem notNegative_squaredEuclidean (a b : Embedding) :
    NotNegative (squaredEuclidean a b).toModel.unpack := by
  cases a with
  | nil => cases b <;> exact notNegative_negativeZero
  | cons x xs =>
      cases b with
      | nil => exact notNegative_negativeZero
      | cons y ys => exact (unsigned_squaredEuclidean (List.cons_ne_nil x xs) (List.cons_ne_nil y ys)).notNegative

/-- No square of a distance is negative. -/
theorem Metric.notNegative_rank (a b : Embedding) : NotNegative (Metric.euclidean.rank a b).unpacked := by
  unfold Metric.rank
  by_cases hnan : (Metric.euclidean.measure a b).isNaN = true
  · simp only [hnan, if_true]
    exact rfl
  · simp only [hnan]
    exact notNegative_squaredEuclidean a b

/-- Storing makes no NaN. -/
theorem repacked_eq_notANumber {u : UnpackedFloat} (h : repacked u = .notANumber) : u = .notANumber := by
  cases u with
  | notANumber => rfl
  | infinity s =>
      rw [repacked_infinity] at h
      exact h
  | zero s =>
      rw [repacked_zero] at h
      exact h
  | finite s m e hm =>
      obtain ⟨exponent, significand, hpack, hinfinity, -⟩ := pack_finite hm e
      unfold repacked UnpackedFloat.unpack at h
      dsimp only at h
      rw [hpack] at h
      simp only [unpackMantissa_packComponents, unpackExponent_packComponents] at h
      by_cases hones : exponent = -1#8
      · rw [if_pos hones, if_pos (hinfinity hones)] at h
        cases h
      · rw [if_neg hones] at h
        split at h
        · split at h <;> cases h
        · cases h

/-- The square root of what is not negative is a number. -/
theorem sqrt_ne_notANumber {u : UnpackedFloat} (hu : NotNegative u) (hnan : u ≠ .notANumber) :
    UnpackedFloat.sqrt .binary32 u ≠ .notANumber := by
  cases u with
  | notANumber => exact absurd rfl hnan
  | infinity s =>
      obtain rfl : s = .positive := hu
      exact UnpackedFloat.noConfusion
  | zero s => exact UnpackedFloat.noConfusion
  | finite s m e hm =>
      obtain rfl : s = .positive := hu
      intro h
      unfold UnpackedFloat.sqrt roundWithAccuracy at h
      dsimp only at h
      split at h <;> cases h

/-- A caller is never told a NaN. -/
theorem Metric.isNaN_report (metric : Metric) (a b : Embedding) :
    (metric.report (metric.rank a b)).isNaN = false := by
  cases metric with
  | euclidean =>
      have hrank := Metric.isNaN_rank .euclidean a b
      have hnegative := Metric.notNegative_rank a b
      generalize Metric.euclidean.rank a b = d at hrank hnegative
      have hnumber : d.unpacked ≠ .notANumber := by
        rw [Ne, Single.unpacked_eq_notANumber_iff, hrank]
        exact Bool.false_ne_true
      show (Single.ofValue d.value.sqrt).isNaN = false
      rw [← Bool.not_eq_true, ← Single.unpacked_eq_notANumber_iff]
      intro h
      apply sqrt_ne_notANumber hnegative hnumber
      apply repacked_eq_notANumber
      rw [← Single.unpacked_value]
      exact h
  | _ => exact Metric.isNaN_rank ..

/-! ## Distances -/

/-- What a metric ranks by always compares: it is nearer, as near, or further. -/
theorem Metric.rank_total (metric : Metric) (a b c d : Embedding) :
    (metric.rank a b).lt (metric.rank c d) = true ∨
      ((metric.rank a b).value == (metric.rank c d).value) = true ∨
      (metric.rank c d).lt (metric.rank a b) = true := by
  have hab := Metric.isNaN_rank metric a b
  have hcd := Metric.isNaN_rank metric c d
  rcases Int.lt_trichotomy (metric.rank a b).place (metric.rank c d).place with hlt | heq | hgt
  · exact Or.inl (Single.lt_iff.mpr ⟨hab, hcd, hlt⟩)
  · exact Or.inr (Or.inl (Single.beq_iff.mpr ⟨hab, hcd, heq⟩))
  · exact Or.inr (Or.inr (Single.lt_iff.mpr ⟨hcd, hab, hgt⟩))

/-- The nearer of two neighbours comes first. -/
theorem Neighbor.compare_eq_lt_of_lt {x y : Single} (h : x.lt y = true) (i j : ItemId) :
    compare (⟨i, x⟩ : Neighbor) ⟨j, y⟩ = .lt := by
  have hkey := Single.rankKey_lt_of_place_lt (Single.lt_iff.mp h).2.2
  rw [Neighbor.compare_def, Std.compare_eq_lt.mpr hkey]
  rfl

/-- **Distances are symmetric and never NaN.** For components of any bits, both the ranking distance and the
    reported one are the same bits in both directions, and numbers. So any two ranking distances compare, and
    neighbours are sorted by that comparison. -/
theorem Metric.distance_symmetric (metric : Metric) {a b : Embedding} (hlength : a.length = b.length) :
    metric.rank a b = metric.rank b a ∧ (metric.rank a b).isNaN = false ∧
      (∃ d, metric.distance a b = .ok d ∧ metric.distance b a = .ok d ∧ d.isNaN = false) ∧
      ∀ c d, ((metric.rank a b).lt (metric.rank c d) = true ∨
          ((metric.rank a b).value == (metric.rank c d).value) = true ∨
          (metric.rank c d).lt (metric.rank a b) = true) ∧
        ((metric.rank a b).lt (metric.rank c d) = true →
          ∀ i j, compare (⟨i, metric.rank a b⟩ : Neighbor) ⟨j, metric.rank c d⟩ = .lt) := by
  refine ⟨metric.rank_comm a b, metric.isNaN_rank a b,
    ⟨metric.report (metric.rank a b), if_pos hlength, ?_, metric.isNaN_report a b⟩,
    fun c d => ⟨metric.rank_total a b c d, fun hlt => Neighbor.compare_eq_lt_of_lt hlt⟩⟩
  unfold Metric.distance
  rw [if_pos hlength.symm, metric.rank_comm]

/-- A subnormal, a negative zero and a negative infinity, against their opposites: the cosine would be a NaN, and
    counts as infinitely far from both sides. -/
theorem Metric.distance_symmetric_opposites :
    let a : Embedding := [⟨0x00000001⟩, ⟨0x80000000⟩, ⟨0xff800000⟩]
    let b : Embedding := [⟨0x80000001⟩, ⟨0x00000000⟩, ⟨0x7f800000⟩]
    a.length = b.length ∧ Metric.cosine.rank a b = Single.infinity ∧ Metric.cosine.rank b a = Single.infinity ∧
      ∃ d, Metric.cosine.distance a b = .ok d ∧ Metric.cosine.distance b a = .ok d ∧ d.isNaN = false := by
  intro a b
  have hrank : Metric.cosine.rank a b = Single.infinity := by decide +kernel
  obtain ⟨hback, -, hdistance, -⟩ := Metric.cosine.distance_symmetric (a := a) (b := b) rfl
  exact ⟨rfl, hrank, hback.symm.trans hrank, hdistance⟩

end VectorIndex
