import Mathlib.Analysis.Real.Sqrt
import VectorIndex.Proofs.Rounding

/-!
# `VectorIndex.Proofs.Arithmetic` — every operation rounds once

The sum, the difference, the product and the square root of binary32 numbers are the exact results, rounded
(`RoundedTo`): an operation first finds a significand that is exact, or accurate to the two bits that rounding
looks at, and leaves the rest to rounding.

## Contents
- **Signed numbers.** `signed`, `RoundedTo`, `Unpacked.repacked`, `Unpacked.roundedTo`, `roundedTo_normalize`.
- **Operations.** `Unpacked.add`, `Unpacked.sub`, `Unpacked.mul`, `accurate_sqrtCore`, `Unpacked.sqrt`.
-/

namespace VectorIndex

open Float.Model (Format UnpackedFloat totalExponent)
open Float.Model.UnpackedFloat

/-! ## Signed numbers -/

/-- The number of a sign and a magnitude. -/
noncomputable def signed : Sign → ℝ → ℝ
  | .negative, q => -q
  | .positive, q => q

theorem abs_signed (s : Sign) (q : ℝ) : |signed s q| = |q| := by
  cases s with
  | negative => exact abs_neg q
  | positive => rfl

theorem signed_zero (s : Sign) : signed s 0 = 0 := by
  cases s with
  | negative => exact neg_zero
  | positive => rfl

theorem signed_neg (s : Sign) (q : ℝ) : signed (-s) q = -signed s q := by
  cases s with
  | negative => exact (neg_neg q).symm
  | positive => rfl

theorem signed_mul_right (s : Sign) (q r : ℝ) : signed s q * r = signed s (q * r) := by
  cases s with
  | negative => exact neg_mul q r
  | positive => rfl

theorem signed_mul_signed (s t : Sign) (q r : ℝ) : signed s q * signed t r = signed (s * t) (q * r) := by
  cases s <;> cases t
  · exact neg_mul_neg q r
  · exact neg_mul q r
  · exact mul_neg q r
  · rfl

theorem cast_apply (s : Sign) (m : Nat) : ((s.apply (m : Int) : Int) : ℝ) = signed s m := by
  cases s with
  | negative => exact (Int.cast_neg _).trans (congrArg Neg.neg (Int.cast_natCast m))
  | positive => exact Int.cast_natCast m

/-- `u` is the real number `q` rounded: the magnitude to the nearest point, and with the sign of `q`. -/
def RoundedTo (q : ℝ) (u : UnpackedFloat) : Prop :=
  ∃ s n, Unpacked s n u ∧ Rounded |q| n ∧ (0 < q → s = .positive) ∧ (q < 0 → s = .negative)

section Exact

variable {s : Sign} {n : Nat} {u : UnpackedFloat}

/-- The magnitude of a number with a significand. -/
theorem Unpacked.grid_finite {t : Sign} {m : Nat} {e : ℤ} {hpos : 0 < m}
    (h : Unpacked s n (.finite t m e hpos)) : s = t ∧ grid n = m * 2 ^ e := by
  cases h with
  | finite _ hm hlow hhigh hnormal hn => exact ⟨rfl, grid_eq hm.le hlow hnormal hn⟩

/-- A number is stored as it is. -/
theorem Unpacked.repacked (h : Unpacked s n u) : Unpacked s n (repacked u) := by
  cases h with
  | zero =>
      rw [repacked_zero]
      exact .zero
  | finite hpos hm hlow hhigh hnormal hn =>
      have hstored := unpacked_repacked (s := s) hpos hm hlow hnormal hn
      rwa [Nat.min_eq_left (by omega)] at hstored
  | infinity =>
      rw [repacked_infinity]
      exact .infinity
  | notANumber hn => exact .notANumber hn

theorem Unpacked.neg (h : Unpacked s n u) : Unpacked (-s) n u.neg := by
  cases h with
  | zero => exact .zero
  | finite hpos hm hlow hhigh hnormal hn => exact .finite hpos hm hlow hhigh hnormal hn
  | infinity => exact .infinity
  | notANumber hn => exact .notANumber hn

theorem Unpacked.roundedTo_signed {q : ℝ} (h : Unpacked s n u) (hq : 0 ≤ q) (hn : Rounded q n) :
    RoundedTo (signed s q) u := by
  refine ⟨s, n, h, ?_, fun hpos => ?_, fun hneg => ?_⟩
  · rwa [abs_signed, abs_of_nonneg hq]
  · cases s with
    | negative => exact absurd hpos (not_lt.mpr (neg_nonpos.mpr hq))
    | positive => rfl
  · cases s with
    | negative => rfl
    | positive => exact absurd hneg (not_lt.mpr hq)

theorem Unpacked.roundedTo (h : Unpacked s n u) (hn : n ≤ 0x7f800000) : RoundedTo (signed s (grid n)) u :=
  h.roundedTo_signed (grid_nonneg n) (rounded_grid hn)

end Exact

theorem roundedTo_zero (s : Sign) : RoundedTo 0 (.zero s) := by
  have h := (Unpacked.zero (s := s)).roundedTo (by omega)
  rwa [grid_zero, signed_zero] at h

theorem roundedTo_normalize (m e : ℤ) (s : Sign) :
    RoundedTo (m * 2 ^ e) (repacked (UnpackedFloat.normalize .binary32 m e s)) := by
  have hcast : ∀ k : ℤ, 0 < k → ((k.toNat : Nat) : ℝ) = k := fun k hk => by
    rw [← Int.cast_natCast, Int.toNat_of_nonneg hk.le]
  unfold UnpackedFloat.normalize
  rcases Int.lt_trichotomy m 0 with hlt | rfl | hgt
  · rw [Int.compare_eq_lt.mpr hlt]
    obtain ⟨n, hn, hu⟩ := rounded_round .negative (m := (-m).toNat) (by omega) e
    have hresult := hu.roundedTo_signed (by positivity) hn
    rwa [hcast (-m) (by omega), signed, Int.cast_neg, neg_mul, neg_neg] at hresult
  · rw [Int.compare_eq_eq.mpr rfl, Int.cast_zero, zero_mul]
    show RoundedTo 0 (repacked (.zero s))
    rw [repacked_zero]
    exact roundedTo_zero s
  · rw [Int.compare_eq_gt.mpr hgt]
    obtain ⟨n, hn, hu⟩ := rounded_round .positive (m := m.toNat) (by omega) e
    have hresult := hu.roundedTo_signed (by positivity) hn
    rwa [hcast m hgt] at hresult

/-! ## Operations -/

/-- Significands are brought to the lower exponent without a loss. -/
theorem decreaseExponent_eq {m : Nat} {e target : ℤ} (h : target ≤ e) :
    ((decreaseExponent m e target).1 : ℝ) * 2 ^ target = m * 2 ^ e := by
  have hshift : (e - target).toNat + target = e := by omega
  show ((m <<< (e - target).toNat : Nat) : ℝ) * 2 ^ target = m * 2 ^ e
  rw [Nat.shiftLeft_eq, Nat.cast_mul, Nat.cast_pow, Nat.cast_ofNat, mul_assoc, ← zpow_natCast,
    ← zpow_add₀ two_ne_zero, hshift]

theorem sub_eq_add_neg_unpacked (u v : UnpackedFloat) :
    UnpackedFloat.sub .binary32 u v = UnpackedFloat.add .binary32 u v.neg := by
  cases u with
  | finite s m e hm =>
      cases v with
      | finite t n f hn =>
          unfold UnpackedFloat.sub UnpackedFloat.add UnpackedFloat.neg
          dsimp only
          cases t with
          | negative => rw [Sign.apply, Int.sub_neg]; rfl
          | positive => rw [Sign.apply, Int.sub_eq_add_neg]; rfl
      | _ => rfl
  | _ => cases v <;> rfl

section Operations

variable {s t : Sign} {n m : Nat} {u v : UnpackedFloat}

theorem Unpacked.add (hu : Unpacked s n u) (hv : Unpacked t m v) (hn : n < 0x7f800000) (hm : m < 0x7f800000) :
    RoundedTo (signed s (grid n) + signed t (grid m)) (VectorIndex.repacked (UnpackedFloat.add .binary32 u v)) := by
  cases hu with
  | infinity => omega
  | notANumber hnan => omega
  | zero =>
      rw [grid_zero, signed_zero, zero_add]
      cases hv with
      | infinity => omega
      | notANumber hnan => omega
      | zero =>
          rw [grid_zero, signed_zero]
          unfold UnpackedFloat.add
          dsimp only
          split <;> rw [repacked_zero] <;> exact roundedTo_zero _
      | finite hpos hm' hlow hhigh hnormal hcode =>
          exact ((Unpacked.finite hpos hm' hlow hhigh hnormal hcode).repacked).roundedTo hm.le
  | @finite _ m₁ e₁ hpos hm₁ hlow hhigh hnormal hcode =>
      have hu := Unpacked.finite (s := s) hpos hm₁ hlow hhigh hnormal hcode
      cases hv with
      | infinity => omega
      | notANumber hnan => omega
      | zero =>
          rw [grid_zero, signed_zero, add_zero]
          exact hu.repacked.roundedTo hn.le
      | @finite _ m₂ e₂ hpos' hm₂ hlow' hhigh' hnormal' hcode' =>
          have hv := Unpacked.finite (s := t) hpos' hm₂ hlow' hhigh' hnormal' hcode'
          have hsum := roundedTo_normalize
            (s.apply (decreaseExponent m₁ e₁ (min e₁ e₂)).1 + t.apply (decreaseExponent m₂ e₂ (min e₁ e₂)).1)
            (min e₁ e₂) .positive
          rw [Int.cast_add, cast_apply, cast_apply, add_mul, signed_mul_right, signed_mul_right,
            decreaseExponent_eq (min_le_left e₁ e₂), decreaseExponent_eq (min_le_right e₁ e₂),
            ← hu.grid_finite.2, ← hv.grid_finite.2] at hsum
          exact hsum

theorem Unpacked.sub (hu : Unpacked s n u) (hv : Unpacked t m v) (hn : n < 0x7f800000) (hm : m < 0x7f800000) :
    RoundedTo (signed s (grid n) - signed t (grid m)) (VectorIndex.repacked (UnpackedFloat.sub .binary32 u v)) := by
  rw [sub_eq_add_neg_unpacked, sub_eq_add_neg, ← signed_neg]
  exact hu.add hv.neg hn hm

theorem Unpacked.mul (hu : Unpacked s n u) (hv : Unpacked t m v) (hn : n < 0x7f800000) (hm : m < 0x7f800000) :
    RoundedTo (signed s (grid n) * signed t (grid m)) (VectorIndex.repacked (UnpackedFloat.mul .binary32 u v)) := by
  cases hu with
  | infinity => omega
  | notANumber hnan => omega
  | zero =>
      rw [grid_zero, signed_zero, zero_mul]
      cases hv with
      | infinity => omega
      | notANumber hnan => omega
      | zero => exact (repacked_zero (s * t)).symm ▸ roundedTo_zero _
      | finite => exact (repacked_zero (s * t)).symm ▸ roundedTo_zero _
  | @finite _ m₁ e₁ hpos hm₁ hlow hhigh hnormal hcode =>
      have hu := Unpacked.finite (s := s) hpos hm₁ hlow hhigh hnormal hcode
      cases hv with
      | infinity => omega
      | notANumber hnan => omega
      | zero =>
          rw [grid_zero, signed_zero, mul_zero]
          exact (repacked_zero (s * t)).symm ▸ roundedTo_zero _
      | @finite _ m₂ e₂ hpos' hm₂ hlow' hhigh' hnormal' hcode' =>
          have hv := Unpacked.finite (s := t) hpos' hm₂ hlow' hhigh' hnormal' hcode'
          have hproduct : grid n * grid m = (m₁ * m₂ : Nat) * 2 ^ (e₁ + e₂) := by
            rw [hu.grid_finite.2, hv.grid_finite.2, Nat.cast_mul, zpow_add₀ two_ne_zero]
            ring
          have haccurate : Accurate (m₁ * m₂) .exact (grid n * grid m / 2 ^ (e₁ + e₂)) := by
            rw [hproduct]
            exact mul_div_cancel_right₀ _ (zpow_ne_zero _ two_ne_zero)
          -- one of the significands is long enough, or both exponents are the least
          have henough : e₁ + e₂ ≤ Format.binary32.targetExponent (totalExponent (m₁ * m₂) (e₁ + e₂)) := by
            rw [targetExponent_eq]
            have hlog : 23 ≤ (m₁ * m₂).log2 ↔ 0x800000 ≤ m₁ * m₂ := Nat.le_log2 (Nat.mul_pos hpos hpos').ne'
            have hleft : m₁ ≤ m₁ * m₂ := Nat.le_mul_of_pos_right m₁ hpos'
            have hright : m₂ ≤ m₁ * m₂ := Nat.le_mul_of_pos_left m₂ hpos
            omega
          obtain ⟨k, hk, hstored⟩ := rounded_roundWithAccuracy (s * t) haccurate henough
          rw [signed_mul_signed]
          exact hstored.roundedTo_signed (mul_nonneg (grid_nonneg n) (grid_nonneg m)) hk

/-- The integer square root, with what its remainder says of the rest. -/
theorem accurate_sqrt (k : Nat) : Accurate k.sqrt
    (if k - k.sqrt * k.sqrt = 0 then .exact
      else .inexact (if k - k.sqrt * k.sqrt ≤ k.sqrt then .lt else .gt)) (√k) := by
  have hlow := Nat.sqrt_le k
  have hhigh := Nat.lt_succ_sqrt k
  generalize k.sqrt = root at hlow hhigh
  have hroot : (0 : ℝ) ≤ root := Nat.cast_nonneg root
  have hbehind : √(k : ℝ) < root + 1 := by
    rw [Real.sqrt_lt' (by positivity)]
    have hcast : (k : ℝ) < (root + 1) * (root + 1) := by exact_mod_cast hhigh
    linarith
  by_cases hexact : k - root * root = 0
  · rw [if_pos hexact]
    obtain rfl : k = root * root := by omega
    rw [Nat.cast_mul]
    exact Real.sqrt_mul_self hroot
  · rw [if_neg hexact]
    by_cases hbelow : k - root * root ≤ root
    · rw [if_pos hbelow]
      have hmore : (root : ℝ) * root < k := by exact_mod_cast (show root * root < k by omega)
      have hless : (k : ℝ) ≤ root * root + root := by exact_mod_cast (show k ≤ root * root + root by omega)
      refine ⟨Real.lt_sqrt_of_sq_lt (by linarith), ?_⟩
      rw [Real.sqrt_lt' (by positivity)]
      linarith
    · rw [if_neg hbelow]
      have hmore : (root : ℝ) * root + root + 1 ≤ k := by
        exact_mod_cast (show root * root + root + 1 ≤ k by omega)
      exact ⟨Real.lt_sqrt_of_sq_lt (by linarith), hbehind⟩

/-- The significand is lengthened before the root is taken, so that the root is long enough. -/
theorem accurate_sqrtCore {m : Nat} (hm : m ≠ 0) (e : ℤ) :
    Accurate (sqrtCore .binary32 m e).1 (sqrtCore .binary32 m e).2.2
        (√(m * 2 ^ e) / 2 ^ (sqrtCore .binary32 m e).2.1) ∧
      (sqrtCore .binary32 m e).2.1 ≤ Format.binary32.targetExponent
        (totalExponent (sqrtCore .binary32 m e).1 (sqrtCore .binary32 m e).2.1) := by
  unfold sqrtCore
  dsimp only
  rw [targetExponent_binary32]
  unfold totalExponent
  generalize htarget : min (e.ediv 2) (max ((m.log2 + 1 + e + 1).ediv 2 - 24) (-149)) = target
  have hhalf : target ≤ e / 2 := htarget ▸ min_le_left _ _
  have hroom : target ≤ max ((m.log2 + 1 + e + 1) / 2 - 24) (-149) := htarget ▸ min_le_right _ _
  generalize hshift : (e - 2 * target).toNat = shift
  have hscale : (m : ℝ) * 2 ^ e = (m <<< shift : Nat) * (2 ^ target) ^ 2 := by
    rw [Nat.shiftLeft_eq, Nat.cast_mul, Nat.cast_pow, Nat.cast_ofNat, mul_assoc, ← zpow_natCast,
      ← zpow_natCast, ← zpow_mul, ← zpow_add₀ two_ne_zero]
    congr 2
    push_cast
    omega
  constructor
  · rw [hscale, Real.sqrt_mul (Nat.cast_nonneg _), Real.sqrt_sq (by positivity),
      mul_div_cancel_right₀ _ (zpow_ne_zero _ two_ne_zero)]
    exact accurate_sqrt _
  · rw [targetExponent_binary32]
    rcases le_or_gt target (-149) with hleast | hgreater
    · omega
    · have hlong : 46 ≤ (m <<< shift).log2 := by
        rw [log2_shiftLeft hm]
        omega
      have hnonzero : m <<< shift ≠ 0 := by
        intro hzero
        rw [hzero, Nat.log2_zero] at hlong
        omega
      have hroot : 2 ^ 23 ≤ (m <<< shift).sqrt := Nat.le_sqrt.mpr ((Nat.le_log2 hnonzero).mp hlong)
      have hlog : 23 ≤ (m <<< shift).sqrt.log2 := (Nat.le_log2 (by omega)).mpr hroot
      omega

theorem Unpacked.sqrt (hu : Unpacked .positive n u) (hn : n < 0x7f800000) :
    RoundedTo (√(grid n)) (VectorIndex.repacked (UnpackedFloat.sqrt .binary32 u)) := by
  cases hu with
  | infinity => omega
  | notANumber hnan => omega
  | zero =>
      rw [grid_zero, Real.sqrt_zero]
      exact (repacked_zero .positive).symm ▸ roundedTo_zero _
  | @finite _ m e hpos hm hlow hhigh hnormal hcode =>
      have hu := Unpacked.finite (s := .positive) hpos hm hlow hhigh hnormal hcode
      obtain ⟨haccurate, henough⟩ := accurate_sqrtCore hpos.ne' e
      rw [← hu.grid_finite.2] at haccurate
      obtain ⟨k, hk, hstored⟩ := rounded_roundWithAccuracy .positive haccurate henough
      exact hstored.roundedTo_signed (Real.sqrt_nonneg _) hk

end Operations

end VectorIndex
