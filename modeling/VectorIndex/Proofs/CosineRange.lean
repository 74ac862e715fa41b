import VectorIndex.Distance
import VectorIndex.Proofs.Magnitude

/-!
# `VectorIndex.Proofs.CosineRange` — where the cosine distance stays in its range

The cosine distance is one minus a quotient clamped to `[-1, 1]`, so it is between 0 and 2 whenever the quotient is
a number (`one_sub_range`). Its parts are computed without scaling, and both ends of the exponents show:

- Squares of components up to `2^-75` vanish, and nothing else does. A vector has the norm zero exactly if all of
  its components are that small (`norm_eq_zero_iff`), and is then measured like a vector without length.
- Large components overflow. The quotient is a NaN only if the dot product is not finite, and the distance is then
  infinite; whenever the dot product is finite, the distance is in its range (`Metric.cosine_range`). An underflow
  never does that, as the product of two norms that are not zero is not zero (`Magnitude.mul_norms`).

## Contents
- **Points.** `grid_root`, `grid_leastNorm`, `square_le_middle_zero_iff`.
- **Magnitudes.** `magnitude_square`, `Magnitude.leastNorm_le_sqrt`, `Magnitude.mul_norms`.
- **Norms.** `magnitude_norm`, `norm_eq_zero_iff`.
- **Range.** `clamp_range`, `one_sub_range`, `isFinite_eq_false_of_isNaN_div`, `Metric.cosine_range`.
-/

namespace VectorIndex

open Float.Model (Format UnpackedFloat)
open Float.Model.UnpackedFloat

/-! ## Points -/

/-- The point `2^-75`, whose square is half of the smallest number. -/
theorem grid_root : grid 0x1a000000 = 2 ^ (-75 : ℤ) := by
  rw [grid_eq (m := 0x800000) (e := -98) (by omega) (by omega) (Or.inl le_rfl) (by omega)]
  norm_num

/-- The point `1.25 * 2^-75`, which is not behind the root of the smallest number. -/
theorem grid_leastNorm : grid 0x1a200000 = 1.25 * 2 ^ (-75 : ℤ) := by
  rw [grid_eq (m := 0xa00000) (e := -98) (by omega) (by omega) (Or.inl (by omega)) (by omega)]
  norm_num

theorem grid_one : grid 0x3f800000 = 1 := by
  rw [grid_eq (m := 0x800000) (e := -23) (by omega) (by omega) (Or.inl le_rfl) (by omega)]
  norm_num

theorem grid_two : grid 0x40000000 = 2 := by
  rw [grid_eq (m := 0x800000) (e := -22) (by omega) (by omega) (Or.inl le_rfl) (by omega)]
  norm_num

/-- A square vanishes exactly up to `2^-75`. -/
theorem square_le_middle_zero_iff (n : Nat) : grid n * grid n ≤ middle 0 ↔ n ≤ 0x1a000000 := by
  have hsquare : middle 0 = grid 0x1a000000 * grid 0x1a000000 := by
    rw [middle_zero, grid_root, ← zpow_add₀ two_ne_zero]
    rfl
  rw [hsquare, ← mul_self_le_mul_self_iff (grid_nonneg n) (grid_nonneg _), grid_strictMono.le_iff_le]

/-! ## Magnitudes -/

/-- The exponent field of a finite number is not all ones. -/
theorem Single.magnitudeBits_lt {x : Single} (h : x.isFinite = true) : x.magnitudeBits < 0x7f800000 := by
  by_contra hge
  unfold Single.magnitudeBits at hge
  have hexponent : (x.bits.toNat &&& 0x7f800000) / 2 ^ 23 = 255 := by
    rw [← Nat.shiftRight_eq_div_pow, Nat.shiftRight_and_distrib, Nat.shiftRight_eq_div_pow]
    show x.bits.toNat / 2 ^ 23 &&& (2 ^ 8 - 1) = 255
    rw [Nat.and_two_pow_sub_one_eq_mod]
    omega
  have hle : x.bits.toNat &&& 0x7f800000 ≤ 0x7f800000 := Nat.and_le_right
  have hones : x.bits &&& 0x7f800000 = 0x7f800000 := by
    apply UInt32.toNat_inj.mp
    rw [UInt32.toNat_and]
    show x.bits.toNat &&& 0x7f800000 = 0x7f800000
    omega
  rw [Single.isFinite, hones] at h
  cases h

theorem magnitude_square {x : Single} (hx : x.isFinite = true) :
    ∃ k, Magnitude k (x.value * x.value) ∧ (k = 0 ↔ x.magnitudeBits ≤ 0x1a000000) := by
  have hu : Unpacked (signOf x.bits.toBitVec) x.magnitudeBits x.value.toModel.unpack := by
    rw [Single.unpacked_value]
    exact unpacked_unpack x.bits.toBitVec
  have hfinite := Single.magnitudeBits_lt hx
  have hproduct := hu.mul hu hfinite hfinite
  rw [signed_mul_signed, sign_mul_self] at hproduct
  obtain ⟨k, hk, hrounded⟩ :=
    RoundedTo.magnitude (d := x.value * x.value) hproduct (mul_self_nonneg (grid x.magnitudeBits))
  exact ⟨k, hk, hrounded.eq_zero_iff.trans (square_le_middle_zero_iff _)⟩

section Magnitude

variable {n m : Nat} {d e : Float32}

/-- The root of a number that is not zero is at least that of the smallest. -/
theorem Magnitude.leastNorm_le_sqrt (hd : Magnitude n d) :
    ∃ k, Magnitude k d.sqrt ∧ (n = 0 ∧ k = 0 ∨ n ≠ 0 ∧ 0x1a200000 ≤ k) := by
  obtain ⟨k, hk, ⟨-, hrounded⟩ | ⟨hn, hinfinite⟩⟩ := hd.rounded_sqrt
  · refine ⟨k, hk, ?_⟩
    rcases eq_or_ne n 0 with rfl | hne
    · refine Or.inl ⟨rfl, hrounded.eq_zero_iff.mpr ?_⟩
      rw [grid_zero, Real.sqrt_zero, middle_zero]
      positivity
    · refine Or.inr ⟨hne, hrounded.le_of_grid_le (by omega) (Real.le_sqrt_of_sq_le ?_)⟩
      calc grid 0x1a200000 ^ 2 ≤ 2 * middle 0 := by
            rw [grid_leastNorm, middle_zero]
            norm_num
        _ = grid 1 := by
            unfold middle
            rw [grid_zero]
            ring
        _ ≤ grid n := grid_strictMono.monotone (by omega)
  · exact ⟨k, hk, Or.inr ⟨by omega, by omega⟩⟩

/-- The product of two norms does not vanish. -/
theorem Magnitude.mul_norms (hd : Magnitude n d) (he : Magnitude m e) (hn : 0x1a200000 ≤ n)
    (hm : 0x1a200000 ≤ m) : ∃ k, Magnitude k (d * e) ∧ k ≠ 0 := by
  have hproduct : (d * e).toModel.unpack =
    repacked (UnpackedFloat.mul .binary32 d.toModel.unpack e.toModel.unpack) := rfl
  by_cases hinfinite : n = 0x7f800000 ∨ m = 0x7f800000
  · -- an infinite factor decides, as the other one is not zero
    refine ⟨0x7f800000, magnitude_infinity ?_, by omega⟩
    rw [hproduct]
    rcases hd.unpack_cases with ⟨hzero, -⟩ | ⟨-, hlt, k, f, h, hu⟩ | ⟨-, hu⟩ <;>
      rcases he.unpack_cases with ⟨hzero', -⟩ | ⟨-, hlt', l, g, h', hv⟩ | ⟨-, hv⟩ <;>
        first
          | omega
          | (rw [hu, hv]; exact repacked_infinity .positive)
  · have hrounded := (hd.unpacked (by omega)).mul (he.unpacked (by omega))
      (by have := hd.1; omega) (by have := he.1; omega)
    obtain ⟨k, hk, hk'⟩ :=
      RoundedTo.magnitude (d := d * e) hrounded (mul_nonneg (grid_nonneg n) (grid_nonneg m))
    refine ⟨k, hk, mt hk'.eq_zero_iff.mp (not_le.mpr ?_)⟩
    calc middle 0 < grid 0x1a200000 * grid 0x1a200000 := by
          rw [grid_leastNorm, middle_zero]
          norm_num
      _ ≤ grid n * grid m :=
          mul_le_mul (grid_strictMono.monotone hn) (grid_strictMono.monotone hm) (grid_nonneg _) (grid_nonneg n)

end Magnitude

/-! ## Norms -/

/-- A sum of squares vanishes exactly if every square does. -/
theorem magnitude_sumOver {v : Embedding} (hv : ∀ x ∈ v, x.isFinite = true) {n : Nat} {acc : Float32}
    (hacc : Magnitude n acc) : ∃ k, Magnitude k (sumOver (· * ·) acc v v) ∧
      (k = 0 ↔ n = 0 ∧ ∀ x ∈ v, x.magnitudeBits ≤ 0x1a000000) := by
  induction v generalizing n acc with
  | nil => exact ⟨n, hacc, by simp⟩
  | cons x xs ih =>
      obtain ⟨m, hm, hvanish⟩ := magnitude_square (hv x (List.mem_cons_self ..))
      obtain ⟨k, hk, hzero⟩ := hacc.add hm
      obtain ⟨total, htotal, hall⟩ := ih (fun y hy => hv y (List.mem_cons_of_mem x hy)) hk
      refine ⟨total, htotal, hall.trans ?_⟩
      rw [hzero, hvanish, List.forall_mem_cons, and_assoc]

theorem magnitude_norm {v : Embedding} (hv : ∀ x ∈ v, x.isFinite = true) :
    ∃ k, Magnitude k (norm v) ∧ (k = 0 ∧ (∀ x ∈ v, x.magnitudeBits ≤ 0x1a000000) ∨
      0x1a200000 ≤ k ∧ ¬∀ x ∈ v, x.magnitudeBits ≤ 0x1a000000) := by
  have hstart : Magnitude 0 negativeZero := ⟨by omega, .negative, .zero, fun _ => rfl⟩
  obtain ⟨n, hn, hvanish⟩ := magnitude_sumOver hv hstart
  obtain ⟨k, hk, hroot⟩ := hn.leastNorm_le_sqrt
  refine ⟨k, hk, hroot.imp (fun ⟨hn, hk⟩ => ⟨hk, (hvanish.mp hn).2⟩) fun ⟨hn, hk⟩ => ⟨hk, fun hall => ?_⟩⟩
  exact hn (hvanish.mpr ⟨rfl, hall⟩)

/-- **What counts as a vector without length.** The norm of finite components is zero exactly if none of them is
    larger than `2^-75`, the number of the bits `1a000000`. -/
theorem norm_eq_zero_iff {v : Embedding} (hv : ∀ x ∈ v, x.isFinite = true) :
    (norm v == 0) = true ↔ ∀ x ∈ v, x.magnitudeBits ≤ 0x1a000000 := by
  obtain ⟨k, hk, ⟨hzero, hall⟩ | ⟨hlarge, hsome⟩⟩ := magnitude_norm hv
  · exact hk.beq_zero_iff.trans (iff_of_true hzero hall)
  · exact hk.beq_zero_iff.trans (iff_of_false (by omega) hsome)

/-! ## Range -/

/-- A value is below another when its place is. -/
theorem value_lt_iff {d e : Float32} : d < e ↔ (Single.ofValue d).isNaN = false ∧
    (Single.ofValue e).isNaN = false ∧ (Single.ofValue d).place < (Single.ofValue e).place := by
  have hunpack : ∀ f : Float32, (Single.ofValue f).value.toModel.unpack = f.toModel.unpack :=
    fun f => Single.unpacked_value (Single.ofValue f)
  calc d < e ↔ d.toModel < e.toModel := decide_eq_true_iff
    _ ↔ d.toModel.unpack.lt e.toModel.unpack = true := Iff.rfl
    _ ↔ (Single.ofValue d).value.toModel.unpack.lt (Single.ofValue e).value.toModel.unpack = true := by
        rw [hunpack, hunpack]
    _ ↔ (Single.ofValue d).value < (Single.ofValue e).value := decide_eq_true_iff.symm
    _ ↔ (Single.ofValue d).lt (Single.ofValue e) = true := decide_eq_true_iff.symm
    _ ↔ _ := Single.lt_iff

/-- A number clamped to `[-1, 1]` is between `-1` and `1`. -/
theorem clamp_range {q : Float32} (hq : (Single.ofValue q).isNaN = false) :
    -0x3f800000 ≤ (Single.ofValue (clamp q (-1) 1)).place ∧
      (Single.ofValue (clamp q (-1) 1)).place ≤ 0x3f800000 := by
  have hone : (Single.ofValue 1).isNaN = false ∧ (Single.ofValue 1).place = 0x3f800000 := by decide +kernel
  have hminusOne : (Single.ofValue (-1)).isNaN = false ∧ (Single.ofValue (-1)).place = -0x3f800000 := by
    decide +kernel
  unfold clamp
  dsimp only
  by_cases hlow : q < -1
  · rw [if_pos hlow]
    have hkeep : ¬(1 : Float32) < -1 := by
      rw [value_lt_iff]
      omega
    rw [if_neg hkeep]
    exact ⟨by omega, by omega⟩
  · rw [if_neg hlow]
    have habove : -0x3f800000 ≤ (Single.ofValue q).place := by
      by_contra hlt
      exact hlow (value_lt_iff.mpr ⟨hq, hminusOne.1, by omega⟩)
    by_cases hhigh : 1 < q
    · rw [if_pos hhigh]
      exact ⟨by omega, by omega⟩
    · rw [if_neg hhigh]
      refine ⟨habove, ?_⟩
      by_contra hgt
      exact hhigh (value_lt_iff.mpr ⟨hone.1, hq, by omega⟩)

/-- Between 0 and 2, whose bits are `40000000`. -/
def Single.InCosineRange (x : Single) : Prop := x.isNaN = false ∧ 0 ≤ x.place ∧ x.place ≤ 0x40000000

/-- Between `-1` and `1`, the bits without the sign are at most those of `1`. -/
theorem magnitudeBits_le_one {x : Single} (hlow : -0x3f800000 ≤ x.place) (hhigh : x.place ≤ 0x3f800000) :
    x.magnitudeBits ≤ 0x3f800000 := by
  unfold Single.place at hlow hhigh
  split at hlow <;> omega

/-- One minus a number is the exact difference, rounded. -/
theorem roundedTo_one_sub {c : Float32} (hc : (Single.ofValue c).magnitudeBits ≤ 0x3f800000) :
    RoundedTo (1 - signed (signOf (Single.ofValue c).bits.toBitVec) (grid (Single.ofValue c).magnitudeBits))
      (1 - c).toModel.unpack := by
  have hone : Unpacked .positive 0x3f800000 (1 : Float32).toModel.unpack :=
    .finite (m := 0x800000) (e := -23) (by decide) (by omega) (by omega) (by omega) (Or.inl le_rfl) (by omega)
  have hu : Unpacked (signOf (Single.ofValue c).bits.toBitVec) (Single.ofValue c).magnitudeBits c.toModel.unpack :=
    unpacked_unpack (Single.ofValue c).bits.toBitVec
  have hrounded := hone.sub hu (by omega) (by omega)
  rwa [show signed .positive (grid 0x3f800000) = 1 from grid_one] at hrounded

/-- One minus a number between `-1` and `1`. -/
theorem one_sub_range {c : Float32} (hlow : -0x3f800000 ≤ (Single.ofValue c).place)
    (hhigh : (Single.ofValue c).place ≤ 0x3f800000) :
    (Single.ofValue (1 - c)).InCosineRange := by
  have hbits := magnitudeBits_le_one hlow hhigh
  have hrounded := roundedTo_one_sub hbits
  generalize (Single.ofValue c).magnitudeBits = n at hbits hrounded
  generalize signOf (Single.ofValue c).bits.toBitVec = s at hrounded
  have hle : grid n ≤ 1 := grid_one ▸ grid_strictMono.monotone hbits
  have hcosine : |signed s (grid n)| ≤ 1 := by
    rwa [abs_signed, abs_of_nonneg (grid_nonneg n)]
  obtain ⟨hbelow, habove⟩ := abs_le.mp hcosine
  obtain ⟨k, hk, hk'⟩ := RoundedTo.magnitude (d := 1 - c) hrounded (by linarith)
  have hbound : k ≤ 0x40000000 := hk'.le_of_le_grid (by omega) (by rw [grid_two]; linarith)
  obtain ⟨hnumber, hplace⟩ := hk.place
  exact ⟨hnumber, by omega, by omega⟩

/-- A NaN passes through the clamp and the difference. -/
theorem isNaN_one_sub_clamp {q : Float32} (hq : (Single.ofValue q).isNaN = true) :
    (1 - clamp q (-1) 1).isNaN = true := by
  have hbelow : ¬q < -1 := fun hlt => Bool.false_ne_true ((value_lt_iff.mp hlt).1.symm.trans hq)
  have habove : ¬1 < q := fun hlt => Bool.false_ne_true ((value_lt_iff.mp hlt).2.1.symm.trans hq)
  have hkeep : clamp q (-1) 1 = q := by
    unfold clamp
    dsimp only
    rw [if_neg hbelow, if_neg habove]
  have hunpack : q.toModel.unpack = .notANumber := (Single.unpacked_eq_notANumber_iff (Single.ofValue q)).mpr hq
  rw [hkeep]
  show (repacked (UnpackedFloat.sub .binary32 (1 : Float32).toModel.unpack q.toModel.unpack)).isNaN = true
  rw [hunpack]
  rfl

/-- Only a number that is not finite, divided by one that is not zero, is a NaN. -/
theorem isFinite_eq_false_of_isNaN_div {n : Nat} {d e : Float32} (he : Magnitude n e) (hn : n ≠ 0)
    (hnan : (Single.ofValue (d / e)).isNaN = true) : d.isFinite = false := by
  have hquotient : UnpackedFloat.div .binary32 d.toModel.unpack e.toModel.unpack = .notANumber :=
    repacked_eq_notANumber ((Single.unpacked_eq_notANumber_iff (Single.ofValue (d / e))).mpr hnan)
  show d.toModel.unpack.isFinite = false
  generalize d.toModel.unpack = u at hquotient
  rcases he.unpack_cases with ⟨hzero, -⟩ | ⟨-, -, m, f, hpos, hv⟩ | ⟨-, hv⟩
  · exact absurd hzero hn
  · rw [hv] at hquotient
    cases u with
    | infinity s => rfl
    | notANumber => rfl
    | zero s => cases hquotient
    | finite s l g h =>
        unfold UnpackedFloat.div roundWithAccuracy at hquotient
        dsimp only at hquotient
        split at hquotient <;> cases hquotient
  · rw [hv] at hquotient
    cases u with
    | infinity s => rfl
    | notANumber => rfl
    | zero s => cases hquotient
    | finite s l g h => cases hquotient

theorem cosineDistance_range {a b : Embedding} (ha : ∀ x ∈ a, x.isFinite = true) (hb : ∀ x ∈ b, x.isFinite = true) :
    (Single.ofValue (cosineDistance a b)).InCosineRange ∨
      (cosineDistance a b).isNaN = true ∧ (dotProduct a b).isFinite = false := by
  have hends : (Single.ofValue 0).InCosineRange ∧ (Single.ofValue 2).InCosineRange := by
    unfold Single.InCosineRange
    decide +kernel
  obtain ⟨n, hn, hnorm⟩ := magnitude_norm ha
  obtain ⟨m, hm, hnorm'⟩ := magnitude_norm hb
  unfold cosineDistance
  dsimp only
  split
  · exact Or.inl hends.1
  · exact Or.inl hends.2
  · exact Or.inl hends.2
  · rename_i hzero hzero'
    have hlarge : 0x1a200000 ≤ n := hnorm.elim
      (fun h => absurd (hn.beq_zero_iff.mpr h.1) (Bool.eq_false_iff.mp hzero)) fun h => h.1
    have hlarge' : 0x1a200000 ≤ m := hnorm'.elim
      (fun h => absurd (hm.beq_zero_iff.mpr h.1) (Bool.eq_false_iff.mp hzero')) fun h => h.1
    obtain ⟨k, hk, hne⟩ := hn.mul_norms hm hlarge hlarge'
    by_cases hnan : (Single.ofValue (dotProduct a b / (norm a * norm b))).isNaN = true
    · exact Or.inr ⟨isNaN_one_sub_clamp hnan, isFinite_eq_false_of_isNaN_div hk hne hnan⟩
    · obtain ⟨hlow, hhigh⟩ := clamp_range (eq_false_of_ne_true hnan)
      exact Or.inl (one_sub_range hlow hhigh)

/-- **The cosine distance is between 0 and 2 unless the dot product overflows**, and is infinite where it is not. -/
theorem Metric.cosine_range {a b : Embedding} (hlength : a.length = b.length) (ha : ∀ x ∈ a, x.isFinite = true)
    (hb : ∀ x ∈ b, x.isFinite = true) : ∃ d, Metric.cosine.distance a b = .ok d ∧
      (d.InCosineRange ∨ d = .infinity ∧ (VectorIndex.dotProduct a b).isFinite = false) := by
  refine ⟨Metric.cosine.rank a b, if_pos hlength, ?_⟩
  show (Metric.cosine.rank a b).InCosineRange ∨ _
  have hrank : Metric.cosine.rank a b =
      if (cosineDistance a b).isNaN then Single.infinity else Single.ofValue (cosineDistance a b) := rfl
  rcases cosineDistance_range ha hb with hrange | ⟨hnan, hdot⟩
  · rw [hrank, if_neg (by rw [← Single.isNaN_ofValue, hrange.1]; exact Bool.false_ne_true)]
    exact Or.inl hrange
  · rw [hrank, if_pos hnan]
    exact Or.inr ⟨rfl, hdot⟩

/-- Two components `1e30`: both the dot product and the norms overflow. -/
example : Metric.cosine.rank [⟨0x7149f2ca⟩] [⟨0x7149f2ca⟩] = .infinity := by decide +kernel

/-- The components `1e-30` and `1`: the first counts as without length. -/
example : Metric.cosine.rank [⟨0x0da24260⟩] [⟨0x3f800000⟩] = ⟨0x40000000⟩ := by decide +kernel

end VectorIndex
