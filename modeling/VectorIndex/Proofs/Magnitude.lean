import VectorIndex.Proofs.Arithmetic
import VectorIndex.Proofs.Symmetry

/-!
# `VectorIndex.Proofs.Magnitude` — numbers that are not negative

Sums of squares, their roots and norms are never negative. Such a number is known by its bits without the sign
(`Magnitude`): only a zero may have the sign bit, and infinity is a magnitude like any other. Sums and square roots of
magnitudes are magnitudes, rounded once; so the square root keeps the order (`Magnitude.sqrt_mono`), although it may
bring two numbers together.

## Contents
- **Magnitudes.** `Magnitude`, `RoundedTo.magnitude`, `Magnitude.unpack_cases`, `Magnitude.beq_zero_iff`.
- **Places.** `Magnitude.place`, `Single.magnitude_value`.
- **Operations.** `Magnitude.add`, `Magnitude.rounded_sqrt`, `Magnitude.sqrt_mono`, `Single.place_sqrt_le`.
-/

namespace VectorIndex

open Float.Model (Format UnpackedFloat)
open Float.Model.UnpackedFloat

/-! ## Magnitudes -/

/-- Half of the smallest number. -/
theorem middle_zero : middle 0 = 2 ^ (-150 : ℤ) := by
  unfold middle
  rw [grid_zero, grid_eq (m := 1) (e := -149) (by omega) le_rfl (Or.inr rfl) (by omega)]
  norm_num

theorem middle_zero_lt_grid {n : Nat} (hn : n ≠ 0) : middle 0 < grid n :=
  (middle_lt_grid 0).trans_le (grid_strictMono.monotone (by omega))

/-- `d` is not negative and its bits without the sign are `n`; a zero may have either sign. -/
def Magnitude (n : Nat) (d : Float32) : Prop :=
  n ≤ 0x7f800000 ∧ ∃ s, Unpacked s n d.toModel.unpack ∧ (s = .negative → n = 0)

theorem signed_grid {s : Sign} {n : Nat} (h : s = .negative → n = 0) : signed s (grid n) = grid n := by
  cases s with
  | negative => rw [h rfl, grid_zero, signed_zero]
  | positive => rfl

theorem magnitude_infinity {d : Float32} (h : d.toModel.unpack = .infinity .positive) : Magnitude 0x7f800000 d :=
  ⟨le_refl _, .positive, h ▸ .infinity, Sign.noConfusion⟩

/-- A number that is not negative is rounded to one that is not. -/
theorem RoundedTo.magnitude {q : ℝ} {d : Float32} (h : RoundedTo q d.toModel.unpack) (hq : 0 ≤ q) :
    ∃ n, Magnitude n d ∧ Rounded q n := by
  obtain ⟨s, n, hu, hn, hpositive, -⟩ := h
  rw [abs_of_nonneg hq] at hn
  refine ⟨n, ⟨hn.le_infinity, s, hu, fun hs => hn.eq_zero_iff.mpr ?_⟩, hn⟩
  rcases hq.eq_or_lt with rfl | hpos
  · rw [middle_zero]
    positivity
  · rw [hpositive hpos] at hs
    cases hs

section Magnitude

variable {n m : Nat} {d e : Float32} {x y : Single}

/-- Only a zero may have the sign bit. -/
theorem Magnitude.unpacked (hd : Magnitude n d) (hn : n ≠ 0) : Unpacked .positive n d.toModel.unpack := by
  obtain ⟨-, s, hu, hs⟩ := hd
  cases s with
  | negative => exact absurd (hs rfl) hn
  | positive => exact hu

theorem Magnitude.unpack_cases (hd : Magnitude n d) :
    (n = 0 ∧ ∃ s, d.toModel.unpack = .zero s) ∨
      (n ≠ 0 ∧ n < 0x7f800000 ∧ ∃ m e h, d.toModel.unpack = .finite .positive m e h) ∨
      (n = 0x7f800000 ∧ d.toModel.unpack = .infinity .positive) := by
  have hn := hd.1
  rcases eq_or_ne n 0 with rfl | hne
  · obtain ⟨-, s, hu, -⟩ := hd
    generalize d.toModel.unpack = u at hu
    cases hu with
    | zero => exact Or.inl ⟨rfl, s, rfl⟩
    | finite => omega
    | notANumber => omega
  · have hu := hd.unpacked hne
    generalize d.toModel.unpack = u at hu
    cases hu with
    | zero => exact absurd rfl hne
    | @finite _ m e hpos => exact Or.inr (Or.inl ⟨hne, by omega, m, e, hpos, rfl⟩)
    | infinity => exact Or.inr (Or.inr ⟨rfl, rfl⟩)
    | notANumber => omega

theorem Magnitude.beq_zero_iff (hd : Magnitude n d) : (d == 0) = true ↔ n = 0 := by
  obtain ⟨hn, s, hu, -⟩ := hd
  have hcompare := hu.compare_eq (Unpacked.zero (s := .positive)) hn (by omega)
  have hbeq : (d == 0) = (d.toModel.unpack.compare (.zero .positive) == some .eq) := rfl
  rw [hbeq, hcompare, beq_iff_eq, Option.some.injEq, Int.compare_eq_eq]
  cases s <;> simp only [Sign.apply] <;> omega

/-! ## Places -/

theorem Unpacked.unique {s t : Sign} {n m : Nat} {u : UnpackedFloat} (h : Unpacked s n u) (h' : Unpacked t m u)
    (hn : n ≤ 0x7f800000) : s = t ∧ n = m := by
  cases h with
  | zero => cases h' with
    | zero => exact ⟨rfl, rfl⟩
  | finite => cases h' with
    | finite => exact ⟨rfl, by omega⟩
  | infinity => cases h' with
    | infinity => exact ⟨rfl, rfl⟩
  | notANumber => omega

theorem Magnitude.place (hd : Magnitude n d) :
    (Single.ofValue d).isNaN = false ∧ (Single.ofValue d).place = n := by
  obtain ⟨hn, s, hu, hs⟩ := hd
  obtain ⟨hsign, hbits⟩ := hu.unique (unpacked_unpack (Single.ofValue d).bits.toBitVec) hn
  have hmagnitude : (Single.ofValue d).magnitudeBits = n := hbits.symm
  unfold Single.isNaN Single.place
  rw [hmagnitude]
  refine ⟨decide_eq_false (by omega), ?_⟩
  by_cases hpositive : (Single.ofValue d).bits.toNat < 0x80000000
  · rw [if_pos hpositive]
  · rw [if_neg hpositive, hs (hsign.trans (if_neg hpositive))]
    rfl

theorem Unpacked.eq_zero {u : UnpackedFloat} (h : Unpacked .negative n u) (hu : NotNegative u)
    (hn : n ≤ 0x7f800000) : n = 0 := by
  cases h with
  | zero => rfl
  | finite => cases hu
  | infinity => cases hu
  | notANumber hnan => omega

/-- A number that is not negative is at the place of its magnitude. -/
theorem Single.magnitude_value (hx : NotNegative x.unpacked) (hnumber : x.isNaN = false) :
    Magnitude x.magnitudeBits x.value ∧ x.place = x.magnitudeBits := by
  have hu : Unpacked (signOf x.bits.toBitVec) x.magnitudeBits x.unpacked := unpacked_unpack x.bits.toBitVec
  have hle : x.magnitudeBits ≤ 0x7f800000 := by
    rwa [isNaN, decide_eq_false_iff_not, Nat.not_lt] at hnumber
  have hzero : signOf x.bits.toBitVec = .negative → x.magnitudeBits = 0 := by
    intro hsign
    rw [hsign] at hu
    exact hu.eq_zero hx hle
  refine ⟨⟨hle, signOf x.bits.toBitVec, ?_, hzero⟩, ?_⟩
  · rw [Single.unpacked_value]
    exact hu
  · unfold place
    by_cases hpositive : x.bits.toNat < 0x80000000
    · rw [if_pos hpositive]
    · rw [if_neg hpositive, hzero (if_neg hpositive)]
      rfl

/-! ## Operations -/

/-- A sum vanishes only if both parts are zero. -/
theorem Magnitude.add (hd : Magnitude n d) (he : Magnitude m e) :
    ∃ k, Magnitude k (d + e) ∧ (k = 0 ↔ n = 0 ∧ m = 0) := by
  have hsum : (d + e).toModel.unpack =
    repacked (UnpackedFloat.add .binary32 d.toModel.unpack e.toModel.unpack) := rfl
  by_cases hinfinite : n = 0x7f800000 ∨ m = 0x7f800000
  · -- an infinite part decides, and neither part is a negative infinity
    refine ⟨0x7f800000, magnitude_infinity ?_, by omega⟩
    rw [hsum]
    rcases hd.unpack_cases with ⟨hn, s, hu⟩ | ⟨-, hn, k, f, h, hu⟩ | ⟨hn, hu⟩ <;>
      rcases he.unpack_cases with ⟨hm, t, hv⟩ | ⟨-, hm, l, g, h', hv⟩ | ⟨hm, hv⟩ <;>
        first
          | omega
          | (rw [hu, hv]; exact repacked_infinity .positive)
  · obtain ⟨hn, s, hu, hs⟩ := hd
    obtain ⟨hm, t, hv, ht⟩ := he
    have hrounded := hu.add hv (by omega) (by omega)
    rw [signed_grid hs, signed_grid ht] at hrounded
    have hleft := grid_nonneg n
    have hright := grid_nonneg m
    obtain ⟨k, hk, hk'⟩ := RoundedTo.magnitude (d := d + e) hrounded (add_nonneg hleft hright)
    refine ⟨k, hk, hk'.eq_zero_iff.trans ⟨fun hle => ⟨?_, ?_⟩, ?_⟩⟩
    · by_contra hne
      linarith [middle_zero_lt_grid hne]
    · by_contra hne
      linarith [middle_zero_lt_grid hne]
    · rintro ⟨rfl, rfl⟩
      rw [grid_zero, add_zero, middle_zero]
      positivity

/-- The root is rounded once, and the root of infinity is infinite. -/
theorem Magnitude.rounded_sqrt (hd : Magnitude n d) : ∃ k, Magnitude k d.sqrt ∧
    (n < 0x7f800000 ∧ Rounded (√(grid n)) k ∨ n = 0x7f800000 ∧ k = 0x7f800000) := by
  have hroot : d.sqrt.toModel.unpack = repacked (UnpackedFloat.sqrt .binary32 d.toModel.unpack) := rfl
  rcases hd.unpack_cases with ⟨rfl, s, hu⟩ | ⟨hn, hlt, -⟩ | ⟨hn, hu⟩
  · refine ⟨0, ⟨by omega, s, ?_, fun _ => rfl⟩, Or.inl ⟨by omega, ?_⟩⟩
    · rw [hroot, hu]
      exact (repacked_zero s).symm ▸ .zero
    · rw [grid_zero, Real.sqrt_zero, ← grid_zero]
      exact rounded_grid (Nat.zero_le _)
  · obtain ⟨k, hk, hrounded⟩ :=
      RoundedTo.magnitude (d := d.sqrt) ((hd.unpacked hn).sqrt hlt) (Real.sqrt_nonneg _)
    exact ⟨k, hk, Or.inl ⟨hlt, hrounded⟩⟩
  · refine ⟨0x7f800000, magnitude_infinity ?_, Or.inr ⟨hn, rfl⟩⟩
    rw [hroot, hu]
    rfl

/-- **The square root keeps the order.** -/
theorem Magnitude.sqrt_mono (hd : Magnitude n d) (he : Magnitude m e) (hle : n ≤ m) :
    ∃ k l, Magnitude k d.sqrt ∧ Magnitude l e.sqrt ∧ k ≤ l := by
  obtain ⟨k, hk, hroot⟩ := hd.rounded_sqrt
  obtain ⟨l, hl, hroot'⟩ := he.rounded_sqrt
  refine ⟨k, l, hk, hl, ?_⟩
  rcases hroot' with ⟨hm, hrounded'⟩ | ⟨-, rfl⟩
  · rcases hroot with ⟨-, hrounded⟩ | ⟨rfl, -⟩
    · exact hrounded.mono hrounded' (Real.sqrt_le_sqrt (grid_strictMono.monotone hle))
    · omega
  · exact hk.1

theorem Single.place_sqrt_le (hx : NotNegative x.unpacked) (hy : NotNegative y.unpacked)
    (hxn : x.isNaN = false) (hyn : y.isNaN = false) (hle : x.place ≤ y.place) :
    (ofValue x.value.sqrt).place ≤ (ofValue y.value.sqrt).place := by
  obtain ⟨hmx, hpx⟩ := magnitude_value hx hxn
  obtain ⟨hmy, hpy⟩ := magnitude_value hy hyn
  obtain ⟨k, l, hk, hl, hkl⟩ := hmx.sqrt_mono hmy (by omega)
  rw [hk.place.2, hl.place.2]
  exact_mod_cast hkl

end Magnitude

end VectorIndex
