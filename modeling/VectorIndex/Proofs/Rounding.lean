import Mathlib.Algebra.Order.Field.Power
import Mathlib.Data.Real.Basic
import Mathlib.Tactic.FieldSimp
import Mathlib.Tactic.GCongr
import Mathlib.Tactic.Linarith
import Mathlib.Tactic.Ring
import VectorIndex.Proofs.Comparison

/-!
# `VectorIndex.Proofs.Rounding` — what rounding to binary32 does

The magnitudes of binary32 are a grid on the real line. They are numbered by their bits, and `grid` says where
they lie; `0x7f800000`, the bits of infinity, lies one step behind the largest number. A real is rounded to the
nearest point of the grid, to the even one of two that are equally near, and everything from half a step
behind the largest number on is infinity: that is `Rounded`.

The arithmetic of binary32 works on significands instead. It shifts until 24 bits are left, keeps two bits of
what is shifted out, and corrects a carry by another shift. `rounded_roundWithAccuracy` is the statement that
this is `Rounded`: a carry is a step on the grid like any other, because the bits of a number count the
significand and the exponent as one (`grid_eq`).

## Contents
- **Grid.** `grid`, `grid_eq`, `grid_strictMono`.
- **Nearest points.** `middle`, `Rounded`, `Rounded.mono`, with bounds and the case of zero.
- **Significands.** `Accurate`, kept by shifts; `Accurate.roundedMantissa`.
- **Bits.** `repacked`, `pack_finite`, `unpacked_repacked`.
- **Rounding.** `shifted_bounds`, `shiftToTargetExponent_carry`, `Accurate.rounded`, `rounded_roundWithAccuracy`,
  `rounded_round`.
-/

namespace VectorIndex

open Float.Model (Format UnpackedFloat totalExponent)
open Float.Model.UnpackedFloat

/-! ## Grid -/

/-- The magnitude of the bits `n`: multiples of `2^-149` below the normal numbers, and from there on 2^23
    points to each power of two. -/
noncomputable def grid (n : Nat) : ℝ :=
  if n < 0x800000 then n * 2 ^ (-149 : ℤ)
  else ((n % 0x800000 + 0x800000 : Nat) : ℝ) * 2 ^ ((n / 0x800000 : Nat) - 150 : ℤ)

/-- The place of a significand and an exponent on the grid. A significand that has just carried to 25 bits is
    in its place as well. -/
theorem grid_eq {n m : Nat} {e : ℤ} (hm : m ≤ 0x1000000) (he : -149 ≤ e)
    (hnormal : 0x800000 ≤ m ∨ e = -149) (hn : (n : ℤ) = m + (e + 149) * 0x800000) :
    grid n = m * 2 ^ e := by
  unfold grid
  rcases Nat.lt_or_ge m 0x800000 with hlt | hge
  · obtain rfl : e = -149 := hnormal.resolve_left (Nat.not_le.mpr hlt)
    obtain rfl : n = m := by omega
    rw [if_pos hlt]
  · rw [if_neg (by omega)]
    rcases Nat.lt_or_ge m 0x1000000 with hlt | hcarry
    · have hmantissa : n % 0x800000 + 0x800000 = m := by omega
      have hexponent : ((n / 0x800000 : Nat) : ℤ) - 150 = e := by omega
      rw [hmantissa, hexponent]
    · obtain rfl : m = 0x1000000 := by omega
      have hmantissa : n % 0x800000 + 0x800000 = 0x800000 := by omega
      have hexponent : ((n / 0x800000 : Nat) : ℤ) - 150 = e + 1 := by omega
      rw [hmantissa, hexponent, zpow_add₀ two_ne_zero]
      norm_num
      ring

/-- Every point has a significand of 24 bits and an exponent. -/
theorem exists_coordinates (n : Nat) : ∃ (m : Nat) (e : ℤ), m < 0x1000000 ∧ -149 ≤ e ∧
    (0x800000 ≤ m ∨ e = -149) ∧ (n : ℤ) = m + (e + 149) * 0x800000 := by
  rcases Nat.lt_or_ge n 0x800000 with hlt | hge
  · exact ⟨n, -149, by omega, le_refl _, Or.inr rfl, by omega⟩
  · exact ⟨n % 0x800000 + 0x800000, (n / 0x800000 : Nat) - 150, by omega, by omega, Or.inl (by omega), by omega⟩

theorem grid_strictMono : StrictMono grid := by
  refine strictMono_nat_of_lt_succ fun n => ?_
  obtain ⟨m, e, hm, he, hnormal, hn⟩ := exists_coordinates n
  have hstep : 0x800000 ≤ m + 1 ∨ e = -149 := hnormal.imp_left fun h => by omega
  rw [grid_eq hm.le he hnormal hn, grid_eq (m := m + 1) (by omega) he hstep (by omega), Nat.cast_succ]
  have hpos : (0 : ℝ) < 2 ^ e := by positivity
  linarith

theorem grid_zero : grid 0 = 0 := by
  unfold grid
  simp

theorem grid_nonneg (n : Nat) : 0 ≤ grid n := by
  rw [← grid_zero]
  exact grid_strictMono.monotone (Nat.zero_le n)

/-! ## Nearest points -/

/-- Half way from a point to the next. -/
noncomputable def middle (n : Nat) : ℝ := (grid n + grid (n + 1)) / 2

theorem grid_lt_middle (n : Nat) : grid n < middle n := by
  have h := grid_strictMono (Nat.lt_succ_self n)
  unfold middle
  linarith

theorem middle_lt_grid (n : Nat) : middle n < grid (n + 1) := by
  have h := grid_strictMono (Nat.lt_succ_self n)
  unfold middle
  linarith

theorem middle_strictMono : StrictMono middle :=
  strictMono_nat_of_lt_succ fun n => (middle_lt_grid n).trans (grid_lt_middle (n + 1))

/-- `n` is the point that `q` is rounded to: the nearest, and the even one of two that are equally near. The
    last point is infinity, and everything behind it is rounded to it. -/
structure Rounded (q : ℝ) (n : Nat) : Prop where
  le_infinity : n ≤ 0x7f800000
  low : ∀ k, n = k + 1 → middle k < q ∨ middle k = q ∧ Even n
  high : n < 0x7f800000 → q < middle n ∨ q = middle n ∧ Even n

section Rounded

variable {q r : ℝ} {n k : Nat}

/-- **Rounding keeps the order.** -/
theorem Rounded.mono (h : Rounded q n) (h' : Rounded r k) (hle : q ≤ r) : n ≤ k := by
  by_contra hlt
  obtain ⟨j, rfl⟩ : ∃ j, n = j + 1 := ⟨n - 1, by omega⟩
  have hinfinity := h.le_infinity
  have hj : middle j ≤ q := (h.low j rfl).elim le_of_lt fun htie => htie.1.le
  have hk : r ≤ middle k := (h'.high (by omega)).elim le_of_lt fun htie => htie.1.le
  obtain rfl : j = k := by
    have hjk : j ≤ k := middle_strictMono.le_iff_le.mp (hj.trans (hle.trans hk))
    omega
  -- both are half way between `j` and `j + 1`, and only one of these is even
  rcases h.low j rfl with hlow | ⟨_, hodd⟩
  · linarith
  · rcases h'.high (by omega) with hhigh | ⟨_, heven⟩
    · linarith
    · exact (Nat.even_add_one.mp hodd) heven

/-- A point is rounded to itself. -/
theorem rounded_grid (hn : n ≤ 0x7f800000) : Rounded (grid n) n where
  le_infinity := hn
  low k hk := Or.inl (hk ▸ middle_lt_grid k)
  high _ := Or.inl (grid_lt_middle n)

theorem Rounded.le_of_le_grid (h : Rounded q n) (hk : k ≤ 0x7f800000) (hq : q ≤ grid k) : n ≤ k :=
  h.mono (rounded_grid hk) hq

theorem Rounded.le_of_grid_le (h : Rounded q n) (hk : k ≤ 0x7f800000) (hq : grid k ≤ q) : k ≤ n :=
  (rounded_grid hk).mono h hq

/-- What is at most half of the smallest number is rounded to zero, and nothing else is. -/
theorem Rounded.eq_zero_iff (h : Rounded q n) : n = 0 ↔ q ≤ middle 0 := by
  constructor
  · rintro rfl
    exact (h.high (by omega)).elim le_of_lt fun htie => htie.1.le
  · intro hq
    have hzero : Rounded (middle 0) 0 := ⟨by omega, fun k hk => by omega, fun _ => Or.inr ⟨rfl, by decide⟩⟩
    exact Nat.le_zero.mp (h.mono hzero hq)

end Rounded

/-! ## Significands -/

/-- The significand and what is known of its remainder: `x` is less than one step behind `m`. -/
def Accurate (m : Nat) : Accuracy → ℝ → Prop
  | .exact, x => x = m
  | .inexact .lt, x => m < x ∧ x < m + 1 / 2
  | .inexact .eq, x => x = m + 1 / 2
  | .inexact .gt, x => m + 1 / 2 < x ∧ x < m + 1

/-- Halving keeps what is known: the bit shifted out becomes the first of the remainder. -/
theorem Accurate.shiftRightOne {em : ExtendedMantissa} {x : ℝ} (h : Accurate em.mantissa em.accuracy x) :
    Accurate em.shiftRightOne.mantissa em.shiftRightOne.accuracy (x / 2) := by
  obtain ⟨m, round, sticky⟩ := em
  have hsplit : (m : ℝ) = 2 * (m / 2 : Nat) + (m % 2 : Nat) := by
    exact_mod_cast (Nat.div_add_mod m 2).symm
  have hbit : m % 2 = 0 ∨ m % 2 = 1 := by omega
  unfold ExtendedMantissa.shiftRightOne
  cases round <;> cases sticky <;> rcases hbit with hbit | hbit <;>
    simp only [hbit, Nat.cast_zero, Nat.cast_one, bne_self_eq_false, Nat.reduceBNe, Bool.or_false,
      Bool.or_true, ExtendedMantissa.accuracy, Accurate] at h hsplit ⊢ <;>
    first
      | linarith
      | exact ⟨by linarith, by linarith⟩

theorem Accurate.shiftRight {em : ExtendedMantissa} {x : ℝ} (h : Accurate em.mantissa em.accuracy x)
    (count : Nat) : Accurate (em >>> count).mantissa (em >>> count).accuracy (x / 2 ^ count) := by
  induction count with
  | zero =>
      rw [pow_zero, div_one]
      exact h
  | succ count ih =>
      rw [pow_succ, ← div_div]
      exact ih.shiftRightOne

theorem mantissa_shiftRight (em : ExtendedMantissa) (count : Nat) :
    (em >>> count).mantissa = em.mantissa / 2 ^ count := by
  induction count with
  | zero => exact (Nat.div_one _).symm
  | succ count ih =>
      show (em >>> count).mantissa / 2 = em.mantissa / 2 ^ (count + 1)
      rw [ih, Nat.div_div_eq_div_mul, pow_succ]

/-- The significand that an accurate one is rounded to is one of its two neighbours, the nearer one. -/
theorem Accurate.roundedMantissa {em : ExtendedMantissa} {x : ℝ} (h : Accurate em.mantissa em.accuracy x) :
    (em.roundedMantissa = em.mantissa ∧ em.mantissa ≤ x ∧
      (x < em.mantissa + 1 / 2 ∨ x = em.mantissa + 1 / 2 ∧ Even em.roundedMantissa)) ∨
    (em.roundedMantissa = em.mantissa + 1 ∧ x < em.mantissa + 1 ∧
      (em.mantissa + 1 / 2 < x ∨ em.mantissa + 1 / 2 = x ∧ Even em.roundedMantissa)) := by
  obtain ⟨m, round, sticky⟩ := em
  unfold ExtendedMantissa.roundedMantissa
  cases round <;> cases sticky <;>
    simp only [ExtendedMantissa.accuracy, Accurate, Accuracy.roundToNearestEven] at h ⊢
  · exact Or.inl ⟨trivial, h.ge, Or.inl (by linarith)⟩
  · exact Or.inl ⟨trivial, h.1.le, Or.inl h.2⟩
  · -- a tie: an odd significand goes up
    rcases Nat.mod_two_eq_zero_or_one m with heven | hodd
    · exact Or.inl ⟨by omega, by linarith, Or.inr ⟨h, Nat.even_iff.mpr (by omega)⟩⟩
    · exact Or.inr ⟨by omega, by linarith, Or.inr ⟨h.symm, Nat.even_iff.mpr (by omega)⟩⟩
  · exact Or.inr ⟨trivial, h.2, Or.inl h.1⟩

theorem accuracy_ofMantissaAndAccuracy (m : Nat) (accuracy : Accuracy) :
    (ExtendedMantissa.ofMantissaAndAccuracy m accuracy).mantissa = m ∧
      (ExtendedMantissa.ofMantissaAndAccuracy m accuracy).accuracy = accuracy := by
  cases accuracy with
  | exact => exact ⟨rfl, rfl⟩
  | inexact side => cases side <;> exact ⟨rfl, rfl⟩

/-! ## Bits -/

/-- What is left of a number when it is stored. -/
def repacked (u : UnpackedFloat) : UnpackedFloat := UnpackedFloat.unpack .binary32 (pack .binary32 u)

/-- The sign bit. -/
def signBit : Sign → Nat
  | .negative => 0x80000000
  | .positive => 0

theorem toNat_packComponents (s : Sign) (e : BitVec 8) (m : BitVec 23) :
    (packComponents .binary32 s e m).toNat = signBit s + e.toNat * 0x800000 + m.toNat := by
  have he := e.isLt
  have hm := m.isLt
  show ((s.toBitVec ++ e) ++ m).toNat = _
  rw [BitVec.toNat_append, ← Nat.shiftLeft_add_eq_or_of_lt hm, BitVec.toNat_append,
    ← Nat.shiftLeft_add_eq_or_of_lt he]
  cases s with
  | negative => simp [Sign.toBitVec, signBit, Nat.shiftLeft_eq]; omega
  | positive => simp [Sign.toBitVec, signBit, Nat.shiftLeft_eq]

/-- What the bits of a sign and a magnitude unpack to. -/
theorem unpacked_of_toNat {s : Sign} {n : Nat} {b : BitVec Format.binary32.numBits} (hn : n < 0x80000000)
    (hb : b.toNat = signBit s + n) : Unpacked s n (UnpackedFloat.unpack .binary32 b) := by
  have h := unpacked_unpack b
  have hsign : signOf b = s := by
    unfold signOf
    cases s with
    | negative => exact if_neg (by simp only [hb, signBit]; omega)
    | positive => exact if_pos (by simp only [hb, signBit]; omega)
  have hmagnitude : b.toNat % 0x80000000 = n := by
    cases s <;> simp only [hb, signBit] <;> omega
  rwa [hsign, hmagnitude] at h

theorem repacked_infinity (s : Sign) : repacked (.infinity s) = .infinity s := by cases s <;> rfl

theorem repacked_zero (s : Sign) : repacked (.zero s) = .zero s := by cases s <;> rfl

/-- The fields that a number is stored in. They do not depend on the sign and are not those of a NaN. Those of a
    significand of at most 24 bits are its place on the grid, unless the exponent is too large: then they are the
    fields of infinity. -/
theorem pack_finite {m : Nat} (hpos : 0 < m) (e : ℤ) : ∃ (exponent : BitVec 8) (significand : BitVec 23),
    (∀ s, pack .binary32 (.finite s m e hpos) = packComponents .binary32 s exponent significand) ∧
      (exponent = -1#8 → significand = 0#23) ∧
      ∀ n : Nat, m < 0x1000000 → -149 ≤ e → (0x800000 ≤ m ∨ e = -149) → (n : ℤ) = m + (e + 149) * 0x800000 →
        exponent.toNat * 0x800000 + significand.toNat = min n 0x7f800000 := by
  have hbias : (Format.binary32.exponentBias : ℤ) = 127 := rfl
  have hbits : (Format.binary32.mantissaBitsWithoutImplicit : ℤ) = 23 := rfl
  have hwidth : Format.binary32.mantissaBits = 24 := rfl
  have hlow : 23 ≤ m.log2 ↔ 2 ^ 23 ≤ m := Nat.le_log2 (by omega)
  unfold pack
  dsimp only
  generalize hb : (e + Format.binary32.exponentBias + Format.binary32.mantissaBitsWithoutImplicit).toNat = biased
  by_cases hlarge : 2 ^ 8 ≤ biased + 1
  · refine ⟨-1#8, 0#23, fun s => if_pos hlarge, fun _ => rfl, fun n hm he hnormal hn => ?_⟩
    rw [Nat.min_eq_right (by omega)]
    rfl
  · by_cases hlog : m.log2 + 1 = Format.binary32.mantissaBits
    · -- the leading bit is not stored, and counts for one in the exponent
      refine ⟨BitVec.ofNat 8 biased, BitVec.ofNat 23 m, fun s => (if_neg hlarge).trans (if_pos hlog),
        fun hones => ?_, fun n hm he hnormal hn => ?_⟩
      · have hall := congrArg BitVec.toNat hones
        rw [BitVec.toNat_ofNat, Nat.mod_eq_of_lt (by omega)] at hall
        exact absurd (show biased = 255 from hall) (by omega)
      · rw [BitVec.toNat_ofNat, BitVec.toNat_ofNat, Nat.min_eq_left (by omega)]
        omega
    · refine ⟨0#8, BitVec.ofNat 23 m, fun s => (if_neg hlarge).trans (if_neg hlog),
        fun hones => absurd hones (by decide), fun n hm he hnormal hn => ?_⟩
      have hhigh : m.log2 < 24 := (Nat.log2_lt hpos.ne').mpr hm
      rw [BitVec.toNat_ofNat, BitVec.toNat_ofNat, Nat.min_eq_left (by omega)]
      omega

theorem unpacked_repacked {s : Sign} {m n : Nat} {e : ℤ} (hpos : 0 < m) (hm : m < 0x1000000) (he : -149 ≤ e)
    (hnormal : 0x800000 ≤ m ∨ e = -149) (hn : (n : ℤ) = m + (e + 149) * 0x800000) :
    Unpacked s (min n 0x7f800000) (repacked (.finite s m e hpos)) := by
  obtain ⟨exponent, significand, hpack, -, hplace⟩ := pack_finite hpos e
  have hmin := hplace n hm he hnormal hn
  unfold repacked
  apply unpacked_of_toNat (by omega)
  rw [hpack, toNat_packComponents, Nat.add_assoc, hmin]

/-! ## Rounding -/

/-- The exponent of a result: 24 bits are left, or the exponent is the least. -/
theorem targetExponent_binary32 (total : ℤ) : Format.binary32.targetExponent total = max (total - 24) (-149) := rfl

theorem targetExponent_eq (m : Nat) (e : ℤ) :
    Format.binary32.targetExponent (totalExponent m e) = max (m.log2 + e - 23) (-149) := by
  rw [targetExponent_binary32]
  unfold totalExponent
  congr 1
  omega

/-- The first shift leaves at most 24 bits, and fewer only at the least exponent. -/
theorem shifted_bounds {m : Nat} {e : ℤ} (henough : e ≤ Format.binary32.targetExponent (totalExponent m e)) :
    let target := Format.binary32.targetExponent (totalExponent m e)
    let shifted := m / 2 ^ (target - e).toNat
    shifted < 0x1000000 ∧ -149 ≤ target ∧ (0x800000 ≤ shifted ∨ target = -149) := by
  intro target shifted
  have htarget : target = max (m.log2 + e - 23) (-149) := targetExponent_eq m e
  have hroom : m.log2 + 1 ≤ 24 + (target - e).toNat := by omega
  refine ⟨?_, by omega, ?_⟩
  · refine (Nat.div_lt_iff_lt_mul (by positivity)).mpr ?_
    calc m < 2 ^ (m.log2 + 1) := Nat.lt_log2_self
      _ ≤ 2 ^ (24 + (target - e).toNat) := Nat.pow_le_pow_right (by omega) hroom
      _ = 0x1000000 * 2 ^ (target - e).toNat := pow_add 2 24 _
  · rcases eq_or_ne target (-149) with hleast | hne
    · exact Or.inr hleast
    · left
      have hlog : m.log2 = 23 + (target - e).toNat := by omega
      have hm : m ≠ 0 := by
        rintro rfl
        rw [Nat.log2_zero] at hlog
        omega
      refine (Nat.le_div_iff_mul_le (by positivity)).mpr ?_
      calc 0x800000 * 2 ^ (target - e).toNat = 2 ^ m.log2 := by rw [hlog, pow_add]; norm_num
        _ ≤ m := Nat.log2_self_le hm

theorem shiftToTargetExponent_eq {m : Nat} {e : ℤ} (accuracy : Accuracy)
    (henough : e ≤ Format.binary32.targetExponent (totalExponent m e)) :
    shiftToTargetExponent .binary32 m e accuracy =
      (ExtendedMantissa.ofMantissaAndAccuracy m accuracy >>>
        (Format.binary32.targetExponent (totalExponent m e) - e).toNat,
        Format.binary32.targetExponent (totalExponent m e)) := by
  unfold shiftToTargetExponent shiftToExponent
  refine Prod.ext rfl ?_
  show e + ((Format.binary32.targetExponent (totalExponent m e) - e).toNat : ℤ) = _
  omega

/-- The second shift corrects a carry, and leaves the place on the grid as it is. -/
theorem shiftToTargetExponent_carry {m : Nat} {e : ℤ} (hm : m ≤ 0x1000000) (he : -149 ≤ e)
    (hnormal : 0x800000 ≤ m ∨ e = -149) : ∃ em e', shiftToTargetExponent .binary32 m e .exact = (em, e') ∧
      em.mantissa < 0x1000000 ∧ -149 ≤ e' ∧ (0x800000 ≤ em.mantissa ∨ e' = -149) ∧
      (em.mantissa : ℤ) + (e' + 149) * 0x800000 = m + (e + 149) * 0x800000 := by
  refine ⟨_, _, rfl, ?_⟩
  rw [targetExponent_eq, mantissa_shiftRight, (accuracy_ofMantissaAndAccuracy m .exact).1]
  rcases Nat.lt_or_ge m 0x1000000 with hlt | hcarry
  · have hlog : m.log2 < 24 := by
      rcases Nat.eq_zero_or_pos m with rfl | hpos
      · decide
      · exact (Nat.log2_lt hpos.ne').mpr hlt
    have hstay : (max ((m.log2 : ℤ) + e - 23) (-149) - e).toNat = 0 := by omega
    rw [hstay, pow_zero, Nat.div_one]
    exact ⟨hlt, by omega, by omega, by omega⟩
  · obtain rfl : m = 0x1000000 := by omega
    have hlog : Nat.log2 0x1000000 = 24 := by decide
    have hstep : (max ((Nat.log2 0x1000000 : ℤ) + e - 23) (-149) - e).toNat = 1 := by omega
    rw [hstep]
    exact ⟨by decide, by omega, Or.inl (by decide), by omega⟩

/-- Behind the largest number everything is infinity. -/
theorem Rounded.saturate {q : ℝ} {n : Nat}
    (hlow : ∀ k, n = k + 1 → middle k < q ∨ middle k = q ∧ Even n)
    (hhigh : q < middle n ∨ q = middle n ∧ Even n) : Rounded q (min n 0x7f800000) := by
  rcases Nat.le_total n 0x7f800000 with hle | hge
  · rw [Nat.min_eq_left hle]
    exact ⟨hle, hlow, fun _ => hhigh⟩
  · rw [Nat.min_eq_right hge]
    refine ⟨le_refl _, fun k hk => ?_, fun hlt => absurd hlt (lt_irrefl _)⟩
    rcases Nat.eq_or_lt_of_le hge with rfl | hlt
    · exact hlow k hk
    · obtain ⟨j, rfl⟩ : ∃ j, n = j + 1 := ⟨n - 1, by omega⟩
      have hj : middle j ≤ q := (hlow j rfl).elim le_of_lt fun htie => htie.1.le
      exact Or.inl ((middle_strictMono (by omega)).trans_le hj)

/-- A significand rounded to the nearer neighbour is a number rounded to the nearest point. -/
theorem Accurate.rounded {em : ExtendedMantissa} {q : ℝ} {e : ℤ} {n : Nat}
    (h : Accurate em.mantissa em.accuracy (q / 2 ^ e)) (hm : em.mantissa < 0x1000000) (he : -149 ≤ e)
    (hnormal : 0x800000 ≤ em.mantissa ∨ e = -149)
    (hn : (n : ℤ) = em.roundedMantissa + (e + 149) * 0x800000) : Rounded q (min n 0x7f800000) := by
  have hpos : (0 : ℝ) < 2 ^ e := by positivity
  have hscale : q = q / 2 ^ e * 2 ^ e := (div_mul_cancel₀ q hpos.ne').symm
  have hparity : Even n ↔ Even em.roundedMantissa := by rw [Nat.even_iff, Nat.even_iff]; omega
  -- the points before and behind `q`
  obtain ⟨k, hk⟩ : ∃ k : Nat, (k : ℤ) = em.mantissa + (e + 149) * 0x800000 := ⟨_, Int.toNat_of_nonneg (by omega)⟩
  have hbefore : grid k = em.mantissa * 2 ^ e := grid_eq hm.le he hnormal hk
  have hbehind : grid (k + 1) = (em.mantissa + 1) * 2 ^ e := by
    rw [grid_eq (m := em.mantissa + 1) hm he (hnormal.imp_left fun hm => by omega) (by omega), Nat.cast_succ]
  have hmiddle : middle k = (em.mantissa + 1 / 2) * 2 ^ e := by
    unfold middle
    rw [hbefore, hbehind]
    ring
  rcases h.roundedMantissa with ⟨hround, hle, hhigh⟩ | ⟨hround, hlt, hlow⟩
  · obtain rfl : n = k := by omega
    refine Rounded.saturate (fun j hj => Or.inl ?_) ?_
    · calc middle j < grid n := hj ▸ middle_lt_grid j
        _ = em.mantissa * 2 ^ e := hbefore
        _ ≤ q / 2 ^ e * 2 ^ e := by gcongr
        _ = q := hscale.symm
    · rw [hmiddle]
      refine hhigh.imp (fun hx => ?_) fun ⟨hx, heven⟩ => ⟨?_, hparity.mpr heven⟩
      · rw [hscale]
        gcongr
      · rw [← hx, ← hscale]
  · obtain rfl : n = k + 1 := by omega
    refine Rounded.saturate (fun j hj => ?_) (Or.inl ?_)
    · obtain rfl : k = j := by omega
      rw [hmiddle]
      refine hlow.imp (fun hx => ?_) fun ⟨hx, heven⟩ => ⟨?_, hparity.mpr heven⟩
      · rw [hscale]
        gcongr
      · rw [hx, ← hscale]
    · calc q = q / 2 ^ e * 2 ^ e := hscale
        _ < (em.mantissa + 1) * 2 ^ e := by gcongr
        _ = grid (k + 1) := hbehind.symm
        _ < middle (k + 1) := grid_lt_middle (k + 1)

/-- **Rounding a significand.** What is stored is the point nearest to the number that the significand and its
    accuracy stand for. -/
theorem rounded_roundWithAccuracy (s : Sign) {m : Nat} {e : ℤ} {accuracy : Accuracy} {q : ℝ}
    (h : Accurate m accuracy (q / 2 ^ e)) (henough : e ≤ Format.binary32.targetExponent (totalExponent m e)) :
    ∃ n, Rounded q n ∧ Unpacked s n (repacked (roundWithAccuracy .binary32 s m e accuracy)) := by
  obtain ⟨hm, ht, hnormal⟩ := shifted_bounds henough
  have hfirst := shiftToTargetExponent_eq accuracy henough
  generalize htarget : Format.binary32.targetExponent (totalExponent m e) = target at *
  generalize hem : ExtendedMantissa.ofMantissaAndAccuracy m accuracy >>> (target - e).toNat = em at *
  have hmantissa : em.mantissa = m / 2 ^ (target - e).toNat := by
    rw [← hem, mantissa_shiftRight, (accuracy_ofMantissaAndAccuracy m accuracy).1]
  have haccurate : Accurate em.mantissa em.accuracy (q / 2 ^ target) := by
    have hstart : Accurate (ExtendedMantissa.ofMantissaAndAccuracy m accuracy).mantissa
        (ExtendedMantissa.ofMantissaAndAccuracy m accuracy).accuracy (q / 2 ^ e) := by
      rwa [(accuracy_ofMantissaAndAccuracy m accuracy).1, (accuracy_ofMantissaAndAccuracy m accuracy).2]
    have hshift := hstart.shiftRight (target - e).toNat
    have hsplit : (2 : ℝ) ^ target = 2 ^ e * 2 ^ (target - e).toNat := by
      rw [← zpow_natCast, ← zpow_add₀ two_ne_zero]
      congr 1
      omega
    rwa [hem, div_div, ← hsplit] at hshift
  rw [← hmantissa] at hm hnormal
  -- the rounded significand, and the place it has before and after the carry
  have hbound : em.roundedMantissa ≤ em.mantissa + 1 ∧ em.mantissa ≤ em.roundedMantissa := by
    rcases haccurate.roundedMantissa with ⟨hround, -⟩ | ⟨hround, -⟩ <;> omega
  obtain ⟨final, exponent, hsecond, hfinal, hexponent, hcanonical, hplace⟩ :=
    shiftToTargetExponent_carry (m := em.roundedMantissa) (e := target) (by omega) ht
      (hnormal.imp_left fun hm => by omega)
  obtain ⟨n, hn⟩ : ∃ n : Nat, (n : ℤ) = em.roundedMantissa + (target + 149) * 0x800000 :=
    ⟨_, Int.toNat_of_nonneg (by omega)⟩
  refine ⟨min n 0x7f800000, haccurate.rounded hm ht hnormal hn, ?_⟩
  unfold roundWithAccuracy
  rw [hfirst]
  dsimp only
  rw [hsecond]
  dsimp only
  by_cases hzero : final.mantissa = 0
  · rw [dif_pos hzero, repacked_zero]
    obtain rfl : n = 0 := by omega
    exact .zero
  · rw [dif_neg hzero]
    exact unpacked_repacked _ hfinal hexponent hcanonical (by omega)

theorem log2_shiftLeft {m : Nat} (hm : m ≠ 0) (count : Nat) : (m <<< count).log2 = m.log2 + count := by
  rw [Nat.shiftLeft_eq, Nat.log2_eq_iff (by positivity)]
  have hlow := Nat.log2_self_le hm
  have hhigh := Nat.lt_log2_self (n := m)
  constructor
  · rw [pow_add]
    gcongr
  · rw [Nat.add_right_comm, pow_add]
    gcongr

/-- **Rounding an integer times a power of two.** -/
theorem rounded_round (s : Sign) {m : Nat} (hm : m ≠ 0) (e : ℤ) :
    ∃ n, Rounded (m * 2 ^ e) n ∧ Unpacked s n (repacked (UnpackedFloat.round .binary32 s m e)) := by
  unfold UnpackedFloat.round decreaseExponent
  dsimp only
  generalize hshift : (e - Format.binary32.targetExponent (totalExponent m e)).toNat = shift
  have htotal : totalExponent (m <<< shift) (e - shift) = totalExponent m e := by
    unfold totalExponent
    rw [log2_shiftLeft hm]
    omega
  apply rounded_roundWithAccuracy
  · show (m : ℝ) * 2 ^ e / 2 ^ (e - shift : ℤ) = ((m <<< shift : Nat) : ℝ)
    rw [Nat.shiftLeft_eq, zpow_sub₀ two_ne_zero, zpow_natCast]
    push_cast
    field_simp
  · rw [htotal]
    omega

end VectorIndex
