import Mathlib.Data.List.Induction
import VectorIndex.Proofs.Comparison

/-!
# `VectorIndex.Proofs.Ordering` — the order of neighbours, and what a bounded list keeps of it

`Single.rankKey` is arithmetic on bits; `Single.Precedes` is what IEEE 754 says of its total order, case by case.
The two agree for all bit patterns (`Single.precedes_iff`), so neighbours are ordered by the total order of their
distances and then by id.

A list with a limit takes entries one at a time and drops its furthest when it is over the limit. It is the
beginning of the list without a limit (`Neighbor.insertBounded_take`), and an insertion commutes with taking
the beginning; so what was dropped is never missed, in whatever order the entries come.

## Contents
- **Total order.** `Single.Precedes`, `Single.precedes_iff`, `Neighbor.compare_eq_lt_iff`,
  `Neighbor.isLinearOrder`.
- **A bounded list as the beginning of an unbounded one.** `insertBounded_take`, `take_insertSorted`.
- **Pushing one after another.** `Neighbor.kept`, `kept_snoc`, `kept_eq`, `sorted_getLast?_eq_some_iff`.
- **Result.** `Neighbor.kept_nearest`.
-/

namespace VectorIndex

/-! ## Total order -/

namespace Single

/-- The sign bit is set. -/
def isSigned (x : Single) : Bool := 0x80000000 ≤ x.bits.toNat

/-- `x` comes before `y` in the total order of IEEE 754. Numbers come as they compare, with `-0.0` before
    `0.0`; NaNs with the sign bit come before everything else, those without it behind. Among themselves NaNs
    come by their significands, in reverse if the sign bit is set. -/
inductive Precedes (x y : Single) : Prop
  | number (hlt : x.lt y = true)
  | zero (hx : x = ⟨0x80000000⟩) (hy : y = ⟨0⟩)
  | below (hx : x.isNaN = true ∧ x.isSigned = true) (hy : ¬ (y.isNaN = true ∧ y.isSigned = true))
  | above (hx : ¬ (x.isNaN = true ∧ x.isSigned = false)) (hy : y.isNaN = true ∧ y.isSigned = false)
  | signedNaNs (hx : x.isNaN = true ∧ x.isSigned = true) (hy : y.isNaN = true ∧ y.isSigned = true)
      (hlt : y.magnitudeBits < x.magnitudeBits)
  | unsignedNaNs (hx : x.isNaN = true ∧ x.isSigned = false) (hy : y.isNaN = true ∧ y.isSigned = false)
      (hlt : x.magnitudeBits < y.magnitudeBits)

variable {x y : Single}

/-- The NaNs with the sign bit have the lowest keys. -/
theorem isNaN_isSigned_iff : (x.isNaN = true ∧ x.isSigned = true) ↔ x.rankKey.toNat < 0x7fffff := by
  have hx := x.bits.toNat_lt
  rw [toNat_rankKey, isNaN, isSigned, magnitudeBits, decide_eq_true_eq, decide_eq_true_eq]
  split <;> omega

/-- The NaNs without the sign bit have the highest keys. -/
theorem isNaN_not_isSigned_iff : (x.isNaN = true ∧ x.isSigned = false) ↔ 0xff800000 < x.rankKey.toNat := by
  have hx := x.bits.toNat_lt
  rw [toNat_rankKey, isNaN, isSigned, magnitudeBits, decide_eq_true_eq, decide_eq_false_iff_not]
  split <;> omega

/-- Numbers whose keys are in order are in order themselves, unless they are the two zeros. -/
theorem place_lt_or_zero (h : x.rankKey < y.rankKey) :
    x.place < y.place ∨ x = ⟨0x80000000⟩ ∧ y = ⟨0⟩ := by
  have hx := x.bits.toNat_lt
  have hy := y.bits.toNat_lt
  rw [UInt32.lt_iff_toNat_lt, toNat_rankKey, toNat_rankKey] at h
  by_cases hzero : x.bits.toNat = 0x80000000 ∧ y.bits.toNat = 0
  · right
    exact ⟨congrArg mk (UInt32.toNat_inj.mp hzero.1), congrArg mk (UInt32.toNat_inj.mp hzero.2)⟩
  · left
    unfold place magnitudeBits
    by_cases hpx : x.bits.toNat < 0x80000000 <;> by_cases hpy : y.bits.toNat < 0x80000000 <;>
      simp only [hpx, hpy, if_true, if_false] at h ⊢ <;> omega

/-- Among bit patterns with the sign bit the order is reversed. -/
theorem rankKey_lt_iff_of_isSigned (hx : x.isSigned = true) (hy : y.isSigned = true) :
    x.rankKey < y.rankKey ↔ y.magnitudeBits < x.magnitudeBits := by
  have hx' := x.bits.toNat_lt
  have hy' := y.bits.toNat_lt
  rw [isSigned, decide_eq_true_eq] at hx hy
  rw [UInt32.lt_iff_toNat_lt, toNat_rankKey, toNat_rankKey, if_neg (by omega), if_neg (by omega)]
  unfold magnitudeBits
  omega

theorem rankKey_lt_iff_of_not_isSigned (hx : x.isSigned = false) (hy : y.isSigned = false) :
    x.rankKey < y.rankKey ↔ x.magnitudeBits < y.magnitudeBits := by
  rw [isSigned, decide_eq_false_iff_not] at hx hy
  rw [UInt32.lt_iff_toNat_lt, toNat_rankKey, toNat_rankKey, if_pos (by omega), if_pos (by omega)]
  unfold magnitudeBits
  omega

/-- The keys are in the order of the bit patterns. -/
theorem precedes_iff : x.Precedes y ↔ x.rankKey < y.rankKey := by
  constructor
  · intro h
    cases h with
    | number hlt => exact rankKey_lt_of_place_lt (lt_iff.mp hlt).2.2
    | zero hx hy =>
        subst hx hy
        decide
    | below hx hy =>
        rw [isNaN_isSigned_iff] at hx hy
        exact UInt32.lt_iff_toNat_lt.mpr (Nat.lt_of_lt_of_le hx (Nat.not_lt.mp hy))
    | above hx hy =>
        rw [isNaN_not_isSigned_iff] at hx hy
        exact UInt32.lt_iff_toNat_lt.mpr (Nat.lt_of_le_of_lt (Nat.not_lt.mp hx) hy)
    | signedNaNs hx hy hlt => exact (rankKey_lt_iff_of_isSigned hx.2 hy.2).mpr hlt
    | unsignedNaNs hx hy hlt => exact (rankKey_lt_iff_of_not_isSigned hx.2 hy.2).mpr hlt
  · intro h
    have hkeys := UInt32.lt_iff_toNat_lt.mp h
    by_cases hsx : x.isNaN = true ∧ x.isSigned = true
    · by_cases hsy : y.isNaN = true ∧ y.isSigned = true
      · exact .signedNaNs hsx hsy ((rankKey_lt_iff_of_isSigned hsx.2 hsy.2).mp h)
      · exact .below hsx hsy
    · by_cases hpy : y.isNaN = true ∧ y.isSigned = false
      · by_cases hpx : x.isNaN = true ∧ x.isSigned = false
        · exact .unsignedNaNs hpx hpy ((rankKey_lt_iff_of_not_isSigned hpx.2 hpy.2).mp h)
        · exact .above hpx hpy
      · -- neither is a NaN: one below `x` or behind `y` would not be in order
        have hnx : x.isNaN = false := by
          by_contra hnan
          have hpx : x.isNaN = true ∧ x.isSigned = false := by
            cases hsign : x.isSigned <;> simp_all
          rw [isNaN_not_isSigned_iff] at hpx hpy
          omega
        have hny : y.isNaN = false := by
          by_contra hnan
          have hsy : y.isNaN = true ∧ y.isSigned = true := by
            cases hsign : y.isSigned <;> simp_all
          rw [isNaN_isSigned_iff] at hsx hsy
          omega
        rcases place_lt_or_zero h with hplace | ⟨hzx, hzy⟩
        · exact .number (lt_iff.mpr ⟨hnx, hny, hplace⟩)
        · exact .zero hzx hzy

end Single

namespace Neighbor

/-- Neighbours come by their distances in the total order, those of one distance by their ids. -/
theorem compare_eq_lt_iff {a b : Neighbor} :
    compare a b = .lt ↔ a.distance.Precedes b.distance ∨ a.distance = b.distance ∧ a.id < b.id := by
  have heq : a.distance.rankKey = b.distance.rankKey ↔ a.distance = b.distance :=
    ⟨Single.rankKey_inj, congrArg Single.rankKey⟩
  rw [compare_def, Ordering.then_eq_lt, Std.compare_eq_lt, Std.compare_eq_lt,
    Std.LawfulEqCmp.compare_eq_iff_eq, Single.precedes_iff, heq]

/-- Neighbours that compare as equal have the same bits and the same id. -/
theorem compare_eq_eq_iff {a b : Neighbor} :
    compare a b = .eq ↔ a.distance.bits = b.distance.bits ∧ a.id = b.id := by
  rw [Std.LawfulEqCmp.compare_eq_iff_eq]
  constructor
  · rintro rfl
    exact ⟨rfl, rfl⟩
  · rintro ⟨hbits, hid⟩
    cases a
    cases b
    exact congrArg₂ mk hid (congrArg Single.mk hbits)

theorem isLinearOrder : IsLinearOrder Neighbor fun a b => a.le b = true where
  refl := le_refl
  trans _ _ _ := le_trans
  antisymm _ _ := le_antisymm
  total a b := Bool.or_eq_true_iff.mp (le_total a b)

/-! ## A bounded list as the beginning of an unbounded one -/

/-- To insert into the beginning is to take the beginning after the insertion. -/
theorem insertBounded_take (limit : Nat) (n : Neighbor) (entries : List Neighbor) :
    insertBounded limit n (entries.take limit) = (insertSorted n entries).take limit := by
  unfold insertBounded
  induction entries generalizing limit with
  | nil => rw [List.take_nil]
  | cons b rest ih =>
      cases limit with
      | zero => rfl
      | succ limit =>
          rw [List.take_succ_cons]
          unfold insertSorted insertOn
          by_cases hle : n.le b = true
          · rw [if_pos hle, if_pos hle, List.take_succ_cons, List.take_succ_cons]
            cases limit with
            | zero => rfl
            | succ limit =>
                rw [List.take_succ_cons, List.take_succ_cons, List.take_take, Nat.min_eq_left (Nat.le_succ limit)]
          · rw [if_neg hle, if_neg hle, List.take_succ_cons, List.take_succ_cons]
            exact congrArg (b :: ·) (ih limit)

/-- An insertion behind the beginning leaves the beginning alone. -/
theorem take_insertSorted {limit : Nat} {n : Neighbor} {entries : List Neighbor}
    (hlong : limit ≤ entries.length) (hbehind : ∀ x ∈ entries.take limit, n.le x = false) :
    (insertSorted n entries).take limit = entries.take limit := by
  induction entries generalizing limit with
  | nil =>
      rw [Nat.le_zero.mp hlong]
      rfl
  | cons b rest ih =>
      cases limit with
      | zero => rfl
      | succ limit =>
          rw [List.take_succ_cons] at hbehind ⊢
          unfold insertSorted insertOn
          have hb : ¬ n.le b = true := by
            rw [hbehind b List.mem_cons_self]
            exact Bool.false_ne_true
          rw [if_neg hb, List.take_succ_cons]
          refine congrArg (b :: ·) (ih (Nat.le_of_succ_le_succ hlong) fun x hx => ?_)
          exact hbehind x (List.mem_cons_of_mem b hx)

/-! ## Pushing one after another -/

/-- What a list with a limit holds once the entries are pushed, the first of them first. -/
def kept (limit : Nat) (pushed : List Neighbor) : List Neighbor :=
  pushed.foldl (fun entries n => insertBounded limit n entries) []

/-- The list with room for all, without its furthest if that is more than `limit` entries. -/
def evicted (limit : Nat) (entries : List Neighbor) : List Neighbor :=
  if limit < entries.length then entries.dropLast else entries

/-- An insertion into a list within its limit drops the furthest entry at most. -/
theorem insertBounded_eq_evicted {limit : Nat} {entries : List Neighbor} (hfits : entries.length ≤ limit)
    (n : Neighbor) : insertBounded limit n entries = evicted limit (insertSorted n entries) := by
  have hlength : (insertSorted n entries).length = entries.length + 1 := length_insertOn n entries
  unfold insertBounded evicted
  by_cases hover : limit < (insertSorted n entries).length
  · rw [if_pos hover, List.dropLast_eq_take]
    congr 1
    omega
  · rw [if_neg hover, List.take_of_length_le (Nat.not_lt.mp hover)]

theorem length_kept_le (limit : Nat) (pushed : List Neighbor) : (kept limit pushed).length ≤ limit := by
  rcases List.eq_nil_or_concat pushed with rfl | ⟨before, n, rfl⟩
  · exact Nat.zero_le limit
  · unfold kept
    rw [List.concat_eq_append, List.foldl_append]
    exact length_insertBounded_le limit n _

/-- One more push puts the entry in its place and drops the furthest if the list is over its limit. -/
theorem kept_snoc (limit : Nat) (pushed : List Neighbor) (n : Neighbor) :
    kept limit (pushed ++ [n]) = evicted limit (insertSorted n (kept limit pushed)) := by
  rw [← insertBounded_eq_evicted (length_kept_le limit pushed)]
  exact List.foldl_append

/-- What is pushed last is put into its place. -/
theorem sort_snoc (pushed : List Neighbor) (n : Neighbor) :
    sort (pushed ++ [n]) = insertSorted n (sort pushed) := by
  refine List.Perm.eq_of_pairwise (fun _ _ _ _ => le_antisymm) (sortedOn_sortOn _)
    (sortedOn_insertOn (sortedOn_sortOn pushed)) ?_
  calc (sort (pushed ++ [n])).Perm (pushed ++ [n]) := sortOn_perm _
    _ |>.Perm (n :: pushed) := List.perm_append_singleton n pushed
    _ |>.Perm (n :: sort pushed) := (sortOn_perm pushed).symm.cons n
    _ |>.Perm (insertSorted n (sort pushed)) := (insertOn_perm n _).symm

/-- **Nothing that is dropped is missed**: the list holds the first of all entries that were pushed. -/
theorem kept_eq (limit : Nat) (pushed : List Neighbor) : kept limit pushed = (sort pushed).take limit := by
  induction pushed using List.reverseRecOn with
  | nil => exact List.take_nil.symm
  | append_singleton pushed n ih =>
      calc kept limit (pushed ++ [n])
          = insertBounded limit n (kept limit pushed) := List.foldl_append
        _ = insertBounded limit n ((sort pushed).take limit) := by rw [ih]
        _ = (insertSorted n (sort pushed)).take limit := insertBounded_take limit n (sort pushed)
        _ = (sort (pushed ++ [n])).take limit := by rw [sort_snoc]

/-- The last of a list in order is its furthest entry. -/
theorem sorted_getLast?_eq_some_iff {entries : List Neighbor} (h : Sorted entries) {n : Neighbor} :
    entries.getLast? = some n ↔ n ∈ entries ∧ ∀ m ∈ entries, m.le n = true := by
  constructor
  · intro hlast
    obtain ⟨before, rfl⟩ := List.getLast?_eq_some_iff.mp hlast
    refine ⟨by simp, fun m hm => ?_⟩
    rcases List.mem_append.mp hm with hm | hm
    · exact (List.pairwise_append.mp h).2.2 m hm n (List.mem_singleton.mpr rfl)
    · exact List.mem_singleton.mp hm ▸ le_refl m
  · rintro ⟨hmem, hall⟩
    rcases List.eq_nil_or_concat entries with rfl | ⟨before, last, rfl⟩
    · exact absurd hmem List.not_mem_nil
    · rw [List.concat_eq_append] at h hmem hall ⊢
      have hlast : last.le n = true := hall last (by simp)
      have hn : n.le last = true := by
        rcases List.mem_append.mp hmem with hm | hm
        · exact (List.pairwise_append.mp h).2.2 n hm last (List.mem_singleton.mpr rfl)
        · exact List.mem_singleton.mp hm ▸ le_refl n
      rw [List.getLast?_concat, le_antisymm hlast hn]

/-! ## Result -/

/-- **A bounded list keeps the nearest.** Neighbours are in a linear order, by their distances in the total
    order of all bit patterns and then by their ids; only the same entry compares as equal. A list with a
    limit, into which entries are pushed one after another, each time dropping the furthest if there is one too
    many, holds the first of everything pushed in order, whatever the order of pushing and however often
    an entry comes; its last is the furthest of these. -/
theorem kept_nearest :
    (IsLinearOrder Neighbor fun a b => a.le b = true) ∧
    (∀ a b : Neighbor,
      (compare a b = .lt ↔ a.distance.Precedes b.distance ∨ a.distance = b.distance ∧ a.id < b.id) ∧
      (compare a b = .eq ↔ a.distance.bits = b.distance.bits ∧ a.id = b.id)) ∧
    ∀ (limit : Nat) (pushed : List Neighbor),
      (∀ n, kept limit (pushed ++ [n]) = evicted limit (insertSorted n (kept limit pushed))) ∧
      (sort pushed).Perm pushed ∧ Sorted (sort pushed) ∧
      kept limit pushed = (sort pushed).take limit ∧
      ∀ n, (kept limit pushed).getLast? = some n ↔
        n ∈ (sort pushed).take limit ∧ ∀ m ∈ (sort pushed).take limit, m.le n = true := by
  refine ⟨isLinearOrder, fun a b => ⟨compare_eq_lt_iff, compare_eq_eq_iff⟩, fun limit pushed => ?_⟩
  have hsorted : Sorted (sort pushed) := sortedOn_sortOn pushed
  refine ⟨kept_snoc limit pushed, sortOn_perm pushed, hsorted, kept_eq limit pushed, fun n => ?_⟩
  rw [kept_eq]
  exact sorted_getLast?_eq_some_iff (hsorted.sublist (List.take_sublist limit _))

end Neighbor

end VectorIndex
