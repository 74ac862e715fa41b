import VectorIndex.Proofs.CosineRange
import VectorIndex.Proofs.Ordering
import VectorIndex.Proofs.Search

/-!
# `VectorIndex.Proofs.ReportedOrder` — in which order a caller sees the items

A search sorts and cuts by ranking distances, in the total order of their bits, and reports other ones. The two orders
agree except where the reported distances are equal as numbers, and there are two ways in which ranking distances are
not:

- Two squares may have one square root. The root keeps the order (`Metric.place_report_le`), so the item with the
  smaller square comes first, whatever the ids.
- The total order puts `-0.0` before `0.0`. Only dot products are zeros of both signs: all other measures are sums that
  lose the sign they start with, or one minus a cosine (`Metric.eq_dotProduct_of_zeros`).

Apart from these, items that are reported to be as near come in the order of their ids (`search_order`); by cosine and
by Manhattan distance they always do.

## Contents
- **Signs.** `unsigned_one_sub`, `unsigned_cosineDistance`, `Metric.unsigned_rank`, `Metric.eq_dotProduct_of_zeros`.
- **Two items.** `Metric.place_report_le`, `Neighbor.cases_of_le`, `Metric.BreaksTie`, `Metric.reported_order`.
- **Answers.** `Searcher.searchByItem_eq`, `search_order`.
-/

namespace VectorIndex

open Float.Model (Format UnpackedFloat)
open Float.Model.UnpackedFloat

/-! ## Signs -/

theorem Unpacked.unsigned {n : Nat} {u : UnpackedFloat} (h : Unpacked .positive n u) : Unsigned u := by
  cases h <;> rfl

/-- A number whose place is before that of a point lies before the point. -/
theorem Single.signed_lt_of_place_lt {x : Single} {k : Nat} (hk : 0 < k) (h : x.place < k) :
    signed (signOf x.bits.toBitVec) (grid x.magnitudeBits) < grid k := by
  unfold Single.place at h
  unfold signOf
  by_cases hsign : x.bits.toNat < 0x80000000
  · rw [if_pos hsign] at h
    rw [if_pos (by exact hsign)]
    exact grid_strictMono (by omega)
  · rw [if_neg (by exact hsign)]
    calc -grid x.magnitudeBits ≤ 0 := neg_nonpos.mpr (grid_nonneg _)
      _ = grid 0 := grid_zero.symm
      _ < grid k := grid_strictMono hk

/-- One minus a number up to one has no sign, nor has one minus one. -/
theorem unsigned_one_sub {c : Float32} (hlow : -0x3f800000 ≤ (Single.ofValue c).place)
    (hhigh : (Single.ofValue c).place ≤ 0x3f800000) : Unsigned (1 - c).toModel.unpack := by
  have hbits := magnitudeBits_le_one hlow hhigh
  rcases hhigh.eq_or_lt with hone | hless
  · -- rounding says nothing of the sign of an exact zero, so this one is computed
    have hc : Single.ofValue c = ⟨0x3f800000⟩ := by
      refine congrArg Single.mk (UInt32.toNat_inj.mp ?_)
      show (Single.ofValue c).bits.toNat = 0x3f800000
      have hword := (Single.ofValue c).bits.toNat_lt
      unfold Single.place Single.magnitudeBits at hone
      split at hone <;> omega
    have hunpack : c.toModel.unpack = (Single.ofValue c).unpacked := rfl
    show Unsigned (repacked (UnpackedFloat.sub .binary32 (1 : Float32).toModel.unpack c.toModel.unpack))
    rw [hunpack, hc]
    rfl
  · have hbelow := Single.signed_lt_of_place_lt (k := 0x3f800000) (by omega) hless
    rw [grid_one] at hbelow
    obtain ⟨s, n, hu, -, hpositive, -⟩ := roundedTo_one_sub hbits
    rw [hpositive (sub_pos.mpr hbelow)] at hu
    exact hu.unsigned

theorem unsigned_of_isNaN {d : Float32} (hnan : d.isNaN = true) : Unsigned d.toModel.unpack := by
  have hunpacked : d.toModel.unpack.isNaN = true := hnan
  cases hu : d.toModel.unpack with
  | notANumber => rfl
  | _ =>
      rw [hu] at hunpacked
      cases hunpacked

theorem unsigned_cosineDistance (a b : Embedding) : Unsigned (cosineDistance a b).toModel.unpack := by
  unfold cosineDistance
  dsimp only
  split
  · rfl
  · rfl
  · rfl
  · by_cases hnan : (Single.ofValue (dotProduct a b / (norm a * norm b))).isNaN = true
    · exact unsigned_of_isNaN (isNaN_one_sub_clamp hnan)
    · obtain ⟨hlow, hhigh⟩ := clamp_range (eq_false_of_ne_true hnan)
      exact unsigned_one_sub hlow hhigh

/-- Except for dot products, no distance of vectors with components has the sign bit. -/
theorem Metric.unsigned_rank {metric : Metric} (hmetric : metric ≠ .dotProduct) {a b : Embedding} (ha : a ≠ [])
    (hb : b ≠ []) : Unsigned (metric.rank a b).unpacked := by
  have hmeasure : Unsigned (metric.measure a b).toModel.unpack := by
    cases metric with
    | euclidean => exact unsigned_squaredEuclidean ha hb
    | cosine => exact unsigned_cosineDistance a b
    | manhattan =>
        refine unsigned_sumOver (fun x y => ?_) notNegative_negativeZero (Or.inl ⟨ha, hb⟩)
        exact (unsigned_abs (x - y).toModel.unpack).repacked
    | dotProduct => exact absurd rfl hmetric
  unfold Metric.rank
  by_cases hnan : (metric.measure a b).isNaN = true
  · simp only [hnan, if_true]
    rfl
  · simp only [hnan]
    exact hmeasure

/-- Only dot products tell the two zeros apart. -/
theorem Metric.eq_dotProduct_of_zeros {metric : Metric} {query v w : Embedding} (hv : query.length = v.length)
    (hw : query.length = w.length) (hminus : metric.rank query v = ⟨0x80000000⟩) (hzero : metric.rank query w = ⟨0⟩) :
    metric = .dotProduct := by
  by_contra hmetric
  -- sums over no components keep the sign that they start with, but then all distances are the same
  have hempty : query = [] ∨ v = [] := by
    by_contra hsome
    obtain ⟨hquery, hv⟩ := not_or.mp hsome
    have hunsigned := Metric.unsigned_rank hmetric hquery hv
    rw [hminus] at hunsigned
    cases hunsigned
  obtain ⟨rfl, rfl⟩ : v = [] ∧ w = [] := by
    rcases hempty with rfl | rfl
    · exact ⟨List.length_eq_zero_iff.mp hv.symm, List.length_eq_zero_iff.mp hw.symm⟩
    · exact ⟨rfl, List.length_eq_zero_iff.mp (hw.symm.trans hv)⟩
  rw [hminus] at hzero
  cases hzero

/-! ## Two items -/

/-- **What a caller is told is in the order of the ranking.** -/
theorem Metric.place_report_le (metric : Metric) {a b c d : Embedding}
    (hle : (metric.rank a b).place ≤ (metric.rank c d).place) :
    (metric.report (metric.rank a b)).place ≤ (metric.report (metric.rank c d)).place := by
  cases metric with
  | euclidean =>
      exact Single.place_sqrt_le (notNegative_rank a b) (notNegative_rank c d) (isNaN_rank _ a b)
        (isNaN_rank _ c d) hle
  | _ => exact hle

/-- A neighbour that comes first is nearer, or has a negative zero where the other has a zero, or is at the same
    distance and has the smaller id. -/
theorem Neighbor.cases_of_le {a b : Neighbor} (hle : a.le b = true) (hne : a.id ≠ b.id)
    (ha : a.distance.isNaN = false) (hb : b.distance.isNaN = false) :
    a.distance.lt b.distance = true ∨ (a.distance = ⟨0x80000000⟩ ∧ b.distance = ⟨0⟩) ∨
      a.distance = b.distance ∧ a.id < b.id := by
  rcases compare_eq_lt_iff.mp (compare_eq_lt_of_le hle hne) with hprecedes | hsame
  · rcases Single.place_lt_or_zero (Single.precedes_iff.mp hprecedes) with hplace | hzeros
    · exact Or.inl (Single.lt_iff.mpr ⟨ha, hb, hplace⟩)
    · exact Or.inr (Or.inl hzeros)
  · exact Or.inr (Or.inr hsame)

/-- What puts the vector `v` before `w`, whatever the ids, although both are reported to be as far from `query`: the
    smaller of two squares that have one root, and the one of two zeros that has the sign bit. -/
def Metric.BreaksTie (metric : Metric) (query v w : Embedding) : Prop :=
  match metric with
  | .euclidean => (Metric.euclidean.rank query v).lt (Metric.euclidean.rank query w) = true
  | .dotProduct => Metric.dotProduct.rank query v = ⟨0x80000000⟩ ∧ Metric.dotProduct.rank query w = ⟨0⟩
  | .cosine | .manhattan => False

/-- **Two items in the order of the ranking, as a caller sees them.** -/
theorem Metric.reported_order (metric : Metric) {query v w : Embedding} (hv : query.length = v.length)
    (hw : query.length = w.length) {i j : ItemId} (hne : i ≠ j)
    (hle : (⟨i, metric.rank query v⟩ : Neighbor).le ⟨j, metric.rank query w⟩ = true) :
    (metric.report (metric.rank query v)).lt (metric.report (metric.rank query w)) = true ∨
      ((metric.report (metric.rank query v)).value == (metric.report (metric.rank query w)).value) = true ∧
        (i < j ∨ metric.BreaksTie query v w) := by
  have hvn := metric.isNaN_report query v
  have hwn := metric.isNaN_report query w
  rcases Neighbor.cases_of_le hle hne (metric.isNaN_rank query v) (metric.isNaN_rank query w) with
    hlt | ⟨hminus, hzero⟩ | ⟨hsame, hid⟩
  · -- different places; only the square root may bring them together
    rcases (metric.place_report_le (Single.lt_iff.mp hlt).2.2.le).lt_or_eq with hplace | hplace
    · exact Or.inl (Single.lt_iff.mpr ⟨hvn, hwn, hplace⟩)
    · refine Or.inr ⟨Single.beq_iff.mpr ⟨hvn, hwn, hplace⟩, Or.inr ?_⟩
      cases metric with
      | euclidean => exact hlt
      | _ => exact absurd hplace (Single.lt_iff.mp hlt).2.2.ne
  · -- one place and two bit patterns
    obtain rfl := Metric.eq_dotProduct_of_zeros hv hw hminus hzero
    refine Or.inr ⟨Single.beq_iff.mpr ⟨hvn, hwn, ?_⟩, Or.inr ⟨hminus, hzero⟩⟩
    show (Metric.dotProduct.rank query v).place = (Metric.dotProduct.rank query w).place
    rw [show Metric.dotProduct.rank query v = ⟨0x80000000⟩ from hminus,
      show Metric.dotProduct.rank query w = ⟨0⟩ from hzero]
    decide
  · have hreport : metric.report (metric.rank query v) = metric.report (metric.rank query w) :=
      congrArg metric.report hsame
    exact Or.inr ⟨Single.beq_iff.mpr ⟨hvn, hwn, congrArg Single.place hreport⟩, Or.inl hid⟩

/-! ## Answers -/

section Results

variable {distances : Metric → Ranking} {steps : List Step} {s : Session} {index : IndexId} {x : Searcher}
  {query : Embedding}

theorem Committed.length_vector {nodes : IdMap Node} (hc : Committed x.head x.rows nodes) {id : ItemId}
    {v : Embedding} (hitem : (id, v) ∈ x.table) : v.length = x.dimension := by
  obtain ⟨node, hnode, rfl⟩ := hc.mem_table.mp hitem
  exact (hc.wellFormed.vectors id node hnode).1

/-- To search by an item is to search by its vector. -/
theorem Searcher.searchByItem_eq {nodes : IdMap Node} (hc : Committed x.head x.rows nodes) {id : ItemId}
    (hitem : (id, query) ∈ x.table) (k ef : Nat) :
    x.searchByItem id k ef = (x.ask query k ef none).map some := by
  obtain ⟨node, hnode, rfl⟩ := hc.mem_table.mp hitem
  have hvector : x.vector id = .ok (some node.embedding) := by
    unfold Searcher.vector
    rw [hc.shows id, hnode]
    rfl
  have hcheck : x.checkQuery node.embedding = .ok () := if_pos (hc.wellFormed.vectors id node hnode).1
  show x.searchByItem id k ef = (x.search node.embedding k ef).map some
  unfold Searcher.searchByItem Searcher.search
  rw [hvector, hcheck, ok_bind, ok_bind]
  dsimp only
  cases x.nearest node.embedding k ef none <;> rfl

/-- **In which order a caller sees the items.** An answer ascends by reported distance. Of two items that are reported
    to be as near the one with the smaller id comes first, unless the metric breaks the tie. A search by an item gives
    the answer to the search by its vector. -/
theorem search_order (hrun : World.run distances steps = .opened s) (hx : s.db.searcher index = .ok x)
    (hquery : query.length = x.dimension) (k ef : Nat) (filter : Option IdSet) :
    ∃ found, x.ask query k ef filter = .ok found ∧
      (∀ id, (id, query) ∈ x.table → filter = none → x.searchByItem id k ef = .ok (some found)) ∧
      found.Pairwise fun a b => a.distance.lt b.distance = true ∨
        (a.distance.value == b.distance.value) = true ∧ (a.id < b.id ∨
          ∃ v w, (a.id, v) ∈ x.table ∧ (b.id, w) ∈ x.table ∧ x.head.metric.BreaksTie query v w) := by
  obtain ⟨nodes, hc⟩ := (Session.Sound.of_run hrun).tables.of_searcher hx
  obtain ⟨ranked, hask, -, hdistinct, hsorted, hranked⟩ := search_complete hrun hx hquery k ef filter
  refine ⟨_, hask, ?_, ?_⟩
  · rintro id hitem rfl
    rw [Searcher.searchByItem_eq hc hitem, hask]
    rfl
  · rw [List.pairwise_map]
    refine (hsorted.and (List.pairwise_map.mp hdistinct)).imp_of_mem ?_
    rintro a b ha hb ⟨hle, hne⟩
    obtain ⟨-, v, hv, hfirst, -⟩ := hranked a ha
    obtain ⟨-, w, hw, hsecond, -⟩ := hranked b hb
    have horder := x.head.metric.reported_order (hquery.trans (hc.length_vector hv).symm)
      (hquery.trans (hc.length_vector hw).symm) hne (by rw [← hfirst, ← hsecond]; exact hle)
    rw [← hfirst, ← hsecond] at horder
    refine horder.imp_right (And.imp_right (Or.imp_right fun hbreaks => ?_))
    exact ⟨v, w, hv, hw, hbreaks⟩

/-- From the origin, `(1, 0)` and `(1, 1.5 * 2^-12)` have the squares `1` and `1 + 2^-23`, and 1 is what is reported of
    both. -/
example : Metric.euclidean.BreaksTie [⟨0⟩, ⟨0⟩] [⟨0x3f800000⟩, ⟨0⟩] [⟨0x3f800000⟩, ⟨0x39c00000⟩] ∧
    Metric.euclidean.report (Metric.euclidean.rank [⟨0⟩, ⟨0⟩] [⟨0x3f800000⟩, ⟨0⟩]) = ⟨0x3f800000⟩ ∧
    Metric.euclidean.report (Metric.euclidean.rank [⟨0⟩, ⟨0⟩] [⟨0x3f800000⟩, ⟨0x39c00000⟩]) = ⟨0x3f800000⟩ := by
  refine ⟨?_, by decide +kernel, by decide +kernel⟩
  show (Metric.euclidean.rank _ _).lt (Metric.euclidean.rank _ _) = true
  decide +kernel

/-- The products of a zero with `1` and with `-1` are zeros of both signs. -/
example : Metric.dotProduct.BreaksTie [⟨0⟩] [⟨0x3f800000⟩] [⟨0xbf800000⟩] :=
  ⟨by decide +kernel, by decide +kernel⟩

end Results

end VectorIndex
