import Mathlib.Data.Set.Card
import VectorIndex.Proofs.LocalOptimum
import VectorIndex.Proofs.Ordering
import VectorIndex.Proofs.Search

/-!
# `VectorIndex.Proofs.WiderBeams` — a wider beam loses no near item

Two beam searches differ only in their widths. As long as the narrow one goes on, both expand the same items:
they stay in step (`BeamSearch.InStep`). Whatever was accepted, kept in order without a bound, has both
shortlists as its beginnings; the wide search also queues items that the narrow one turned away, but these are
further than everything on its full shortlist, so the narrow search halts before one of them is the nearest
left. What the wide search expands therefore begins with what the narrow one expands
(`BeamSearch.Runs.widened`), and the wide one has seen every item that the narrow one has.

An item that was seen is left out of the first `k` results only for `k` items that are not further. If all
reachable items are at different distances these are nearer, so the item is not one of the `k` nearest
(`mem_take_of_settles`). Equal distances would break both steps: an item turned away could be as near as one
on the shortlist, and could then be expanded in its place.

## Contents
- **The nearest of some items.** `AmongNearest`, `DistancesDiffer`, `mem_take_of_settles`.
- **Two searches in step.** `BeamSearch.widened`, `BeamSearch.InStep`, what each step does to it, and
  `Runs.widened`.
- **Results.** `Graph.Shows.beamSearch_widened`, `Committed.nearest_widened`, `overlap`,
  `widening_keeps_nearest`.
-/

namespace VectorIndex

/-! ## The nearest of some items -/

/-- `n` is among the `k` nearest of the items that satisfy `Q`: fewer than `k` of them are nearer. -/
def AmongNearest (Q : Neighbor → Prop) (k : Nat) (n : Neighbor) : Prop :=
  Q n ∧ {m | Q m ∧ m.distance.lt n.distance = true}.encard < k

/-- Different items that satisfy `Q` are at distances that differ as numbers. -/
def DistancesDiffer (Q : Neighbor → Prop) : Prop :=
  ∀ a b, Q a → Q b → a.id ≠ b.id → (a.distance.value == b.distance.value) = false

section Nearest

variable {Q : Neighbor → Prop} {k : Nat} {n : Neighbor}

theorem AmongNearest.length_lt (h : AmongNearest Q k n) {nearer : List Neighbor} (hnodup : nearer.Nodup)
    (hnearer : ∀ m ∈ nearer, Q m ∧ m.distance.lt n.distance = true) : nearer.length < k := by
  have hsubset : (nearer.toFinset : Set Neighbor) ⊆ {m | Q m ∧ m.distance.lt n.distance = true} :=
    fun m hm => hnearer m (List.mem_toFinset.mp (Finset.mem_coe.mp hm))
  have hcard := lt_of_le_of_lt (Set.encard_le_encard hsubset) h.2
  rw [Set.encard_coe_eq_coe_finsetCard, List.toFinset_card_of_nodup hnodup] at hcard
  exact Nat.cast_lt.mp hcard

/-- The first `k` of all items in order are among the `k` nearest. -/
theorem amongNearest_of_mem_take {all : List Neighbor} (hsorted : Neighbor.Sorted all)
    (hall : ∀ m, Q m ↔ m ∈ all) (hn : n ∈ all.take k) : AmongNearest Q k n := by
  refine ⟨(hall n).mpr (List.mem_of_mem_take hn), ?_⟩
  obtain ⟨i, hi, hget⟩ := List.mem_iff_getElem.mp hn
  rw [List.length_take] at hi
  have hik : i < k := by omega
  have hlen : i < all.length := by omega
  rw [List.getElem_take] at hget
  have hsplit : all = all.take i ++ n :: all.drop (i + 1) := by
    rw [← hget, ← List.drop_eq_getElem_cons hlen, List.take_append_drop]
  -- what is nearer comes before `n`
  have hsubset : {m | Q m ∧ m.distance.lt n.distance = true} ⊆ ((all.take i).toFinset : Set Neighbor) := by
    intro m ⟨hm, hlt⟩
    have hmem := (hall m).mp hm
    rw [hsplit] at hmem hsorted
    rcases List.mem_append.mp hmem with hbefore | hafter
    · exact Finset.mem_coe.mpr (List.mem_toFinset.mpr hbefore)
    · have hle : n.le m = true := by
        rcases List.mem_cons.mp hafter with rfl | hlater
        · exact Neighbor.le_refl m
        · exact (List.pairwise_cons.mp (List.pairwise_append.mp hsorted).2.1).1 m hlater
      exact absurd (Single.lt_iff.mp hlt).2.2 (Int.not_lt.mpr (Neighbor.place_le_of_le hle))
  refine lt_of_le_of_lt (Set.encard_le_encard hsubset) ?_
  rw [Set.encard_coe_eq_coe_finsetCard, Nat.cast_lt]
  refine Nat.lt_of_le_of_lt (List.toFinset_card_le _) ?_
  rw [List.length_take]
  omega

end Nearest

section Scored

variable {rank : Ranking} {nodes : IdMap Node} {query : Embedding} {P : ItemId → Prop}

theorem DistancesDiffer.place_ne (h : DistancesDiffer fun n => Scored rank nodes query n ∧ P n.id)
    (hrank : NeverNaN rank) {a b : Neighbor} (ha : Scored rank nodes query a ∧ P a.id)
    (hb : Scored rank nodes query b ∧ P b.id) (hne : a.id ≠ b.id) : a.distance.place ≠ b.distance.place := by
  intro heq
  have hbeq := Single.beq_iff.mpr ⟨ha.1.isNaN_eq hrank, hb.1.isNaN_eq hrank, heq⟩
  rw [h a b ha hb hne] at hbeq
  cases hbeq

/-- One of the `k` nearest items is among the first `k` of a list in order, unless it is further than a full
    list allows. -/
theorem mem_take_of_settles (hdiffer : DistancesDiffer fun n => Scored rank nodes query n ∧ P n.id)
    (hrank : NeverNaN rank) {admits : ItemId → Bool} {k : Nat} {found : List Neighbor} {n : Neighbor}
    (hfound : ∀ m ∈ found, (Scored rank nodes query m ∧ P m.id) ∧ admits m.id = true)
    (hsorted : Neighbor.Sorted found) (hdistinct : (found.map Neighbor.id).Nodup)
    (hn : AmongNearest (fun m => (Scored rank nodes query m ∧ P m.id) ∧ admits m.id = true) k n)
    (h : n ∈ found ∨ k ≤ found.length ∧ ∀ m ∈ found, m.distance.place ≤ n.distance.place) :
    n ∈ found.take k := by
  by_contra hout
  -- `k` items come first, and none of them is further than `n`
  obtain ⟨hlength, hplace⟩ :
      k ≤ found.length ∧ ∀ m ∈ found.take k, m.distance.place ≤ n.distance.place := by
    rcases h with hmem | ⟨hlength, hplace⟩
    · rw [← List.take_append_drop k found] at hmem hsorted
      have hdropped := (List.mem_append.mp hmem).resolve_left hout
      have hpos := List.length_pos_of_mem hdropped
      rw [List.length_drop] at hpos
      refine ⟨by omega, fun m hm => ?_⟩
      exact Neighbor.place_le_of_le ((List.pairwise_append.mp hsorted).2.2 m hm n hdropped)
    · exact ⟨hlength, fun m hm => hplace m (List.mem_of_mem_take hm)⟩
  have hnearer : ∀ m ∈ found.take k, ((Scored rank nodes query m ∧ P m.id) ∧ admits m.id = true) ∧
      m.distance.lt n.distance = true := by
    intro m hm
    have hQ := hfound m (List.mem_of_mem_take hm)
    have hne : m.id ≠ n.id := fun hid => hout (hQ.1.1.eq_of_id hn.1.1.1 hid ▸ hm)
    have hplaces := hdiffer.place_ne hrank hQ.1 hn.1.1 hne
    refine ⟨hQ, (Single.lt_iff_place (hQ.1.1.isNaN_eq hrank) (hn.1.1.1.isNaN_eq hrank)).mpr ?_⟩
    exact lt_of_le_of_ne (hplace m hm) hplaces
  have hcount := hn.length_lt ((nodup_of_ids hdistinct).sublist (List.take_sublist k found)) hnearer
  rw [List.length_take_of_le hlength] at hcount
  exact Nat.lt_irrefl k hcount

end Scored

/-! ## Two searches in step -/

namespace BeamSearch

/-- The same search with another width. -/
def widened (s : BeamSearch) (width : Nat) : BeamSearch := { s with width := width }

variable (s : BeamSearch) (nodes : IdMap Node) (P : ItemId → Prop)

/-- The shortlist is full, and everything on it is nearer than `n`. -/
def Beyond (b : Beam) (n : Neighbor) : Prop :=
  b.shortlist.length = s.width ∧ ∀ m ∈ b.shortlist, m.distance.place < n.distance.place

/-- The state of a search and that of a wider one have seen the same items, and their shortlists are
    beginnings of one list. What only the wider one has queued is further than the narrow shortlist. -/
structure InStep (width : Nat) (b b' : Beam) : Prop where
  narrow : s.Tracks nodes P b
  wide : (s.widened width).Tracks nodes P b'
  narrowTidy : Tidy b
  wideTidy : Tidy b'
  visited : b.visited = b'.visited
  accepted : ∃ all : List Neighbor, b.shortlist = all.take s.width ∧ b'.shortlist = all.take width
  queued : ∀ n ∈ b.frontier, n ∈ b'.frontier
  extra : ∀ n ∈ b'.frontier, n ∈ b.frontier ∨ s.Beyond b n

variable {s nodes P} {width : Nat} {b b' : Beam}

theorem Beyond.push {n v : Neighbor} (h : s.Beyond b v) : s.Beyond (s.push (b.see n.id) n) v := by
  obtain ⟨hstill, hnearer⟩ := push_full h.1 n
  refine ⟨hstill, fun x hx => ?_⟩
  obtain ⟨y, hy, hle⟩ := hnearer x hx
  exact lt_of_le_of_lt hle (h.2 y hy)

theorem inStep_empty : s.InStep nodes P width Beam.empty Beam.empty where
  narrow := tracks_empty
  wide := tracks_empty
  narrowTidy := tidy_empty
  wideTidy := tidy_empty
  visited := rfl
  accepted := ⟨[], List.take_nil.symm, List.take_nil.symm⟩
  queued _ h := h
  extra _ h := Or.inl h

theorem InStep.see (h : s.InStep nodes P width b b') (id : ItemId) :
    s.InStep nodes P width (b.see id) (b'.see id) where
  narrow := h.narrow.see id
  wide := h.wide.see id
  narrowTidy := h.narrowTidy.see id
  wideTidy := h.wideTidy.see id
  visited := congrArg (·.insert id) h.visited
  accepted := h.accepted
  queued := h.queued
  extra := h.extra

section New

variable {n : Neighbor} (hnew : n.id ∉ b.visited) (hn : Scored s.graph.rank nodes s.query n) (hP : P n.id)

include hnew hn hP

/-- Both searches push the item. -/
theorem InStep.push (h : s.InStep nodes P width b b') :
    s.InStep nodes P width (s.push (b.see n.id) n) ((s.widened width).push (b'.see n.id) n) where
  narrow := h.narrow.push hnew hn hP
  wide := h.wide.push (h.visited ▸ hnew) hn hP
  narrowTidy := h.narrowTidy.push hnew
  wideTidy := h.wideTidy.push (h.visited ▸ hnew)
  visited := congrArg (·.insert n.id) h.visited
  accepted := by
    obtain ⟨all, hshort, hlong⟩ := h.accepted
    by_cases hadmits : s.admits n.id = true
    · refine ⟨Neighbor.insertSorted n all, ?_, ?_⟩
      · rw [← Neighbor.insertBounded_take, ← hshort]
        exact if_pos hadmits
      · rw [← Neighbor.insertBounded_take, ← hlong]
        exact if_pos hadmits
    · exact ⟨all, (if_neg hadmits).trans hshort, (if_neg hadmits).trans hlong⟩
  queued m hm := Neighbor.mem_insertOn.mpr ((Neighbor.mem_insertOn.mp hm).imp_right (h.queued m))
  extra := by
    intro m hm
    rcases Neighbor.mem_insertOn.mp hm with rfl | hm
    · exact Or.inl (Neighbor.mem_insertOn.mpr (Or.inl rfl))
    · exact (h.extra m hm).imp (fun hold => Neighbor.mem_insertOn.mpr (Or.inr hold)) Beyond.push

/-- Only the wider search pushes the item, which is further than the narrow shortlist. -/
theorem InStep.pushWide (h : s.InStep nodes P width b b') (hbeyond : s.Beyond b n) :
    s.InStep nodes P width (b.see n.id) ((s.widened width).push (b'.see n.id) n) where
  narrow := h.narrow.see n.id
  wide := h.wide.push (h.visited ▸ hnew) hn hP
  narrowTidy := h.narrowTidy.see n.id
  wideTidy := h.wideTidy.push (h.visited ▸ hnew)
  visited := congrArg (·.insert n.id) h.visited
  accepted := by
    obtain ⟨all, hshort, hlong⟩ := h.accepted
    by_cases hadmits : s.admits n.id = true
    · have hlength : s.width ≤ all.length := by
        rw [← hbeyond.1, hshort]
        exact List.length_take_le' _ _
      have hbehind : ∀ x ∈ all.take s.width, n.le x = false := by
        intro x hx
        apply eq_false_of_ne_true
        intro hle
        exact absurd (hbeyond.2 x (hshort ▸ hx)) (Int.not_lt.mpr (Neighbor.place_le_of_le hle))
      refine ⟨Neighbor.insertSorted n all, ?_, ?_⟩
      · exact hshort.trans (Neighbor.take_insertSorted hlength hbehind).symm
      · rw [← Neighbor.insertBounded_take, ← hlong]
        exact if_pos hadmits
    · exact ⟨all, hshort, (if_neg hadmits).trans hlong⟩
  queued m hm := Neighbor.mem_insertOn.mpr (Or.inr (h.queued m hm))
  extra := by
    intro m hm
    rcases Neighbor.mem_insertOn.mp hm with rfl | hm
    · exact Or.inr hbeyond
    · exact h.extra m hm

end New

/-- Both searches take the same item off. -/
theorem InStep.pop (h : s.InStep nodes P width b b') {c : Neighbor} {rest rest' : List Neighbor}
    (hfrontier : b.frontier = c :: rest) (hfrontier' : b'.frontier = c :: rest') :
    s.InStep nodes P width { b with frontier := rest } { b' with frontier := rest' } where
  narrow := h.narrow.pop hfrontier
  wide := h.wide.pop hfrontier'
  narrowTidy := h.narrowTidy.pop hfrontier
  wideTidy := h.wideTidy.pop hfrontier'
  visited := h.visited
  accepted := h.accepted
  queued := by
    intro n hn
    have hmem := h.queued n (hfrontier ▸ List.mem_cons_of_mem c hn)
    rw [hfrontier'] at hmem
    refine (List.mem_cons.mp hmem).resolve_left fun heq => h.narrowTidy.not_mem_rest hfrontier ?_
    exact heq ▸ List.mem_map_of_mem hn
  extra := by
    intro n hn
    refine (h.extra n (hfrontier' ▸ List.mem_cons_of_mem c hn)).imp_left fun hmem => ?_
    rw [hfrontier] at hmem
    refine (List.mem_cons.mp hmem).resolve_left fun heq => h.wideTidy.not_mem_rest hfrontier' ?_
    exact heq ▸ List.mem_map_of_mem hn

theorem InStep.shortlist_subset (h : s.InStep nodes P width b b') (hwider : s.width ≤ width) :
    b.shortlist ⊆ b'.shortlist := by
  obtain ⟨all, hshort, hlong⟩ := h.accepted
  rw [hshort, hlong]
  exact (List.take_sublist_take_left hwider).subset

/-- While the narrow shortlist has room the wider one has the same items on it. -/
theorem InStep.shortlist_eq (h : s.InStep nodes P width b b') (hwider : s.width ≤ width)
    (hroom : b.shortlist.length < s.width) : b'.shortlist = b.shortlist := by
  obtain ⟨all, hshort, hlong⟩ := h.accepted
  rw [hshort, List.length_take] at hroom
  rw [hshort, hlong, List.take_of_length_le (by omega), List.take_of_length_le (by omega)]

section Distances

variable (hrank : NeverNaN s.graph.rank)

include hrank

/-- What the narrow search accepts the wider one accepts too. -/
theorem InStep.accepts_wide (h : s.InStep nodes P width b b') (hpos : 0 < s.width) (hwider : s.width ≤ width)
    {n : Neighbor} (hn : n.distance.isNaN = false) (haccept : s.accepts b n = true) :
    (s.widened width).accepts b' n = true := by
  have hpos' : 0 < (s.widened width).width := Nat.lt_of_lt_of_le hpos hwider
  rw [accepts_iff hpos h.narrow.sorted (h.narrow.isNaN_shortlist hrank) hn] at haccept
  rw [accepts_iff hpos' h.wide.sorted (h.wide.isNaN_shortlist hrank) hn]
  rcases haccept with hroom | ⟨m, hm, hlt⟩
  · left
    rw [h.shortlist_eq hwider hroom]
    exact Nat.lt_of_lt_of_le hroom hwider
  · exact Or.inr ⟨m, h.shortlist_subset hwider hm, hlt⟩

/-- An item that the narrow search turns away is further than everything on its shortlist: it is not nearer,
    and not as near. -/
theorem Tracks.beyond (h : s.Tracks nodes P b) (hpos : 0 < s.width)
    (hdiffer : DistancesDiffer fun n => Scored s.graph.rank nodes s.query n ∧ P n.id) {n : Neighbor}
    (hnew : n.id ∉ b.visited) (hn : Scored s.graph.rank nodes s.query n) (hP : P n.id)
    (hreject : ¬ s.accepts b n = true) : s.Beyond b n := by
  rw [accepts_iff hpos h.sorted (h.isNaN_shortlist hrank) (hn.isNaN_eq hrank), not_or] at hreject
  refine ⟨Nat.le_antisymm h.length_le (Nat.le_of_not_lt hreject.1), fun m hm => ?_⟩
  obtain ⟨hscored, hseen, hPm, _⟩ := h.shortlist m hm
  have hle : m.distance.place ≤ n.distance.place := Int.not_lt.mp fun hlt => hreject.2 ⟨m, hm, hlt⟩
  have hne : m.id ≠ n.id := fun hid => hnew (hid ▸ hseen)
  exact lt_of_le_of_ne hle (hdiffer.place_ne hrank ⟨hscored, hPm⟩ ⟨hn, hP⟩ hne)

/-- **Following a link keeps the searches in step.** -/
theorem InStep.follow (h : s.InStep nodes P width b b') (hpos : 0 < s.width) (hwider : s.width ≤ width)
    (hdiffer : DistancesDiffer fun n => Scored s.graph.rank nodes s.query n ∧ P n.id) {id : ItemId}
    (hP : id ∈ nodes → P id) :
    s.InStep nodes P width (s.follow nodes b id) ((s.widened width).follow nodes b' id) := by
  rcases follow_split s nodes b id with ⟨hseen, heq⟩ | ⟨hnew, hout, heq⟩ |
    ⟨hnew, n, rfl, hn, heq⟩
  · rw [heq, follow_of_visited (h.visited ▸ hseen)]
    exact h
  · rw [heq, follow_of_not_mem (h.visited ▸ hnew) hout]
    exact h.see id
  · rw [heq, follow_of_scored (s := s.widened width) (h.visited ▸ hnew) hn]
    by_cases haccept : s.accepts b n = true
    · rw [if_pos haccept, if_pos (h.accepts_wide hrank hpos hwider (hn.isNaN_eq hrank) haccept)]
      exact h.push hnew hn (hP hn.mem)
    · rw [if_neg haccept]
      by_cases hmore : (s.widened width).accepts b' n = true
      · rw [if_pos hmore]
        exact h.pushWide hnew hn (hP hn.mem) (h.narrow.beyond hrank hpos hdiffer hnew hn (hP hn.mem) haccept)
      · rw [if_neg hmore]
        exact h.see n.id

theorem InStep.followAll (h : s.InStep nodes P width b b') (hpos : 0 < s.width) (hwider : s.width ≤ width)
    (hdiffer : DistancesDiffer fun n => Scored s.graph.rank nodes s.query n ∧ P n.id) {ids : List ItemId}
    (hP : ∀ id ∈ ids, id ∈ nodes → P id) :
    s.InStep nodes P width (ids.foldl (s.follow nodes) b) (ids.foldl ((s.widened width).follow nodes) b') := by
  induction ids generalizing b b' with
  | nil => exact h
  | cons id ids ih =>
      exact ih (h.follow hrank hpos hwider hdiffer (hP id List.mem_cons_self))
        fun t ht => hP t (List.mem_cons_of_mem id ht)

/-- What is beyond a full shortlist finishes the search, and so does anything after it. -/
theorem Tracks.isFinished_of_beyond (h : s.Tracks nodes P b) (hpos : 0 < s.width) {n c : Neighbor}
    (hbeyond : s.Beyond b n) (hle : n.le c = true) (hc : c.distance.isNaN = false) :
    s.isFinished b c = true := by
  rw [isFinished_iff h.sorted (h.isNaN_shortlist hrank) hc]
  refine ⟨Nat.le_of_eq hbeyond.1.symm, fun hnil => ?_, fun m hm => ?_⟩
  · have hzero := hbeyond.1
    rw [hnil, List.length_nil] at hzero
    omega
  · exact lt_of_lt_of_le (hbeyond.2 m hm) (Neighbor.place_le_of_le hle)

/-- While the narrow search goes on the wider one has the same item to expand next: what only the wider one
    has queued would have finished the narrow one. -/
theorem InStep.next (h : s.InStep nodes P width b b') (hpos : 0 < s.width) {c : Neighbor}
    {rest : List Neighbor} (hfrontier : b.frontier = c :: rest) (hmore : s.isFinished b c = false) :
    ∃ rest', b'.frontier = c :: rest' := by
  have hc : c ∈ b.frontier := hfrontier ▸ List.mem_cons_self
  obtain ⟨c', rest', hfrontier'⟩ := List.exists_cons_of_ne_nil (List.ne_nil_of_mem (h.queued c hc))
  have hle := h.wideTidy.head_le hfrontier' (h.queued c hc)
  have hboth : c' ∈ b.frontier := by
    refine (h.extra c' (hfrontier' ▸ List.mem_cons_self)).resolve_right fun hbeyond => ?_
    have hnan := (h.narrow.frontier c hc).1.isNaN_eq hrank
    rw [h.narrow.isFinished_of_beyond hrank hpos hbeyond hle hnan] at hmore
    cases hmore
  obtain rfl := Neighbor.le_antisymm hle (h.narrowTidy.head_le hfrontier hboth)
  exact ⟨rest', hfrontier'⟩

/-- While the narrow search goes on so does the wider one, which compares with more. -/
theorem InStep.unfinished (h : s.InStep nodes P width b b') (hpos : 0 < s.width) (hwider : s.width ≤ width)
    {c : Neighbor} (hc : c.distance.isNaN = false) (hmore : s.isFinished b c = false) :
    (s.widened width).isFinished b' c = false := by
  apply eq_false_of_ne_true
  intro hfinished
  rw [isFinished_iff h.wide.sorted (h.wide.isNaN_shortlist hrank) hc] at hfinished
  obtain ⟨hfull, _, hfurther⟩ := hfinished
  have hfilled : ¬ b.shortlist.length < s.width := by
    intro hroom
    rw [h.shortlist_eq hwider hroom] at hfull
    exact Nat.not_lt.mpr hfull (Nat.lt_of_lt_of_le hroom hwider)
  have hbeyond : s.Beyond b c :=
    ⟨Nat.le_antisymm h.narrow.length_le (Nat.le_of_not_lt hfilled),
      fun m hm => hfurther m (h.shortlist_subset hwider hm)⟩
  rw [h.narrow.isFinished_of_beyond hrank hpos hbeyond (Neighbor.le_refl c) hc] at hmore
  cases hmore

/-- **A round of the narrow search is a round of the wider one.** -/
theorem InStep.round (h : s.InStep nodes P width b b') (hpos : 0 < s.width) (hwider : s.width ≤ width)
    (hdiffer : DistancesDiffer fun n => Scored s.graph.rank nodes s.query n ∧ P n.id)
    (hclosed : ∀ source target, P source → Follows nodes s.layer source target → P target) {c : Neighbor}
    {rest : List Neighbor} (hfrontier : b.frontier = c :: rest) (hmore : s.isFinished b c = false) :
    ∃ rest', b'.frontier = c :: rest' ∧ (s.widened width).isFinished b' c = false ∧
      s.InStep nodes P width (s.expand nodes b c rest) ((s.widened width).expand nodes b' c rest') := by
  obtain ⟨hscored, _, hPc⟩ := h.narrow.frontier c (hfrontier ▸ List.mem_cons_self)
  obtain ⟨node, hnode, _⟩ := hscored.exists_node
  obtain ⟨rest', hfrontier'⟩ := h.next hrank hpos hfrontier hmore
  refine ⟨rest', hfrontier', h.unfinished hrank hpos hwider (hscored.isNaN_eq hrank) hmore, ?_⟩
  have hP : ∀ t ∈ node.linksAt s.layer, t ∈ nodes → P t := fun t ht hlive =>
    hclosed c.id t hPc ⟨⟨node, hnode, ht⟩, hlive⟩
  unfold BeamSearch.expand
  rw [hnode]
  exact (h.pop hfrontier hfrontier').followAll hrank hpos hwider hdiffer hP

/-- **What the wider search expands begins with what the narrow one expands.** The wider search goes through a
    state that is in step with the end of the narrow one. -/
theorem Runs.widened (hs : s.graph.Shows nodes) (hpos : 0 < s.width) (hwider : s.width ≤ width)
    (hdiffer : DistancesDiffer fun n => Scored s.graph.rank nodes s.query n ∧ P n.id)
    (hclosed : ∀ source target, P source → Follows nodes s.layer source target → P target) {last : Beam}
    {ids : List ItemId} (hrun : s.Runs b ids last) (h : s.InStep nodes P width b b') :
    ∃ mid, s.InStep nodes P width last mid ∧ ∀ more last', (s.widened width).Runs mid more last' →
      (s.widened width).Runs b' (ids ++ more) last' := by
  refine Runs.induction_on hs (motive := fun b ids last => ∀ b', s.InStep nodes P width b b' →
    ∃ mid, s.InStep nodes P width last mid ∧ ∀ more last', (s.widened width).Runs mid more last' →
      (s.widened width).Runs b' (ids ++ more) last') ?_ ?_ hrun b' h
  · intro b _ b' h
    exact ⟨b', h, fun more last' hrest => hrest⟩
  · intro b c rest ids ids' last hfrontier hmore ih hids b' h
    have hlive : c.id ∈ nodes := (h.narrow.frontier c (hfrontier ▸ List.mem_cons_self)).1.mem
    obtain rfl := hids.resolve_right fun hskip => hskip.1 hlive
    obtain ⟨rest', hfrontier', hmore', hnext⟩ := h.round hrank hpos hwider hdiffer hclosed hfrontier hmore
    obtain ⟨mid, hmid, hextend⟩ := ih _ hnext
    refine ⟨mid, hmid, fun more last' hrest => ?_⟩
    exact Runs.round (s := s.widened width) hs hfrontier' hmore' hlive (hextend more last' hrest)

end Distances

theorem InStep.enter (h : s.InStep nodes P width b b') {n : Neighbor}
    (hn : Scored s.graph.rank nodes s.query n) (hP : P n.id) :
    s.InStep nodes P width (s.enter b n) ((s.widened width).enter b' n) := by
  unfold BeamSearch.enter
  by_cases hseen : b.visited.contains n.id = true
  · rw [if_pos hseen, if_pos (h.visited ▸ hseen)]
    exact h
  · rw [if_neg hseen, if_neg (h.visited ▸ hseen)]
    exact h.push (fun hmem => hseen (Std.ExtTreeSet.mem_iff_contains.mp hmem)) hn hP

theorem inStep_start {entries : List Neighbor}
    (hentries : ∀ n ∈ entries, Scored s.graph.rank nodes s.query n ∧ P n.id) :
    s.InStep nodes P width (s.start entries) ((s.widened width).start entries) := by
  have henter : ∀ (es : List Neighbor) (b b' : Beam), (∀ n ∈ es, n ∈ entries) →
      s.InStep nodes P width b b' →
      s.InStep nodes P width (es.foldl s.enter b) (es.foldl (s.widened width).enter b') := by
    intro es
    induction es with
    | nil => exact fun b b' _ h => h
    | cons n es ih =>
        intro b b' hes h
        obtain ⟨hn, hP⟩ := hentries n (hes n List.mem_cons_self)
        exact ih _ _ (fun m hm => hes m (List.mem_cons_of_mem n hm)) (h.enter hn hP)
  exact henter entries Beam.empty Beam.empty (fun n hn => hn) inStep_empty

end BeamSearch

/-! ## Results -/

/-- Links lead to the item from an entry, and it carries its own distance. -/
def Reachable (rank : Ranking) (nodes : IdMap Node) (query : Embedding) (entries : List Neighbor)
    (layer : Nat) (n : Neighbor) : Prop :=
  Scored rank nodes query n ∧ ∃ e ∈ entries, Reaches nodes layer e.id n.id

/-- **A wider beam loses none of the nearest items** that the narrower one has among its first `k` results. -/
theorem Graph.Shows.beamSearch_widened {g : Graph} {nodes : IdMap Node} (hs : g.Shows nodes)
    (hrank : NeverNaN g.rank) {query : Embedding} {entries : List Neighbor}
    (hentries : ∀ e ∈ entries, Scored g.rank nodes query e) {layer : Nat} (admits : ItemId → Bool)
    (hdiffer : DistancesDiffer (Reachable g.rank nodes query entries layer)) {k narrow wide : Nat}
    (hk : k ≤ narrow) (hwider : narrow ≤ wide) :
    ∃ first second : List Neighbor,
      g.beamSearch query entries narrow layer admits = .ok first ∧
      g.beamSearch query entries wide layer admits = .ok second ∧
      ∀ n, AmongNearest (fun m => Reachable g.rank nodes query entries layer m ∧ admits m.id = true) k n →
        n ∈ first.take k → n ∈ second.take k := by
  obtain ⟨first, hfirst, _⟩ := hs.beamSearch hentries narrow layer admits
  obtain ⟨second, hsecond, hresult⟩ := hs.beamSearch hentries wide layer admits
  refine ⟨first, second, hfirst, hsecond, fun n hnearest hn => ?_⟩
  have hkpos : 0 < k := by
    have hlength := List.length_pos_of_mem hn
    rw [List.length_take] at hlength
    omega
  have hpos : 0 < narrow := Nat.lt_of_lt_of_le hkpos hk
  let s : BeamSearch := ⟨g, query, narrow, layer, admits⟩
  let P : ItemId → Prop := fun id => ∃ e ∈ entries, Reaches nodes layer e.id id
  have hclosed : ∀ source target, P source → Follows nodes s.layer source target → P target :=
    fun source target ⟨e, he, hreach⟩ hlink => ⟨e, he, hreach.tail hlink⟩
  have hseeds : ∀ e ∈ entries, Scored s.graph.rank nodes s.query e ∧ P e.id :=
    fun e he => ⟨hentries e he, e, he, Relation.ReflTransGen.refl⟩
  have hapart : DistancesDiffer fun n => Scored s.graph.rank nodes s.query n ∧ P n.id := hdiffer
  -- the wider search goes on from where the narrow one ended
  obtain ⟨ids, last, hrun, rfl⟩ := (BeamSearch.advance_eq_ok_iff hs).mp hfirst
  have hstart : s.InStep nodes P wide _ _ := BeamSearch.inStep_start hseeds
  obtain ⟨mid, hmid, hextend⟩ := hrun.widened hrank hs hpos hwider hapart hclosed hstart
  obtain ⟨more, last', hrest⟩ := BeamSearch.exists_runs (s := s.widened wide) hs mid
  have hwide := hextend more last' hrest
  obtain rfl : last'.shortlist = second := Except.ok.inj (hwide.advance_eq.symm.trans hsecond)
  -- so it has seen `n`, and has settled it
  have hseen : n.id ∈ last'.visited := by
    have hvisited := (hmid.narrow.shortlist n (List.mem_of_mem_take hn)).2.1
    exact hrest.visited_mono hs (hmid.visited ▸ hvisited)
  have horderly := BeamSearch.Runs.orderly (s := s.widened wide) hrank hs (Nat.lt_of_lt_of_le hpos hwider)
    hclosed hseeds hwide
  refine mem_take_of_settles hdiffer hrank (P := P) (fun m hm => ?_) hresult.sorted hresult.distinct
    hnearest ?_
  · exact ⟨⟨hresult.scored m hm, hresult.reached m hm⟩, hresult.admitted m hm⟩
  · refine (horderly.settles n hnearest.1.1.1 hseen hnearest.1.2).imp_right fun ⟨hfull, hplace⟩ => ⟨?_, hplace⟩
    rw [hfull]
    exact Nat.le_trans hk hwider

/-- How many of the nearest items were found. -/
def overlap (nearest found : List Neighbor) : Nat :=
  nearest.countP fun n => (found.map Neighbor.id).contains n.id

section Searchers

variable {x : Searcher} {nodes : IdMap Node}

/-- A search with a wider beam loses none of the `k` nearest items that it had found. -/
theorem Committed.nearest_widened (h : Committed x.head x.rows nodes) {rank : Ranking} (hrank : NeverNaN rank)
    {query : Embedding} (hdiffer : DistancesDiffer (Scored rank nodes query)) (k : Nat) {ef ef' : Nat}
    (hwider : ef ≤ ef') (filter : Option IdSet) :
    ∃ first second : List Neighbor,
      (x.rows.graph rank).nearest x.head.entryPoint x.head.topLevel.toNat query k ef filter = .ok first ∧
      (x.rows.graph rank).nearest x.head.entryPoint x.head.topLevel.toNat query k ef' filter = .ok second ∧
      first ⊆ bruteForce rank query (admittedBy filter) x.table ∧
      ∀ n ∈ (bruteForce rank query (admittedBy filter) x.table).take k, n ∈ first → n ∈ second := by
  obtain ⟨beam, hbeam, hshort⟩ := h.nearest_eq rank query k ef filter
  obtain ⟨beam', hbeam', _⟩ := h.nearest_eq rank query k ef' filter
  refine ⟨beam.take k, beam'.take k, hbeam, hbeam', ?_, fun n hn hmem => ?_⟩
  · exact fun n hn => hshort.subset h (List.mem_of_mem_take hn)
  have hscan := (h.mem_bruteForce rank query (admittedBy filter)).mp (List.mem_of_mem_take hn)
  by_cases hnothing : (k = 0 || filter.any (·.isEmpty)) = true
  · -- nothing was found
    unfold Graph.nearest at hbeam
    rw [if_pos hnothing] at hbeam
    rw [← Except.ok.inj hbeam] at hmem
    exact absurd hmem List.not_mem_nil
  · cases hentry : x.head.entryPoint with
    | none =>
        have hlive := hscan.1.mem
        rw [(wellFormed_iff.mp h.wellFormed).2.entry_none.mp hentry] at hlive
        exact absurd hlive Std.ExtTreeMap.not_mem_empty
    | some entry =>
        have hshows : (x.rows.graph rank).Shows nodes := h.shows
        obtain ⟨entries, start, hscored, hstart, hid, heq⟩ := h.exists_entries rank query hentry
        have hreaches : ∀ m, Scored rank nodes query m → Reachable rank nodes query entries 0 m :=
          fun m hm => ⟨hm, start, hstart, h.spans start.id (hid ▸ hentry) m.id hm.mem⟩
        obtain ⟨first, second, hfirst, hsecond, hkeeps⟩ := hshows.beamSearch_widened hrank hscored
          (admittedBy filter) (fun a b ha hb => hdiffer a b ha.1 hb.1) (Nat.le_max_right ef k)
          (max_le_max_right k hwider)
        rw [heq k ef filter hnothing, hfirst, ok_bind] at hbeam
        rw [heq k ef' filter hnothing, hsecond, ok_bind] at hbeam'
        rw [← Except.ok.inj hbeam] at hmem
        rw [← Except.ok.inj hbeam']
        refine hkeeps n (amongNearest_of_mem_take (sorted_bruteForce _ _ _ _) (fun m => ?_) hn) hmem
        rw [h.mem_bruteForce]
        exact and_congr_left fun _ => ⟨And.left, hreaches m⟩

/-- The items of the table are those that are scored. -/
theorem Committed.distancesDiffer (h : Committed x.head x.rows nodes) {rank : Ranking} {query : Embedding}
    (htable : ∀ a ∈ x.table, ∀ b ∈ x.table, a.1 ≠ b.1 →
      ((rank query a.2).value == (rank query b.2).value) = false) :
    DistancesDiffer (Scored rank nodes query) := by
  intro a b ha hb hne
  obtain ⟨nodeA, hnodeA, hdistA⟩ := ha.exists_node
  obtain ⟨nodeB, hnodeB, hdistB⟩ := hb.exists_node
  rw [hdistA, hdistB]
  exact htable (a.id, nodeA.embedding) (h.mem_table.mpr ⟨nodeA, hnodeA, rfl⟩) (b.id, nodeB.embedding)
    (h.mem_table.mpr ⟨nodeB, hnodeB, rfl⟩) hne

/-- An answer names the items of the list it reports. -/
theorem map_id_reported (metric : Metric) (found : List Neighbor) :
    (found.map (Neighbor.reported metric)).map Neighbor.id = found.map Neighbor.id := by
  rw [List.map_map]
  rfl

/-- What a wider search answers, by ids. -/
theorem Committed.ask_widened (h : Committed x.head x.rows nodes) {query : Embedding}
    (hquery : query.length = x.dimension)
    (hdiffer : DistancesDiffer (Scored x.head.metric.rank nodes query)) (k : Nat) {ef ef' : Nat}
    (hwider : ef ≤ ef') (filter : Option IdSet) :
    ∃ first second : List Neighbor,
      x.ask query k ef filter = .ok first ∧ x.ask query k ef' filter = .ok second ∧
      ∀ n ∈ (bruteForce x.head.metric.rank query (admittedBy filter) x.table).take k,
        n.id ∈ first.map Neighbor.id → n.id ∈ second.map Neighbor.id := by
  obtain ⟨found, found', hfound, hfound', hsubset, hkeeps⟩ :=
    h.nearest_widened x.head.metric.neverNaN hdiffer k hwider filter
  refine ⟨_, _, Searcher.ask_eq hquery hfound, Searcher.ask_eq hquery hfound', fun n hn hmem => ?_⟩
  rw [map_id_reported] at hmem ⊢
  obtain ⟨m, hm, hid⟩ := List.mem_map.mp hmem
  have hscored := ((h.mem_bruteForce _ query _).mp (hsubset hm)).1
  obtain rfl := hscored.eq_of_id ((h.mem_bruteForce _ query _).mp (List.mem_of_mem_take hn)).1 hid
  exact List.mem_map_of_mem (hkeeps m hn hm)

end Searchers

/-- **Widening the beam never loses a true neighbour.** On every graph in which the items that links lead to
    are at different distances, one of the `k` nearest of these that are admitted is among the first `k` results
    of every beam that is wider than one that has it among its own. If the items of a committed index are at
    different distances from a query, then what a search finds of the `k` nearest is found with every wider
    beam, so that their number never decreases. -/
theorem widening_keeps_nearest :
    (∀ (g : Graph) (nodes : IdMap Node) (metric : Metric), g.Shows nodes → g.rank = metric.rank →
      ∀ (query : Embedding) (entries : List Neighbor), (∀ e ∈ entries, Scored g.rank nodes query e) →
      ∀ (layer : Nat) (admits : ItemId → Bool),
        DistancesDiffer (Reachable g.rank nodes query entries layer) →
      ∀ k narrow wide : Nat, k ≤ narrow → narrow ≤ wide →
      ∃ first second : List Neighbor,
        g.beamSearch query entries narrow layer admits = .ok first ∧
        g.beamSearch query entries wide layer admits = .ok second ∧
        ∀ n, AmongNearest (fun m => Reachable g.rank nodes query entries layer m ∧ admits m.id = true) k n →
          n ∈ first.take k → n ∈ second.take k) ∧
    ∀ (distances : Metric → Ranking) (steps : List Step) (s : Session) (index : IndexId) (x : Searcher),
      World.run distances steps = .opened s → s.db.searcher index = .ok x →
      ∀ query : Embedding, query.length = x.dimension →
      (∀ a ∈ x.table, ∀ b ∈ x.table, a.1 ≠ b.1 →
        ((x.head.metric.rank query a.2).value == (x.head.metric.rank query b.2).value) = false) →
      ∀ (k ef ef' : Nat) (filter : Option IdSet), ef ≤ ef' →
      ∃ first second : List Neighbor,
        x.ask query k ef filter = .ok first ∧ x.ask query k ef' filter = .ok second ∧
        (∀ n ∈ (bruteForce x.head.metric.rank query (admittedBy filter) x.table).take k,
          n.id ∈ first.map Neighbor.id → n.id ∈ second.map Neighbor.id) ∧
        overlap ((bruteForce x.head.metric.rank query (admittedBy filter) x.table).take k) first ≤
          overlap ((bruteForce x.head.metric.rank query (admittedBy filter) x.table).take k) second := by
  constructor
  · intro g nodes metric hs hrank query entries hentries layer admits hdiffer k narrow wide hk hwider
    have hnan : NeverNaN g.rank := hrank ▸ metric.neverNaN
    exact hs.beamSearch_widened hnan hentries admits hdiffer hk hwider
  · intro distances steps s index x hrun hx query hquery htable k ef ef' filter hwider
    obtain ⟨nodes, hc⟩ := (Session.Sound.of_run hrun).tables.of_searcher hx
    have hdiffer := hc.distancesDiffer htable
    obtain ⟨first, second, hfirst, hsecond, hkeeps⟩ := hc.ask_widened hquery hdiffer k hwider filter
    refine ⟨first, second, hfirst, hsecond, hkeeps, ?_⟩
    refine List.countP_mono_left fun n hn hmem => ?_
    rw [List.contains_iff_mem] at hmem ⊢
    exact hkeeps n hn hmem

/-- The items of the line, nearest to 2 first. -/
def lineRanked : List Neighbor := [⟨2, ⟨0⟩⟩, ⟨1, ⟨0x3f800000⟩⟩, ⟨0, ⟨0x40800000⟩⟩]

theorem scored_lineRanked : ∀ n ∈ lineRanked, Scored lineGraph.rank lineNodes [⟨0x40000000⟩] n := by
  unfold Scored
  decide +kernel

/-- From 0 links lead to every item of the line. -/
theorem reachable_line {n : Neighbor} :
    Reachable lineGraph.rank lineNodes [⟨0x40000000⟩] [⟨0, ⟨0x40800000⟩⟩] 0 n ↔ n ∈ lineRanked := by
  have hkeys : lineNodes.keys = lineRanked.reverse.map Neighbor.id := by decide +kernel
  have hlinks : (∃ node, lineNodes[(0 : ItemId)]? = some node ∧ 1 ∈ node.linksAt 0) ∧
      ∃ node, lineNodes[(1 : ItemId)]? = some node ∧ 2 ∈ node.linksAt 0 :=
    ⟨⟨⟨[⟨0⟩], [[0, 1, 1, 9]]⟩, by decide +kernel, by decide +kernel⟩,
      ⟨⟨[⟨0x3f800000⟩], [[0, 2, 2]]⟩, by decide +kernel, by decide +kernel⟩⟩
  have hone : Reaches lineNodes 0 0 1 := Relation.ReflTransGen.single ⟨hlinks.1, by decide +kernel⟩
  have htwo : Reaches lineNodes 0 0 2 := hone.tail ⟨hlinks.2, by decide +kernel⟩
  constructor
  · intro ⟨hn, _⟩
    have hid := Std.ExtTreeMap.mem_keys.mpr hn.mem
    rw [hkeys, List.map_reverse, List.mem_reverse] at hid
    obtain ⟨m, hm, heq⟩ := List.mem_map.mp hid
    exact (scored_lineRanked m hm).eq_of_id hn heq ▸ hm
  · intro hn
    refine ⟨scored_lineRanked n hn, ⟨0, ⟨0x40800000⟩⟩, List.mem_singleton.mpr rfl, ?_⟩
    simp only [lineRanked, List.mem_cons, List.not_mem_nil, or_false] at hn
    rcases hn with rfl | rfl | rfl
    · exact htwo
    · exact hone
    · exact Relation.ReflTransGen.refl

theorem distancesDiffer_line :
    DistancesDiffer (Reachable lineGraph.rank lineNodes [⟨0x40000000⟩] [⟨0, ⟨0x40800000⟩⟩] 0) := by
  have hpairs : ∀ a ∈ lineRanked, ∀ b ∈ lineRanked, a.id ≠ b.id →
      (a.distance.value == b.distance.value) = false := by
    decide +kernel
  exact fun a b ha hb hne => hpairs a (reachable_line.mp ha) b (reachable_line.mp hb) hne

theorem amongNearest_line : AmongNearest (fun m =>
    Reachable lineGraph.rank lineNodes [⟨0x40000000⟩] [⟨0, ⟨0x40800000⟩⟩] 0 m ∧ admitAll m.id = true) 1
    ⟨2, ⟨0⟩⟩ := by
  have hsorted : Neighbor.Sorted lineRanked := by
    unfold Neighbor.Sorted Neighbor.SortedOn
    decide +kernel
  exact amongNearest_of_mem_take hsorted (fun m => (and_iff_left rfl).trans reachable_line) (by decide)

theorem threeItems_table : ((World.run Metric.rank threeItems).session.any fun s =>
    (s.db.searcher 7).toOption.any fun x => x.dimension == 1 && x.head.metric == .euclidean &&
      x.table == [(1, [⟨0x3f800000⟩]), (2, [⟨0x40000000⟩])]) = true := by
  decide +kernel

/-- On the line a beam of one item finds the item nearest to 2, and a beam of three items then finds it as well;
    and a search among two committed items finds no less with the wider beam. -/
theorem widening_keeps_nearest_line :
    (∃ first second, lineGraph.beamSearch [⟨0x40000000⟩] [⟨0, ⟨0x40800000⟩⟩] 1 0 admitAll = .ok first ∧
      lineGraph.beamSearch [⟨0x40000000⟩] [⟨0, ⟨0x40800000⟩⟩] 3 0 admitAll = .ok second ∧
      ⟨2, ⟨0⟩⟩ ∈ first.take 1 ∧ ⟨2, ⟨0⟩⟩ ∈ second.take 1) ∧
    ∃ (s : Session) (x : Searcher) (first second : List Neighbor),
      World.run Metric.rank threeItems = .opened s ∧ s.db.searcher 7 = .ok x ∧
      x.ask [⟨0x40000000⟩] 1 1 none = .ok first ∧ x.ask [⟨0x40000000⟩] 1 2 none = .ok second ∧
      overlap ((bruteForce x.head.metric.rank [⟨0x40000000⟩] (admittedBy none) x.table).take 1) first ≤
        overlap ((bruteForce x.head.metric.rank [⟨0x40000000⟩] (admittedBy none) x.table).take 1) second := by
  constructor
  · have hentries : ∀ e ∈ [(⟨0, ⟨0x40800000⟩⟩ : Neighbor)],
        Scored lineGraph.rank lineNodes [⟨0x40000000⟩] e := fun e he =>
      List.mem_singleton.mp he ▸ scored_lineRanked _ (by decide)
    obtain ⟨first, second, hfirst, hsecond, hkeeps⟩ := widening_keeps_nearest.1 lineGraph lineNodes .euclidean
      (fun _ => rfl) rfl [⟨0x40000000⟩] [⟨0, ⟨0x40800000⟩⟩] hentries 0 admitAll distancesDiffer_line 1 1 3
      (Nat.le_refl 1) (by decide)
    have hfound : (lineGraph.beamSearch [⟨0x40000000⟩] [⟨0, ⟨0x40800000⟩⟩] 1 0 admitAll).toOption =
        some [⟨2, ⟨0⟩⟩] := by
      decide +kernel
    obtain rfl : first = [⟨2, ⟨0⟩⟩] := Except.ok.inj (hfirst.symm.trans (toOption_eq_some.mp hfound))
    exact ⟨_, second, hfirst, hsecond, by decide, hkeeps _ amongNearest_line (by decide)⟩
  · obtain ⟨s, hs, hshows⟩ := (Option.any_eq_true _ _).mp threeItems_table
    obtain ⟨x, hx, hholds⟩ := (Option.any_eq_true _ _).mp hshows
    rw [Bool.and_eq_true_iff, Bool.and_eq_true_iff, beq_iff_eq, beq_iff_eq, beq_iff_eq] at hholds
    obtain ⟨⟨hdimension, hmetric⟩, htable⟩ := hholds
    have hpairs : ∀ a ∈ x.table, ∀ b ∈ x.table, a.1 ≠ b.1 →
        ((x.head.metric.rank [⟨0x40000000⟩] a.2).value ==
          (x.head.metric.rank [⟨0x40000000⟩] b.2).value) = false := by
      rw [htable, hmetric]
      decide +kernel
    have hrun := World.session_eq_some.mp hs
    have hsearcher := toOption_eq_some.mp hx
    obtain ⟨first, second, hfirst, hsecond, _, hoverlap⟩ := widening_keeps_nearest.2 Metric.rank threeItems s 7 x
      hrun hsearcher [⟨0x40000000⟩] hdimension.symm hpairs 1 1 2 none (by decide)
    exact ⟨s, x, first, second, hrun, hsearcher, hfirst, hsecond, hoverlap⟩

end VectorIndex
