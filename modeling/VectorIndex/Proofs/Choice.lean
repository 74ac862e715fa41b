import VectorIndex.Proofs.Selection
import Mathlib.Data.List.Dedup
import Mathlib.Data.List.Induction

/-!
# `VectorIndex.Proofs.Choice` — what a choice of links takes

A choice takes the nearest existing links first, then goes through the candidates in ascending order: a diverse
one is selected, any other is put aside, and those put aside fill the room that is left at the end. Entries may
repeat an id with other distances and embeddings; an id counts once, at the first of its entries in the order.

The choice under way is followed by the place it has reached (`Selection.upTo`). An id is settled when an offer of
it changes nothing any more (`Selection.Settled`), and every id that came up stays settled. This one notion gives
both results: how much is chosen and what is left out (`Selection.choose_choice`), and that neither the order nor
the repetitions of what is given matter (`Selection.choose_congr`).

## Contents
- **Distinct entries.** `Candidate.idCount`; what `Selection.distinct` keeps.
- **Offers.** `Selection.Settled`, `Selection.offer_cases`.
- **The choice under way.** `Selection.upTo`, `Selection.Fails`: a candidate came up and was put aside.
- **What is chosen.** `Selection.length_choose`, `Selection.NearestIds`, `Selection.Choice`.
- **What does not matter.** `Selection.choose_congr`.
-/

namespace VectorIndex

/-! ## Distinct entries -/

/-- How many ids there are among the candidates. -/
def Candidate.idCount (candidates : List Candidate) : Nat := (candidates.map Candidate.id).dedup.length

section Count

variable {candidates : List Candidate} {ids : List ItemId}

theorem Candidate.le_idCount (hnodup : ids.Nodup) (hsub : ∀ id ∈ ids, id ∈ candidates.map Candidate.id) :
    ids.length ≤ Candidate.idCount candidates :=
  hnodup.length_le_of_subset fun id hid => List.mem_dedup.mpr (hsub id hid)

theorem Candidate.idCount_le (hsub : ∀ c ∈ candidates, c.id ∈ ids) : Candidate.idCount candidates ≤ ids.length := by
  apply (List.nodup_dedup _).length_le_of_subset
  intro id hid
  obtain ⟨c, hc, rfl⟩ := List.mem_map.mp (List.mem_dedup.mp hid)
  exact hsub c hc

end Count

namespace Selection

section Distinct

variable {l : List Candidate} {c first : Candidate}

theorem distinct_snoc (l : List Candidate) (c : Candidate) : distinct (l ++ [c]) = addNew (distinct l) c := by
  show (l ++ [c]).foldl addNew [] = addNew (l.foldl addNew []) c
  simp

/-- Nothing moves. -/
theorem distinct_sublist (l : List Candidate) : (distinct l).Sublist l := by
  induction l using List.reverseRecOn with
  | nil => exact List.Sublist.refl []
  | append_singleton l c ih =>
      rw [distinct_snoc]
      unfold addNew
      split
      · exact ih.trans (List.sublist_append_left l [c])
      · exact ih.append (List.Sublist.refl [c])

/-- Every id keeps an entry. -/
theorem exists_mem_distinct (hc : c ∈ l) : ∃ first ∈ distinct l, first.id = c.id := by
  induction l using List.reverseRecOn with
  | nil => simp at hc
  | append_singleton l d ih =>
      rw [distinct_snoc]
      unfold addNew
      by_cases hheld : Candidate.holds (distinct l) d.neighbor.id = true
      · rw [if_pos hheld]
        rcases List.mem_append.mp hc with hc | hc
        · exact ih hc
        · obtain rfl := List.mem_singleton.mp hc
          exact List.mem_map.mp (Candidate.holds_iff.mp hheld)
      · rw [if_neg hheld]
        rcases List.mem_append.mp hc with hc | hc
        · obtain ⟨first, hfirst, hid⟩ := ih hc
          exact ⟨first, List.mem_append_left _ hfirst, hid⟩
        · obtain rfl := List.mem_singleton.mp hc
          exact ⟨c, by simp, rfl⟩

/-- In ascending order the entry kept is the closest of its id. -/
theorem distinct_le (hl : Neighbor.SortedOn Candidate.neighbor l) (hfirst : first ∈ distinct l) (hc : c ∈ l)
    (hid : c.id = first.id) : first.neighbor.le c.neighbor := by
  induction l using List.reverseRecOn with
  | nil => simp at hc
  | append_singleton l d ih =>
      obtain ⟨hsorted, _, hlast⟩ := List.pairwise_append.mp hl
      -- an entry kept before comes before the last one, too
      have hkept : first ∈ distinct l → first.neighbor.le c.neighbor := by
        intro hmem
        rcases List.mem_append.mp hc with hc | hc
        · exact ih hsorted hmem hc
        · exact hlast first (mem_of_mem_distinct hmem) c hc
      rw [distinct_snoc] at hfirst
      unfold addNew at hfirst
      split at hfirst
      · exact hkept hfirst
      · rename_i hnew
        rcases List.mem_append.mp hfirst with hfirst | hfirst
        · exact hkept hfirst
        · -- the last one is kept, so no entry before it has its id
          obtain rfl := List.mem_singleton.mp hfirst
          rcases List.mem_append.mp hc with hc | hc
          · obtain ⟨other, hother, heq⟩ := exists_mem_distinct hc
            exact absurd (Candidate.holds_iff.mpr (List.mem_map.mpr ⟨other, hother, heq.trans hid⟩)) hnew
          · rw [List.mem_singleton.mp hc]
            exact Neighbor.le_refl _

end Distinct

/-! ## Offers -/

variable {rank : Ranking} {cap : Nat} {s : Selection} {c : Candidate} {id : ItemId}

/-- An offer of the id is passed over: the selection is full, or the id was met before. -/
def Settled (cap : Nat) (s : Selection) (id : ItemId) : Prop :=
  cap ≤ s.selected.length ∨ Candidate.holds (s.selected ++ s.spare) id = true

instance (cap : Nat) (s : Selection) (id : ItemId) : Decidable (Settled cap s id) :=
  inferInstanceAs (Decidable (_ ∨ _))

theorem holds_append (a b : List Candidate) (id : ItemId) :
    Candidate.holds (a ++ b) id = (Candidate.holds a id || Candidate.holds b id) :=
  List.any_append

/-- **One offer.** It is passed over, or the candidate is selected as diverse, or it is put aside. -/
theorem offer_cases (rank : Ranking) (cap : Nat) (s : Selection) (c : Candidate) :
    (Settled cap s c.id ∧ offer rank cap s c = s) ∨
    ¬Settled cap s c.id ∧
      (isDiverse rank s.selected c = true ∧ offer rank cap s c = ⟨s.selected ++ [c], s.spare⟩ ∨
        isDiverse rank s.selected c = false ∧ offer rank cap s c = ⟨s.selected, s.spare ++ [c]⟩) := by
  unfold Settled offer
  rw [holds_append]
  by_cases hfull : cap ≤ s.selected.length
  · simp [hfull]
  · by_cases hheld :
        (Candidate.holds s.selected c.neighbor.id || Candidate.holds s.spare c.neighbor.id) = true
    · exact Or.inl ⟨Or.inr hheld, by rw [if_neg hfull, if_pos hheld]⟩
    · refine Or.inr ⟨by rintro (h | h) <;> contradiction, ?_⟩
      rw [if_neg hfull, if_neg hheld]
      cases hdiverse : isDiverse rank s.selected c with
      | true => exact Or.inl ⟨rfl, by simp⟩
      | false => exact Or.inr ⟨rfl, by simp⟩

theorem offer_of_settled (h : Settled cap s c.id) : offer rank cap s c = s := by
  rcases offer_cases rank cap s c with ⟨_, heq⟩ | ⟨hopen, _⟩
  · exact heq
  · exact absurd h hopen

/-- Both lists only grow at their ends. -/
structure Grows (s s' : Selection) : Prop where
  selected : s.selected <+: s'.selected
  spare : s.spare <+: s'.spare

theorem Grows.refl : Grows s s := ⟨List.prefix_refl _, List.prefix_refl _⟩

theorem Grows.trans {s' s'' : Selection} (h : Grows s s') (h' : Grows s' s'') : Grows s s'' :=
  ⟨h.selected.trans h'.selected, h.spare.trans h'.spare⟩

theorem grows_offer (s : Selection) (c : Candidate) : Grows s (offer rank cap s c) := by
  rcases offer_cases rank cap s c with ⟨_, heq⟩ | ⟨_, ⟨_, heq⟩ | ⟨_, heq⟩⟩
  · rw [heq]
    exact .refl
  · rw [heq]
    exact ⟨List.prefix_append _ _, List.prefix_refl _⟩
  · rw [heq]
    exact ⟨List.prefix_refl _, List.prefix_append _ _⟩

theorem grows_offers (cs : List Candidate) (s : Selection) : Grows s (cs.foldl (offer rank cap) s) := by
  induction cs generalizing s with
  | nil => exact .refl
  | cons c cs ih => exact (grows_offer s c).trans (ih _)

/-- What is settled stays so. -/
theorem Settled.grows {s' : Selection} (h : Settled cap s id) (hgrows : Grows s s') : Settled cap s' id := by
  rcases h with hfull | hheld
  · exact Or.inl (Nat.le_trans hfull hgrows.selected.length_le)
  · refine Or.inr ?_
    rw [holds_append, Bool.or_eq_true] at hheld ⊢
    refine hheld.imp ?_ ?_
    · intro h
      exact Candidate.holds_iff.mpr ((hgrows.selected.map _).subset (Candidate.holds_iff.mp h))
    · intro h
      exact Candidate.holds_iff.mpr ((hgrows.spare.map _).subset (Candidate.holds_iff.mp h))

/-- An offer settles its id. -/
theorem settled_offer (s : Selection) (c : Candidate) : Settled cap (offer rank cap s c) c.id := by
  have hself : ∀ l : List Candidate, Candidate.holds (l ++ [c]) c.id = true := by
    intro l
    exact Candidate.holds_iff.mpr (List.mem_map_of_mem (by simp))
  rcases offer_cases rank cap s c with ⟨h, heq⟩ | ⟨_, ⟨_, heq⟩ | ⟨_, heq⟩⟩
  · rw [heq]
    exact h
  · rw [heq]
    exact Or.inr (by rw [holds_append, hself, Bool.true_or])
  · rw [heq]
    exact Or.inr (by rw [holds_append, hself, Bool.or_true])

/-- **Every id that was offered is settled.** -/
theorem settled_offers {cs : List Candidate} (hc : c ∈ cs) (s : Selection) :
    Settled cap (cs.foldl (offer rank cap) s) c.id := by
  induction cs generalizing s with
  | nil => simp at hc
  | cons d cs ih =>
      rcases List.mem_cons.mp hc with rfl | hc
      · exact (settled_offer s c).grows (grows_offers cs _)
      · exact ih hc _

/-! ## The choice under way -/

section Way

variable (rank cap) (candidates existing : List Candidate)

/-- The choice when the candidate at place `i` of the ascending order comes up. -/
def upTo (i : Nat) : Selection :=
  ((Candidate.sort candidates).take i).foldl (offer rank cap) ⟨kept existing cap, []⟩

/-- The candidate `c` at place `i` came up while there was room and its id was new, and failed the diversity test:
    it is not nearer to the node than to everything selected before it. -/
structure Fails (i : Nat) (c : Candidate) : Prop where
  place : (Candidate.sort candidates)[i]? = some c
  considered : ¬Settled cap (upTo rank cap candidates existing i) c.id
  crowded : isDiverse rank (upTo rank cap candidates existing i).selected c = false

variable {rank cap candidates existing}
variable {i : Nat}

theorem sorted_sort (candidates : List Candidate) :
    Neighbor.SortedOn Candidate.neighbor (Candidate.sort candidates) :=
  Neighbor.sortedOn_sortOn candidates

theorem upTo_succ (hplace : (Candidate.sort candidates)[i]? = some c) :
    upTo rank cap candidates existing (i + 1) = offer rank cap (upTo rank cap candidates existing i) c := by
  unfold upTo
  simp [List.take_add_one, hplace]

theorem upTo_succ_of_none (hplace : (Candidate.sort candidates)[i]? = none) :
    upTo rank cap candidates existing (i + 1) = upTo rank cap candidates existing i := by
  unfold upTo
  simp [List.take_add_one, hplace]

theorem afterAll_eq_upTo : afterAll rank candidates existing cap =
    upTo rank cap candidates existing (Candidate.sort candidates).length := by
  unfold upTo
  rw [List.take_length]
  rfl

theorem grows_upTo (rank : Ranking) (cap : Nat) (candidates existing : List Candidate) (i : Nat) :
    Grows (upTo rank cap candidates existing i) (afterAll rank candidates existing cap) := by
  have hrest : afterAll rank candidates existing cap =
      ((Candidate.sort candidates).drop i).foldl (offer rank cap) (upTo rank cap candidates existing i) := by
    unfold upTo
    rw [← List.foldl_append, List.take_append_drop]
    rfl
  rw [hrest]
  exact grows_offers _ _

/-- What was put aside failed the test, and lies there in ascending order. -/
theorem spare_upTo (i : Nat) :
    (upTo rank cap candidates existing i).spare.Sublist ((Candidate.sort candidates).take i) ∧
      ∀ c ∈ (upTo rank cap candidates existing i).spare, ∃ j, Fails rank cap candidates existing j c := by
  induction i with
  | zero => exact ⟨List.Sublist.refl [], fun c hc => absurd hc List.not_mem_nil⟩
  | succ i ih =>
      obtain ⟨hsub, hfails⟩ := ih
      cases hplace : (Candidate.sort candidates)[i]? with
      | none =>
          rw [upTo_succ_of_none hplace, List.take_add_one, hplace]
          simpa using ⟨hsub, hfails⟩
      | some c =>
          have hlonger : ((Candidate.sort candidates).take (i + 1)) = (Candidate.sort candidates).take i ++ [c] := by
            simp [List.take_add_one, hplace]
          rw [upTo_succ hplace, hlonger]
          rcases offer_cases rank cap (upTo rank cap candidates existing i) c with
            ⟨_, heq⟩ | ⟨hopen, ⟨_, heq⟩ | ⟨hcrowded, heq⟩⟩
          · rw [heq]
            exact ⟨hsub.trans (List.sublist_append_left _ _), hfails⟩
          · rw [heq]
            exact ⟨hsub.trans (List.sublist_append_left _ _), hfails⟩
          · rw [heq]
            refine ⟨hsub.append (List.Sublist.refl [c]), ?_⟩
            intro d hd
            rcases List.mem_append.mp hd with hd | hd
            · exact hfails d hd
            · exact List.mem_singleton.mp hd ▸ ⟨i, hplace, hopen, hcrowded⟩

theorem sorted_spare (rank : Ranking) (cap : Nat) (candidates existing : List Candidate) :
    Neighbor.SortedOn Candidate.neighbor (afterAll rank candidates existing cap).spare := by
  rw [afterAll_eq_upTo]
  exact (sorted_sort candidates).sublist ((spare_upTo _).1.trans (List.take_sublist _ _))

theorem exists_fails (hc : c ∈ (afterAll rank candidates existing cap).spare) :
    ∃ j, Fails rank cap candidates existing j c := by
  rw [afterAll_eq_upTo] at hc
  exact (spare_upTo _).2 c hc

/-- A candidate that failed is put aside. -/
theorem Fails.mem_spare (h : Fails rank cap candidates existing i c) :
    c ∈ (afterAll rank candidates existing cap).spare := by
  have hnext := grows_upTo rank cap candidates existing (i + 1)
  rw [upTo_succ h.place] at hnext
  apply hnext.spare.subset
  rcases offer_cases rank cap (upTo rank cap candidates existing i) c with
    ⟨hsettled, _⟩ | ⟨_, ⟨hdiverse, _⟩ | ⟨_, heq⟩⟩
  · exact absurd hsettled h.considered
  · rw [h.crowded] at hdiverse
    cases hdiverse
  · rw [heq]
    simp

/-- What failed is the closest entry of its id: it would have been settled otherwise. -/
theorem Fails.le (h : Fails rank cap candidates existing i c) {e : Candidate} (he : e ∈ candidates)
    (hid : e.id = c.id) : c.neighbor.le e.neighbor := by
  have hmem : e ∈ (Candidate.sort candidates).take i ++ (Candidate.sort candidates).drop i := by
    rw [List.take_append_drop]
    exact Candidate.mem_sort.mpr he
  obtain ⟨hlt, hget⟩ := List.getElem?_eq_some_iff.mp h.place
  rcases List.mem_append.mp hmem with hbefore | hafter
  · exact absurd (hid ▸ settled_offers hbefore _) h.considered
  · have hsorted := (sorted_sort candidates).sublist (List.drop_sublist i _)
    rw [List.drop_eq_getElem_cons hlt, hget] at hafter hsorted
    rcases List.mem_cons.mp hafter with rfl | hafter
    · exact Neighbor.le_refl _
    · exact (List.pairwise_cons.mp hsorted).1 e hafter

end Way

/-! ## What is chosen -/

section Chosen

variable {candidates existing : List Candidate}

/-- What is taken at the end, nearest selected first. -/
def taken (rank : Ranking) (cap : Nat) (candidates existing : List Candidate) : List Candidate :=
  ((afterAll rank candidates existing cap).selected ++ (afterAll rank candidates existing cap).spare).take cap

theorem choose_perm (rank : Ranking) (cap : Nat) (candidates existing : List Candidate) :
    (choose rank candidates existing cap).Perm ((taken rank cap candidates existing).map Candidate.neighbor) :=
  Neighbor.sortOn_perm _

theorem mem_choose_iff {n : Neighbor} :
    n ∈ choose rank candidates existing cap ↔ ∃ c ∈ taken rank cap candidates existing, c.neighbor = n := by
  rw [(choose_perm rank cap candidates existing).mem_iff, List.mem_map]

theorem mem_ids_choose_iff :
    id ∈ (choose rank candidates existing cap).map Neighbor.id ↔
      ∃ c ∈ taken rank cap candidates existing, c.id = id := by
  rw [((choose_perm rank cap candidates existing).map Neighbor.id).mem_iff, List.map_map, List.mem_map]
  rfl

/-- All that is selected is taken, then what was put aside, in its order. -/
theorem taken_eq (rank : Ranking) (cap : Nat) (candidates existing : List Candidate) :
    taken rank cap candidates existing = (afterAll rank candidates existing cap).selected ++
      (afterAll rank candidates existing cap).spare.take
        (cap - (afterAll rank candidates existing cap).selected.length) := by
  unfold taken
  rw [List.take_append, List.take_of_length_le (sound_afterAll rank cap candidates existing).length_le]

theorem mem_taken_of_selected (hc : c ∈ (afterAll rank candidates existing cap).selected) :
    c ∈ taken rank cap candidates existing := by
  rw [taken_eq]
  exact List.mem_append_left _ hc

theorem mem_selected_of_kept (hc : c ∈ kept existing cap) : c ∈ (afterAll rank candidates existing cap).selected :=
  (grows_upTo rank cap candidates existing 0).selected.subset hc

/-- While there is room, every id that was given is selected or put aside. -/
theorem exists_of_room (hroom : (afterAll rank candidates existing cap).selected.length < cap)
    (hc : c ∈ candidates ++ existing) :
    ∃ first ∈ (afterAll rank candidates existing cap).selected ++ (afterAll rank candidates existing cap).spare,
      first.id = c.id := by
  rcases List.mem_append.mp hc with hc | hc
  · have hsettled : Settled cap (afterAll rank candidates existing cap) c.id :=
      settled_offers (Candidate.mem_sort.mpr hc) _
    exact List.mem_map.mp (Candidate.holds_iff.mp (hsettled.resolve_left (Nat.not_le_of_lt hroom)))
  · -- the existing links were not cut short
    obtain ⟨first, hfirst, hid⟩ := exists_mem_distinct (Candidate.mem_sort.mpr hc)
    have hlen : (kept existing cap).length < cap :=
      Nat.lt_of_le_of_lt (grows_upTo rank cap candidates existing 0).selected.length_le hroom
    have hall : kept existing cap = distinct (Candidate.sort existing) := by
      unfold kept at hlen ⊢
      rw [List.length_take] at hlen
      exact List.take_of_length_le (by omega)
    refine ⟨first, List.mem_append_left _ (mem_selected_of_kept ?_), hid⟩
    rw [hall]
    exact hfirst

/-- **A choice takes as many ids as the cap allows.** -/
theorem length_choose (rank : Ranking) (cap : Nat) (candidates existing : List Candidate) :
    (choose rank candidates existing cap).length = min cap (Candidate.idCount (candidates ++ existing)) := by
  have hsound := sound_afterAll rank cap candidates existing
  have hgiven : ∀ id ∈ ((afterAll rank candidates existing cap).selected ++
      (afterAll rank candidates existing cap).spare).map Candidate.id,
      id ∈ (candidates ++ existing).map Candidate.id := by
    intro id hid
    obtain ⟨c, hc, rfl⟩ := List.mem_map.mp hid
    exact List.mem_map_of_mem (hsound.given c hc)
  have hcount := Candidate.le_idCount hsound.nodup hgiven
  rw [(choose_perm rank cap candidates existing).length_eq, List.length_map, taken, List.length_take]
  rw [List.length_map] at hcount
  by_cases hroom : (afterAll rank candidates existing cap).selected.length < cap
  · have hall : Candidate.idCount (candidates ++ existing) ≤ (((afterAll rank candidates existing cap).selected ++
        (afterAll rank candidates existing cap).spare).map Candidate.id).length := by
      refine Candidate.idCount_le fun c hc => ?_
      obtain ⟨first, hfirst, hid⟩ := exists_of_room hroom hc
      exact List.mem_map.mpr ⟨first, hfirst, hid⟩
    rw [List.length_map] at hall
    omega
  · rw [List.length_append] at hcount ⊢
    omega

/-- What is given is chosen, or the choice is full. -/
theorem mem_or_full (hc : c ∈ candidates ++ existing) :
    c.id ∈ (choose rank candidates existing cap).map Neighbor.id ∨
      (choose rank candidates existing cap).length = cap := by
  by_cases hmem : c.id ∈ (choose rank candidates existing cap).map Neighbor.id
  · exact Or.inl hmem
  · have hnodup := List.nodup_cons.mpr ⟨hmem, nodup_choose rank cap candidates existing⟩
    have hgiven : ∀ id ∈ c.id :: (choose rank candidates existing cap).map Neighbor.id,
        id ∈ (candidates ++ existing).map Candidate.id := by
      intro id hid
      rcases List.mem_cons.mp hid with rfl | hid
      · exact List.mem_map_of_mem hc
      · obtain ⟨n, hn, rfl⟩ := List.mem_map.mp hid
        obtain ⟨d, hd, rfl⟩ := mem_choose hn
        exact List.mem_map_of_mem hd
    have hcount := Candidate.le_idCount hnodup hgiven
    rw [List.length_cons, List.length_map] at hcount
    have hlen := length_choose rank cap candidates existing
    omega

/-- `nearest` holds the nearest `count` ids of `entries`, or all of them, each at its closest entry. -/
structure NearestIds (entries : List Candidate) (count : Nat) (nearest : List Candidate) : Prop where
  given : ∀ n ∈ nearest, n ∈ entries
  distinct : (nearest.map Candidate.id).Nodup
  length_eq : nearest.length = min count (Candidate.idCount entries)
  closest : ∀ n ∈ nearest, ∀ e ∈ entries, e.id = n.id ∨ e.id ∉ nearest.map Candidate.id →
    n.neighbor.le e.neighbor

/-- The existing links that are kept are the nearest. -/
theorem nearestIds_kept (existing : List Candidate) (cap : Nat) : NearestIds existing cap (kept existing cap) := by
  have hsorted := sorted_sort existing
  have hdistinct := hsorted.sublist (distinct_sublist _)
  have hcount : Candidate.idCount existing = (distinct (Candidate.sort existing)).length := by
    apply Nat.le_antisymm
    · rw [← List.length_map (f := Candidate.id)]
      refine Candidate.idCount_le fun c hc => ?_
      obtain ⟨first, hfirst, hid⟩ := exists_mem_distinct (Candidate.mem_sort.mpr hc)
      exact List.mem_map.mpr ⟨first, hfirst, hid⟩
    · rw [← List.length_map (f := Candidate.id)]
      refine Candidate.le_idCount (nodup_distinct _) fun id hid => ?_
      obtain ⟨c, hc, rfl⟩ := List.mem_map.mp hid
      exact List.mem_map_of_mem (Candidate.mem_sort.mp (mem_of_mem_distinct hc))
  refine ⟨?_, ?_, ?_, ?_⟩
  · intro n hn
    exact Candidate.mem_sort.mp (mem_of_mem_distinct (List.mem_of_mem_take hn))
  · exact (nodup_distinct _).sublist ((List.take_sublist _ _).map _)
  · rw [hcount, kept, List.length_take]
  · intro n hn e he hother
    obtain ⟨first, hfirst, hid⟩ := exists_mem_distinct (Candidate.mem_sort.mpr he)
    have hle := distinct_le hsorted hfirst (Candidate.mem_sort.mpr he) hid.symm
    have hsplit := List.take_append_drop cap (distinct (Candidate.sort existing))
    rcases hother with hsame | hleft
    · exact distinct_le hsorted (List.mem_of_mem_take hn) (Candidate.mem_sort.mpr he) hsame
    · -- the first entry of the id comes after all that is kept
      have hdrop : first ∈ (distinct (Candidate.sort existing)).drop cap := by
        rw [← hsplit] at hfirst
        refine (List.mem_append.mp hfirst).resolve_left fun hkept => hleft ?_
        exact List.mem_map.mpr ⟨first, hkept, hid⟩
      rw [← hsplit] at hdistinct
      exact Neighbor.le_trans ((List.pairwise_append.mp hdistinct).2.2 n hn first hdrop) hle

/-- Of what was put aside, the chosen are those in front. -/
theorem mem_choose_of_spare (hc : c ∈ (afterAll rank candidates existing cap).spare) :
    c.neighbor ∈ choose rank candidates existing cap ↔
      c ∈ (afterAll rank candidates existing cap).spare.take
        (cap - (afterAll rank candidates existing cap).selected.length) := by
  rw [mem_choose_iff, taken_eq]
  constructor
  · rintro ⟨d, hd, hneighbor⟩
    have hnodup := (sound_afterAll rank cap candidates existing).nodup
    have hid : d.id = c.id := congrArg Neighbor.id hneighbor
    rcases List.mem_append.mp hd with hselected | hfront
    · -- no id is both selected and put aside
      rw [List.map_append] at hnodup
      exact absurd (hid ▸ List.mem_map_of_mem hc)
        (List.disjoint_of_nodup_append hnodup (List.mem_map_of_mem hselected))
    · have hspare : d ∈ (afterAll rank candidates existing cap).spare := List.mem_of_mem_take hfront
      rw [← List.inj_on_of_nodup_map hnodup (List.mem_append_right _ hspare) (List.mem_append_right _ hc) hid]
      exact hfront
  · intro hfront
    exact ⟨c, List.mem_append_right _ hfront, rfl⟩

/-- **Nothing that failed is chosen before what is left out.** Where something that failed is chosen, an id left out
    was put aside behind it. -/
theorem exists_behind {f : Candidate} (hf : f ∈ (afterAll rank candidates existing cap).spare)
    (hchosen : f.neighbor ∈ choose rank candidates existing cap) (hc : c ∈ candidates)
    (hout : c.id ∉ (choose rank candidates existing cap).map Neighbor.id) :
    ∃ first ∈ (afterAll rank candidates existing cap).spare, first.id = c.id ∧
      f.neighbor.le first.neighbor := by
  have hfront := (mem_choose_of_spare hf).mp hchosen
  have hroom : (afterAll rank candidates existing cap).selected.length < cap := by
    have hpos := List.length_pos_of_mem hfront
    rw [List.length_take] at hpos
    omega
  obtain ⟨first, hfirst, hid⟩ := exists_of_room hroom (List.mem_append_left existing hc)
  have huntaken : first ∉ taken rank cap candidates existing := by
    intro htaken
    exact hout (hid ▸ mem_ids_choose_iff.mpr ⟨first, htaken, rfl⟩)
  have hspare : first ∈ (afterAll rank candidates existing cap).spare := by
    refine (List.mem_append.mp hfirst).resolve_left ?_
    intro hselected
    exact huntaken (mem_taken_of_selected hselected)
  refine ⟨first, hspare, hid, ?_⟩
  -- what was put aside ascends, the chosen ones in front
  have hsorted := sorted_spare rank cap candidates existing
  have hsplit := List.take_append_drop (cap - (afterAll rank candidates existing cap).selected.length)
    (afterAll rank candidates existing cap).spare
  rw [← hsplit] at hsorted hspare
  refine (List.pairwise_append.mp hsorted).2.2 f hfront first ?_
  refine (List.mem_append.mp hspare).resolve_left ?_
  intro hfirst
  rw [taken_eq] at huntaken
  exact huntaken (List.mem_append_right _ hfirst)

/-- What a choice of at most `cap` links takes of `candidates` and `existing`. -/
structure Choice (rank : Ranking) (cap : Nat) (candidates existing : List Candidate) (chosen : List Neighbor) :
    Prop where
  ascending : chosen.Pairwise fun a b => compare a b = .lt
  distinct : (chosen.map Neighbor.id).Nodup
  given : ∀ n ∈ chosen, ∃ c ∈ candidates ++ existing, c.neighbor = n
  /-- There are as many as the cap allows. -/
  length_eq : chosen.length = min cap (Candidate.idCount (candidates ++ existing))
  /-- The nearest existing links are kept. -/
  nearest : ∃ nearest, NearestIds existing cap nearest ∧ ∀ n ∈ nearest, n.neighbor ∈ chosen
  /-- What failed the test fills places in ascending order, -/
  filler_le : ∀ i f, Fails rank cap candidates existing i f → f.neighbor ∈ chosen →
    ∀ c ∈ candidates, c.id ∉ chosen.map Neighbor.id → f.neighbor.le c.neighbor
  /-- and only when all that is left out failed the test, too. -/
  left_out : ∀ i f, Fails rank cap candidates existing i f → f.neighbor ∈ chosen →
    ∀ c ∈ candidates, c.id ∉ chosen.map Neighbor.id →
      ∃ j first, Fails rank cap candidates existing j first ∧ first.id = c.id ∧
        (∀ e ∈ candidates, e.id = c.id → first.neighbor.le e.neighbor) ∧
        ∃ k ∈ (upTo rank cap candidates existing j).selected, k.neighbor ∈ chosen ∧
          first.neighbor.distance.lt (rank first.embedding k.embedding) = false

/-- **What is chosen**: as many ids as the cap allows, the nearest existing links among them, and a candidate that
    failed the diversity test only where every id left out failed it, too, at the closest of its entries. -/
theorem choose_choice (rank : Ranking) (cap : Nat) (candidates existing : List Candidate) :
    Choice rank cap candidates existing (choose rank candidates existing cap) where
  ascending := Neighbor.ascending_of_sorted (Neighbor.sortedOn_sortOn _) (nodup_choose rank cap candidates existing)
  distinct := nodup_choose rank cap candidates existing
  given n hn := mem_choose hn
  length_eq := length_choose rank cap candidates existing
  nearest := by
    refine ⟨kept existing cap, nearestIds_kept existing cap, ?_⟩
    intro n hn
    exact mem_choose_iff.mpr ⟨n, mem_taken_of_selected (mem_selected_of_kept hn), rfl⟩
  filler_le := by
    intro i f hf hchosen c hc hout
    obtain ⟨first, hspare, hid, hle⟩ := exists_behind hf.mem_spare hchosen hc hout
    obtain ⟨j, hfails⟩ := exists_fails hspare
    exact Neighbor.le_trans hle (hfails.le hc hid.symm)
  left_out := by
    intro i f hf hchosen c hc hout
    obtain ⟨first, hspare, hid, _⟩ := exists_behind hf.mem_spare hchosen hc hout
    obtain ⟨j, hfails⟩ := exists_fails hspare
    have hclosest : ∀ e ∈ candidates, e.id = c.id → first.neighbor.le e.neighbor := by
      intro e he heq
      exact hfails.le he (heq.trans hid.symm)
    obtain ⟨k, hk, hnear⟩ := List.all_eq_false.mp hfails.crowded
    have hkept := (grows_upTo rank cap candidates existing j).selected.subset hk
    refine ⟨j, first, hfails, hid, hclosest, k, hk, ?_, by simpa using hnear⟩
    exact mem_choose_iff.mpr ⟨k, mem_taken_of_selected hkept, rfl⟩

end Chosen

/-- Item 6 and both entries of item 5, of which only the second is far from item 7. -/
def repeatedItem : List Candidate :=
  [⟨⟨6, ⟨0x3f666666⟩⟩, [⟨0⟩]⟩, ⟨⟨5, ⟨0x3f800000⟩⟩, [⟨0⟩]⟩, ⟨⟨5, ⟨0x40000000⟩⟩, [⟨0x42c80000⟩]⟩]

/-- Item 7. -/
def onlyLink : List Candidate := [⟨⟨7, ⟨0x3f000000⟩⟩, [⟨0⟩]⟩]

/-- **An id counts once, at the closest of its entries.** Item 6 fails the test and is chosen, although the second
    entry of item 5, which is left out, is nearer to the node than to everything chosen: the item came up before, at
    its first entry. -/
theorem diverse_entry_left_out : ∃ f ∈ repeatedItem, ∃ c ∈ repeatedItem,
    Fails Metric.euclidean.rank 2 repeatedItem onlyLink 0 f ∧
    f.neighbor ∈ choose Metric.euclidean.rank repeatedItem onlyLink 2 ∧
    c.id ∉ (choose Metric.euclidean.rank repeatedItem onlyLink 2).map Neighbor.id ∧
    ∀ k ∈ repeatedItem ++ onlyLink, k.neighbor ∈ choose Metric.euclidean.rank repeatedItem onlyLink 2 →
      c.neighbor.distance.lt (Metric.euclidean.rank c.embedding k.embedding) = true := by
  refine ⟨⟨⟨6, ⟨0x3f666666⟩⟩, [⟨0⟩]⟩, by decide +kernel, ⟨⟨5, ⟨0x40000000⟩⟩, [⟨0x42c80000⟩]⟩,
    by decide +kernel, ⟨by decide +kernel, by decide +kernel, by decide +kernel⟩, ?_, ?_, ?_⟩
  · decide +kernel
  · decide +kernel
  · decide +kernel

/-! ## What does not matter -/

section Members

/-- Repetitions of an id change nothing. -/
theorem foldl_offer_distinct (rank : Ranking) (cap : Nat) (l : List Candidate) (s : Selection) :
    l.foldl (offer rank cap) s = (distinct l).foldl (offer rank cap) s := by
  induction l using List.reverseRecOn with
  | nil => rfl
  | append_singleton l c ih =>
      rw [distinct_snoc, List.foldl_append, ih]
      unfold addNew
      by_cases hheld : Candidate.holds (distinct l) c.neighbor.id = true
      · -- the id came up before, so it is settled
        obtain ⟨first, hfirst, hid⟩ := List.mem_map.mp (Candidate.holds_iff.mp hheld)
        have hsettled : Settled cap ((distinct l).foldl (offer rank cap) s) c.id := by
          rw [show c.id = first.id from hid.symm]
          exact settled_offers hfirst s
        rw [if_pos hheld]
        simpa using offer_of_settled hsettled
      · rw [if_neg hheld, List.foldl_append]

/-- Entries of one item at one distance carry one embedding. -/
def Consistent (l : List Candidate) : Prop :=
  ∀ a ∈ l, ∀ b ∈ l, a.id = b.id → a.neighbor.distance = b.neighbor.distance → a.embedding = b.embedding

instance (l : List Candidate) : Decidable (Consistent l) :=
  inferInstanceAs (Decidable (∀ a ∈ l, ∀ b ∈ l, _ → _ → _))

variable {l l' : List Candidate}

theorem Consistent.eq (hl : Consistent l) {a b : Candidate} (ha : a ∈ l) (hb : b ∈ l)
    (hab : a.neighbor = b.neighbor) : a = b := by
  have hembedding := hl a ha b hb (congrArg Neighbor.id hab) (congrArg Neighbor.distance hab)
  cases a
  cases b
  simp_all

/-- What is kept of a consistent list is the closest entry of each id. -/
theorem mem_distinct_sort_iff (hl : Consistent l) {c : Candidate} :
    c ∈ distinct (Candidate.sort l) ↔ c ∈ l ∧ ∀ e ∈ l, e.id = c.id → c.neighbor.le e.neighbor := by
  constructor
  · intro hc
    refine ⟨Candidate.mem_sort.mp (mem_of_mem_distinct hc), ?_⟩
    intro e he hid
    exact distinct_le (sorted_sort l) hc (Candidate.mem_sort.mpr he) hid
  · rintro ⟨hc, hclosest⟩
    obtain ⟨first, hfirst, hid⟩ := exists_mem_distinct (Candidate.mem_sort.mpr hc)
    have hmem : first ∈ l := Candidate.mem_sort.mp (mem_of_mem_distinct hfirst)
    have hle := distinct_le (sorted_sort l) hfirst (Candidate.mem_sort.mpr hc) hid.symm
    rw [hl.eq hc hmem (Neighbor.le_antisymm (hclosest first hmem hid) hle)]
    exact hfirst

/-- The closest entries in ascending order depend on the members alone. -/
theorem distinct_sort_congr (hl : Consistent l) (hmem : ∀ c, c ∈ l' ↔ c ∈ l) :
    distinct (Candidate.sort l') = distinct (Candidate.sort l) := by
  have hl' : Consistent l' := fun a ha b hb => hl a ((hmem a).mp ha) b ((hmem b).mp hb)
  have hnodup : ∀ k : List Candidate, (distinct k).Nodup := fun k => (nodup_distinct k).of_map _
  have hsorted : ∀ k, Neighbor.SortedOn Candidate.neighbor (distinct (Candidate.sort k)) :=
    fun k => (sorted_sort k).sublist (distinct_sublist _)
  have hperm : (distinct (Candidate.sort l')).Perm (distinct (Candidate.sort l)) := by
    rw [List.perm_ext_iff_of_nodup (hnodup _) (hnodup _)]
    intro c
    rw [mem_distinct_sort_iff hl', mem_distinct_sort_iff hl]
    simp only [hmem]
  refine hperm.eq_of_pairwise ?_ (hsorted l') (hsorted l)
  intro a b ha hb hab hba
  exact hl.eq ((hmem a).mp (Candidate.mem_sort.mp (mem_of_mem_distinct ha)))
    (Candidate.mem_sort.mp (mem_of_mem_distinct hb)) (Neighbor.le_antisymm hab hba)

variable {candidates candidates' existing existing' : List Candidate}

/-- **A choice depends only on which entries it is given**, not on their order and not on how often each is there. -/
theorem choose_congr (rank : Ranking) (cap : Nat) (hcandidates : Consistent candidates)
    (hexisting : Consistent existing) (hcandidates' : ∀ c, c ∈ candidates' ↔ c ∈ candidates)
    (hexisting' : ∀ c, c ∈ existing' ↔ c ∈ existing) :
    choose rank candidates' existing' cap = choose rank candidates existing cap := by
  have hkept : kept existing' cap = kept existing cap := by
    unfold kept
    rw [distinct_sort_congr hexisting hexisting']
  have hafter : afterAll rank candidates' existing' cap = afterAll rank candidates existing cap := by
    unfold afterAll
    rw [foldl_offer_distinct, distinct_sort_congr hcandidates hcandidates', hkept, ← foldl_offer_distinct]
  unfold choose
  rw [hafter]

/-- Seeds that were found, too, and links given in another order. -/
theorem choose_congr_repeatedItem :
    Consistent repeatedItem ∧ Consistent (onlyLink ++ repeatedItem) ∧
      choose Metric.euclidean.rank (repeatedItem.reverse ++ repeatedItem) (repeatedItem ++ onlyLink) 2 =
        choose Metric.euclidean.rank repeatedItem (onlyLink ++ repeatedItem) 2 := by
  have hcandidates : Consistent repeatedItem := by decide +kernel
  have hexisting : Consistent (onlyLink ++ repeatedItem) := by decide +kernel
  refine ⟨hcandidates, hexisting, choose_congr Metric.euclidean.rank 2 hcandidates hexisting ?_ ?_⟩
  · intro c
    simp
  · intro c
    simp [or_comm]

end Members

end Selection

end VectorIndex
