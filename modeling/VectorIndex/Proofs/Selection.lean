import VectorIndex.Selection
import Mathlib.Data.List.Nodup

/-!
# `VectorIndex.Proofs.Selection` — what a choice of links can hold

A choice runs three loops over one growing selection. The invariant that carries all of them is
`Selection.Sound`: no id is taken twice, the selection stays within the cap, and nothing is taken that was
not given.

## Contents
- **Distinct candidates.** `Selection.distinct` keeps one candidate per id.
- **One offer.** `Selection.sound_offer`.
- **The choice.** `Selection.mem_choose`, `Selection.nodup_choose`, `Selection.length_choose_le`.
-/

namespace VectorIndex

/-- The id of a candidate. -/
def Candidate.id (c : Candidate) : ItemId := c.neighbor.id

theorem Candidate.holds_iff {candidates : List Candidate} {id : ItemId} :
    Candidate.holds candidates id = true ↔ id ∈ candidates.map Candidate.id := by
  unfold Candidate.holds
  rw [List.any_eq_true, List.mem_map]
  constructor
  · rintro ⟨c, hc, heq⟩
    exact ⟨c, hc, beq_iff_eq.mp heq⟩
  · rintro ⟨c, hc, heq⟩
    exact ⟨c, hc, beq_iff_eq.mpr heq⟩

/-- A candidate of a new id joins a list. -/
theorem Candidate.nodup_snoc {candidates : List Candidate} {c : Candidate}
    (h : (candidates.map Candidate.id).Nodup) (hc : ¬Candidate.holds candidates c.neighbor.id = true) :
    ((candidates ++ [c]).map Candidate.id).Nodup := by
  rw [List.map_append, List.map_singleton, ← List.concat_eq_append]
  exact h.concat fun hid => hc (Candidate.holds_iff.mpr hid)

theorem Candidate.mem_sort {candidates : List Candidate} {c : Candidate} :
    c ∈ Candidate.sort candidates ↔ c ∈ candidates :=
  (Neighbor.sortOn_perm candidates).mem_iff

namespace Selection

/-! ## Distinct candidates -/

/-- One step of `distinct`. -/
def addNew (found : List Candidate) (c : Candidate) : List Candidate :=
  if Candidate.holds found c.neighbor.id then found else found ++ [c]

theorem nodup_addNew {found : List Candidate} (c : Candidate) (h : (found.map Candidate.id).Nodup) :
    ((addNew found c).map Candidate.id).Nodup := by
  unfold addNew
  by_cases hc : Candidate.holds found c.neighbor.id = true
  · rw [if_pos hc]
    exact h
  · rw [if_neg hc]
    exact Candidate.nodup_snoc h hc

theorem nodup_distinct (candidates : List Candidate) : ((distinct candidates).map Candidate.id).Nodup := by
  have step : ∀ (cs found : List Candidate), (found.map Candidate.id).Nodup →
      ((cs.foldl addNew found).map Candidate.id).Nodup := by
    intro cs
    induction cs with
    | nil => exact fun _ h => h
    | cons c cs ih => exact fun found h => ih (addNew found c) (nodup_addNew c h)
  exact step candidates [] List.nodup_nil

theorem mem_of_mem_distinct {candidates : List Candidate} {c : Candidate} (h : c ∈ distinct candidates) :
    c ∈ candidates := by
  have step : ∀ (cs found : List Candidate), c ∈ cs.foldl addNew found → c ∈ found ∨ c ∈ cs := by
    intro cs
    induction cs with
    | nil => exact fun _ h => Or.inl h
    | cons d cs ih =>
        intro found hc
        rcases ih (addNew found d) hc with hc | hc
        · unfold addNew at hc
          split at hc
          · exact Or.inl hc
          · rcases List.mem_append.mp hc with hc | hc
            · exact Or.inl hc
            · exact Or.inr (List.mem_singleton.mp hc ▸ List.mem_cons_self)
        · exact Or.inr (List.mem_cons_of_mem d hc)
  exact (step candidates [] h).resolve_left List.not_mem_nil

/-! ## One offer -/

/-- What holds of a choice under way: ids count once, the selection fits, and everything was given. -/
structure Sound (cap : Nat) (given : List Candidate) (s : Selection) : Prop where
  nodup : ((s.selected ++ s.spare).map Candidate.id).Nodup
  length_le : s.selected.length ≤ cap
  given : ∀ c ∈ s.selected ++ s.spare, c ∈ given

variable {rank : Ranking} {cap : Nat}

/-- The candidate joins the selection, the spare ones, or nothing. -/
theorem sound_offer {given : List Candidate} {s : Selection} {c : Candidate} (h : Sound cap given s)
    (hc : c ∈ given) : Sound cap given (offer rank cap s c) := by
  have hgiven : ∀ d ∈ s.selected ++ s.spare ++ [c], d ∈ given := by
    intro d hd
    rcases List.mem_append.mp hd with hd | hd
    · exact h.given d hd
    · exact List.mem_singleton.mp hd ▸ hc
  unfold offer
  by_cases hfull : cap ≤ s.selected.length
  · rw [if_pos hfull]
    exact h
  · rw [if_neg hfull]
    by_cases hheld :
        (Candidate.holds s.selected c.neighbor.id || Candidate.holds s.spare c.neighbor.id) = true
    · rw [if_pos hheld]
      exact h
    · rw [if_neg hheld]
      have hnew : ¬Candidate.holds (s.selected ++ s.spare) c.neighbor.id = true := by
        unfold Candidate.holds at hheld ⊢
        rw [List.any_append]
        exact hheld
      have hnodup := Candidate.nodup_snoc h.nodup hnew
      by_cases hdiverse : isDiverse rank s.selected c = true
      · -- the candidate goes between the two lists, so both facts are moved along a permutation
        rw [if_pos hdiverse]
        have hperm : (s.selected ++ [c] ++ s.spare).Perm (s.selected ++ s.spare ++ [c]) := by
          rw [List.append_assoc, List.append_assoc]
          exact List.perm_append_comm.append_left s.selected
        refine ⟨((hperm.map Candidate.id).nodup_iff).mpr hnodup, ?_, ?_⟩
        · simp only [List.length_append, List.length_singleton]
          omega
        · exact fun d hd => hgiven d (hperm.mem_iff.mp hd)
      · rw [if_neg hdiverse]
        refine ⟨?_, h.length_le, ?_⟩
        · rw [← List.append_assoc]
          exact hnodup
        · rw [← List.append_assoc]
          exact hgiven

theorem sound_offers {given : List Candidate} (cs : List Candidate) {s : Selection} (h : Sound cap given s)
    (hcs : ∀ c ∈ cs, c ∈ given) : Sound cap given (cs.foldl (offer rank cap) s) := by
  induction cs generalizing s with
  | nil => exact h
  | cons c cs ih =>
      exact ih (sound_offer h (hcs c List.mem_cons_self)) fun d hd => hcs d (List.mem_cons_of_mem c hd)

/-! ## The choice -/

variable (rank) (cap) (candidates existing : List Candidate)

theorem sound_afterAll :
    Sound cap (candidates ++ existing) (afterAll rank candidates existing cap) := by
  apply sound_offers
  · refine ⟨?_, ?_, ?_⟩
    · rw [List.append_nil]
      exact (nodup_distinct _).sublist ((List.take_sublist _ _).map _)
    · exact List.length_take_le _ _
    · intro c hc
      rw [List.append_nil] at hc
      have hmem := mem_of_mem_distinct (List.mem_of_mem_take hc)
      exact List.mem_append_right _ (Candidate.mem_sort.mp hmem)
  · exact fun c hc => List.mem_append_left _ (Candidate.mem_sort.mp hc)

theorem length_choose_le : (choose rank candidates existing cap).length ≤ cap := by
  unfold choose Neighbor.sort
  rw [(Neighbor.sortOn_perm _).length_eq, List.length_map]
  exact List.length_take_le _ _

/-- No item is chosen twice. -/
theorem nodup_choose : ((choose rank candidates existing cap).map Neighbor.id).Nodup := by
  unfold choose Neighbor.sort
  rw [((Neighbor.sortOn_perm _).map Neighbor.id).nodup_iff, List.map_map]
  exact (sound_afterAll rank cap candidates existing).nodup.sublist ((List.take_sublist _ _).map _)

variable {rank} {cap} {candidates existing}

/-- What is chosen was given. -/
theorem mem_choose {n : Neighbor} (h : n ∈ choose rank candidates existing cap) :
    ∃ c ∈ candidates ++ existing, c.neighbor = n := by
  unfold choose Neighbor.sort at h
  obtain ⟨c, hc, hn⟩ := List.mem_map.mp ((Neighbor.sortOn_perm _).mem_iff.mp h)
  exact ⟨c, (sound_afterAll rank cap candidates existing).given c (List.mem_of_mem_take hc), hn⟩

end Selection

end VectorIndex
