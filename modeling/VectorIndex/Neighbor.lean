import VectorIndex.Basic
import VectorIndex.Number.Single

/-!
# `VectorIndex.Neighbor` — items ranked by distance

Everything that the graph search keeps is a list of neighbours in ascending order: by distance in the total
order of binary32, then by id. A search has two of them, the frontier it still has to expand and the
shortlist of the best items so far.

## Contents
- **Order.** `Neighbor` and its `Ord` instance (total and lawful: entries compare equal only when they are
  equal).
- **Sorting.** `insertOn` and `sortOn` order anything that has a neighbour as its key; a sorted list is an
  ascending rearrangement (`sortOn_perm`, `sortedOn_sortOn`).
- **Frontier.** `insertSorted` puts an entry in its place; the nearest entry is the head.
- **Shortlist.** `insertBounded` keeps the nearest entries up to a limit; the furthest kept is the last.
-/

namespace VectorIndex

/-- An item and its distance to something. -/
structure Neighbor where
  id : ItemId
  distance : Single
deriving DecidableEq, Inhabited

namespace Neighbor

/-! ## Order -/

instance : Ord Neighbor where
  compare a b := (compare a.distance.rankKey b.distance.rankKey).then (compare a.id b.id)

theorem compare_def (a b : Neighbor) :
    compare a b = (compare a.distance.rankKey b.distance.rankKey).then (compare a.id b.id) := rfl

/-- The order of neighbours is the lexicographic order of two keys. -/
theorem compare_eq_compareLex :
    (compare : Neighbor → Neighbor → Ordering) =
      compareLex (compareOn fun n : Neighbor => n.distance.rankKey) (compareOn Neighbor.id) := rfl

instance : Std.TransOrd Neighbor := by
  unfold Std.TransOrd
  rw [compare_eq_compareLex]
  infer_instance

/-- Entries that compare equal have the same distance, bit for bit, and the same id. -/
instance : Std.LawfulEqOrd Neighbor where
  compare_self {a} := Std.ReflCmp.compare_self
  eq_of_compare {a b} h := by
    rw [compare_def, Ordering.then_eq_eq] at h
    obtain ⟨hd, hi⟩ := h
    have hdist := Single.rankKey_inj (Std.LawfulEqCmp.eq_of_compare hd)
    have hid := Std.LawfulEqCmp.eq_of_compare hi
    cases a
    cases b
    simp_all

/-- `a` comes before `b` or is equal to it. -/
def le (a b : Neighbor) : Bool := (compare a b).isLE

theorem le_trans {a b c : Neighbor} (h₁ : a.le b) (h₂ : b.le c) : a.le c :=
  Std.TransCmp.isLE_trans h₁ h₂

theorem le_total (a b : Neighbor) : (a.le b || b.le a) = true := by
  have hswap : compare b a = (compare a b).swap := Std.OrientedCmp.eq_swap
  unfold le
  rw [hswap]
  cases compare a b <;> rfl

theorem le_refl (n : Neighbor) : n.le n = true := by
  have h := le_total n n
  rwa [Bool.or_self] at h

theorem le_antisymm {a b : Neighbor} (h₁ : a.le b) (h₂ : b.le a) : a = b :=
  Std.LawfulEqCmp.eq_of_compare (Std.OrientedCmp.isLE_antisymm h₁ h₂)

/-- Of two items the one that comes first comes strictly first. -/
theorem compare_eq_lt_of_le {a b : Neighbor} (hle : a.le b = true) (hne : a.id ≠ b.id) : compare a b = .lt := by
  unfold le at hle
  cases hcompare : compare a b with
  | lt => rfl
  | eq => exact absurd (congrArg id (Std.LawfulEqCmp.eq_of_compare hcompare)) hne
  | gt =>
      rw [hcompare] at hle
      cases hle

/-! ## Sorting -/

section Sorting

variable {α : Type} (key : α → Neighbor)

/-- Ascending order of the keys. -/
abbrev SortedOn (l : List α) : Prop := l.Pairwise fun a b => (key a).le (key b)

/-- An element put in its place in an ascending list, before those of an equal key. -/
def insertOn (a : α) : List α → List α
  | [] => [a]
  | b :: rest => if (key a).le (key b) then a :: b :: rest else b :: insertOn a rest

/-- The elements in ascending order; those of an equal key keep their order. -/
def sortOn (l : List α) : List α := l.foldr (insertOn key) []

variable {key}

theorem insertOn_perm (a : α) (l : List α) : (insertOn key a l).Perm (a :: l) := by
  induction l with
  | nil => exact List.Perm.refl _
  | cons b rest ih =>
      unfold insertOn
      split
      · exact List.Perm.refl _
      · exact (ih.cons b).trans (List.Perm.swap a b rest)

@[simp] theorem mem_insertOn {a b : α} {l : List α} : b ∈ insertOn key a l ↔ b = a ∨ b ∈ l := by
  rw [(insertOn_perm a l).mem_iff, List.mem_cons]

@[simp] theorem length_insertOn (a : α) (l : List α) : (insertOn key a l).length = l.length + 1 :=
  (insertOn_perm a l).length_eq

/-- Insertion keeps the order. -/
theorem sortedOn_insertOn {a : α} {l : List α} (h : SortedOn key l) : SortedOn key (insertOn key a l) := by
  induction l with
  | nil => simp [insertOn]
  | cons b rest ih =>
      obtain ⟨hb, hrest⟩ := List.pairwise_cons.mp h
      unfold insertOn
      by_cases hle : (key a).le (key b) = true
      · rw [if_pos hle]
        refine List.pairwise_cons.mpr ⟨?_, h⟩
        intro x hx
        rcases List.mem_cons.mp hx with rfl | hx
        · exact hle
        · exact le_trans hle (hb x hx)
      · rw [if_neg hle]
        refine List.pairwise_cons.mpr ⟨?_, ih hrest⟩
        intro x hx
        rcases mem_insertOn.mp hx with rfl | hx
        · have := le_total (key b) (key x)
          simp_all
        · exact hb x hx

/-- Sorting neither adds nor drops an element. -/
theorem sortOn_perm (l : List α) : (sortOn key l).Perm l := by
  induction l with
  | nil => exact List.Perm.refl _
  | cons a l ih => exact (insertOn_perm a _).trans (ih.cons a)

/-- What is sorted ascends. -/
theorem sortedOn_sortOn (l : List α) : SortedOn key (sortOn key l) := by
  induction l with
  | nil => exact List.Pairwise.nil
  | cons a l ih => exact sortedOn_insertOn ih

end Sorting

/-! ## Lists of neighbours -/

/-- Ascending order. -/
abbrev Sorted (entries : List Neighbor) : Prop := SortedOn (fun n => n) entries

/-- Entries of different items ascend strictly. -/
theorem ascending_of_sorted {entries : List Neighbor} (hsorted : Sorted entries)
    (hdistinct : (entries.map id).Nodup) : entries.Pairwise fun a b => compare a b = .lt :=
  (hsorted.and (List.pairwise_map.mp hdistinct)).imp fun h => compare_eq_lt_of_le h.1 h.2

/-- The entries in ascending order. -/
def sort (entries : List Neighbor) : List Neighbor := sortOn (fun n => n) entries

/-- The entry put in its place in an ascending list. -/
abbrev insertSorted (n : Neighbor) (entries : List Neighbor) : List Neighbor :=
  insertOn (fun m => m) n entries

/-- The entry put in its place in an ascending list that keeps at most `limit` entries. -/
def insertBounded (limit : Nat) (n : Neighbor) (entries : List Neighbor) : List Neighbor :=
  (insertSorted n entries).take limit

/-- A bounded list stays within its limit. -/
theorem length_insertBounded_le (limit : Nat) (n : Neighbor) (entries : List Neighbor) :
    (insertBounded limit n entries).length ≤ limit := by
  simp only [insertBounded, List.length_take]
  exact Nat.min_le_left _ _

/-- A bounded insertion keeps the order. -/
theorem sorted_insertBounded {limit : Nat} {n : Neighbor} {entries : List Neighbor}
    (h : Sorted entries) : Sorted (insertBounded limit n entries) :=
  (sortedOn_insertOn h).sublist (List.take_sublist _ _)

end Neighbor

end VectorIndex
