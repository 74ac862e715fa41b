import Std.Data.ExtTreeMap
import Std.Data.ExtTreeSet

/-!
# `VectorIndex.Basic` — identifiers and the containers keyed by them

A database holds several indexes, each named by an `IndexId`; an index holds items, each named by an
`ItemId` its user chose. Sets and maps over ids are extensional and iterate in ascending order, so two
states with the same contents are equal and every scan has one order.

## Contents
- **Identifiers.** `ItemId`, `IndexId`, `Bytes`.
- **Containers.** `IdSet`, `IdMap`.
- **Finiteness.** `IdSet.room` counts the ids still missing from a set; inserting a new id lowers it
  (`IdSet.room_insert_lt`). It is the measure by which every walk over a graph ends.
-/

namespace VectorIndex

/-- An item of an index, named by its user. -/
abbrev ItemId := UInt32

/-- An index of a database. -/
abbrev IndexId := UInt16

/-- A stored record. -/
abbrev Bytes := List UInt8

/-- A set of items, listed in ascending order. -/
abbrev IdSet := Std.ExtTreeSet ItemId

/-- A finite map from items, listed in ascending order of the ids. -/
abbrev IdMap (α : Type) := Std.ExtTreeMap ItemId α

/-! ## There are finitely many ids -/

/-- A list without repetition whose members lie below `n` has at most `n` members. -/
theorem length_le_of_nodup_of_lt {l : List Nat} {n : Nat} (hd : l.Nodup) (hlt : ∀ x ∈ l, x < n) :
    l.length ≤ n := by
  induction n generalizing l with
  | zero =>
      cases l with
      | nil => exact Nat.le_refl 0
      | cons x xs => exact absurd (hlt x List.mem_cons_self) (Nat.not_lt_zero x)
  | succ n ih =>
      have hrest : (l.erase n).length ≤ n := by
        apply ih (hd.erase n)
        intro x hx
        have hne : x ≠ n := fun h => (List.Nodup.not_mem_erase hd) (h ▸ hx)
        have hle := hlt x (List.mem_of_mem_erase hx)
        omega
      have herase := List.length_erase (a := n) (l := l)
      split at herase <;> omega

/-- A list of ids without repetition is no longer than there are ids. -/
theorem length_le_of_nodup_ids {l : List ItemId} (hd : l.Nodup) : l.length ≤ UInt32.size := by
  have hmap : (l.map UInt32.toNat).Nodup := by
    refine List.pairwise_map.mpr (hd.imp ?_)
    intro a b hab h
    exact hab (UInt32.toNat_inj.mp h)
  have hlt : ∀ x ∈ l.map UInt32.toNat, x < UInt32.size := by
    intro x hx
    obtain ⟨a, _, rfl⟩ := List.mem_map.mp hx
    exact a.toNat_lt
  simpa using length_le_of_nodup_of_lt hmap hlt

namespace IdSet

/-- A set of ids has at most as many members as there are ids. -/
theorem size_le (s : IdSet) : s.size ≤ UInt32.size := by
  rw [← Std.ExtTreeSet.length_toList]
  apply length_le_of_nodup_ids
  exact (Std.ExtTreeSet.distinct_toList (t := s)).imp fun h heq => h (by simp [heq])

/-- The number of ids that are not in `s`. -/
def room (s : IdSet) : Nat := UInt32.size - s.size

/-- A new member leaves less room. -/
theorem room_insert_lt {s : IdSet} {id : ItemId} (h : s.contains id = false) :
    room (s.insert id) < room s := by
  have hsize : (s.insert id).size = s.size + 1 := by simp [Std.ExtTreeSet.size_insert, h]
  have hle := size_le (s.insert id)
  unfold room
  omega

end IdSet

end VectorIndex
