import VectorIndex.Error

/-!
# `VectorIndex.Distance` — measuring and accepting embeddings

## Contents
- `Metric.distance`: the reported distance of two embeddings of one dimension.
- `Embedding.check`: what an index of a given dimension accepts as an item.
-/

namespace VectorIndex

/-- The distance of two embeddings; they must have one dimension. -/
def Metric.distance (metric : Metric) (a b : Embedding) : Except Error Single :=
  if a.length = b.length then .ok (metric.report (metric.rank a b))
  else .error (.dimensionMismatch a.length b.length)

/-- An embedding is rejected if it has another dimension, then at its first component that is not finite. -/
def Embedding.check (dimension : Nat) (v : Embedding) : Except Error Unit :=
  if v.length = dimension then
    match v.zipIdx.find? (fun c => !c.1.isFinite) with
    | some (value, position) => .error (.invalidVector (.component position value))
    | none => .ok ()
  else .error (.dimensionMismatch dimension v.length)

/-- What is accepted has the dimension and only finite components. -/
theorem Embedding.check_eq_ok {dimension : Nat} {v : Embedding} :
    Embedding.check dimension v = .ok () ↔ v.length = dimension ∧ ∀ x ∈ v, x.isFinite := by
  unfold Embedding.check
  by_cases hlen : v.length = dimension
  · rw [if_pos hlen]
    cases hfind : v.zipIdx.find? (fun c => !c.1.isFinite) with
    | some c =>
        have hbad := List.find?_some hfind
        have hmem := List.fst_mem_of_mem_zipIdx (List.mem_of_find?_eq_some hfind)
        constructor
        · intro h
          simp at h
        · rintro ⟨_, hall⟩
          simp [hall _ hmem] at hbad
    | none =>
        refine ⟨fun _ => ⟨hlen, ?_⟩, fun _ => rfl⟩
        intro x hx
        obtain ⟨i, hi⟩ := List.getElem?_of_mem hx
        have hz := List.find?_eq_none.mp hfind (x, i) (List.mem_zipIdx_iff_getElem?.mpr hi)
        simpa using hz
  · rw [if_neg hlen]
    simp [hlen]

end VectorIndex
