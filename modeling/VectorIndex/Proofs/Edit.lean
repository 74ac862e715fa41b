import VectorIndex.Draft.Linking

/-!
# `VectorIndex.Proofs.Edit` — edits that go through

An edit is a sequence of reads and changes, each of which may fail. `Edit.Yields e d Q` says that `e` goes
through on the draft `d` and that its outcome and the draft it leaves satisfy `Q`; `Edit.Ensures e d Q` says
the latter only of an edit that goes through, and so asks nothing of the rows it reads. There is one rule for
each way of building an edit, so that a proof about an edit follows its text.

## Contents
- `Edit.Yields`, `Yields.imp`, and its rules `yields_pure`, `yields_bind`, `yields_get`, `yields_modify`,
  `yields_reading`, `yields_updating`, and `yields_forM`, the rule for a loop.
- `Edit.Ensures`, `Ensures.imp`, and its rules of the same names.
-/

namespace VectorIndex
namespace Edit

variable {α β γ : Type} {d : Draft} {e : Edit α}

/-- The edit goes through on `d`, and `Q` holds of its outcome and the draft it leaves. -/
def Yields (e : Edit α) (d : Draft) (Q : α → Draft → Prop) : Prop :=
  ∃ a d', e.on d = (.ok a, d') ∧ Q a d'

theorem Yields.imp {Q R : α → Draft → Prop} (h : e.Yields d Q) (hQR : ∀ a d', Q a d' → R a d') :
    e.Yields d R := by
  obtain ⟨a, d', hrun, hQ⟩ := h
  exact ⟨a, d', hrun, hQR a d' hQ⟩

theorem yields_pure {a : α} {Q : α → Draft → Prop} (hQ : Q a d) : Yields (pure a : Edit α) d Q :=
  ⟨a, d, rfl, hQ⟩

/-- One step after the other. -/
theorem yields_bind {f : α → Edit β} {Q : β → Draft → Prop}
    (h : e.Yields d fun a d' => (f a).Yields d' Q) : (e >>= f).Yields d Q := by
  obtain ⟨a, d', hrun, b, d'', hrun', hQ⟩ := h
  refine ⟨b, d'', ?_, hQ⟩
  rw [on_bind, hrun]
  exact hrun'

theorem yields_get {Q : Draft → Draft → Prop} (hQ : Q d d) : Yields (get : Edit Draft) d Q := ⟨d, d, rfl, hQ⟩

theorem yields_modify {f : Draft → Draft} {Q : Unit → Draft → Prop} (hQ : Q () (f d)) :
    Yields (modify f : Edit Unit) d Q := ⟨(), f d, rfl, hQ⟩

theorem yields_reading {f : Draft → Except Error α} {a : α} {Q : α → Draft → Prop} (hf : f d = .ok a)
    (hQ : Q a d) : (reading f).Yields d Q :=
  ⟨a, d, by rw [on_reading, hf], hQ⟩

theorem yields_updating {f : Draft → Except Error Draft} {d' : Draft} {Q : Unit → Draft → Prop}
    (hf : f d = .ok d') (hQ : Q () d') : (updating f).Yields d Q :=
  ⟨(), d', by rw [on_updating, hf], hQ⟩

/-- A loop keeps an invariant that speaks of the elements still to come. -/
theorem yields_forM {f : γ → Edit Unit} {I : List γ → Draft → Prop}
    (hstep : ∀ x xs d, I (x :: xs) d → (f x).Yields d fun _ d' => I xs d') (xs : List γ) (hI : I xs d) :
    Yields (xs.forM f) d fun _ d' => I [] d' := by
  induction xs generalizing d with
  | nil => exact yields_pure hI
  | cons x xs ih => exact yields_bind ((hstep x xs d hI).imp fun _ d' hd' => ih hd')

/-! ## If they go through -/

/-- If the edit goes through on `d`, then `Q` holds of its outcome and the draft it leaves. -/
def Ensures (e : Edit α) (d : Draft) (Q : α → Draft → Prop) : Prop :=
  ∀ a d', e.on d = (.ok a, d') → Q a d'

theorem Ensures.imp {Q R : α → Draft → Prop} (h : e.Ensures d Q) (hQR : ∀ a d', Q a d' → R a d') :
    e.Ensures d R :=
  fun a d' hrun => hQR a d' (h a d' hrun)

/-- An edit has one outcome. -/
theorem Yields.ensures {Q : α → Draft → Prop} (h : e.Yields d Q) : e.Ensures d Q := by
  intro a d' hrun
  obtain ⟨a', d'', hrun', hQ⟩ := h
  obtain ⟨ha, rfl⟩ := Prod.mk.inj (hrun'.symm.trans hrun)
  exact Except.ok.inj ha ▸ hQ

theorem ensures_pure {a : α} {Q : α → Draft → Prop} (hQ : Q a d) : Ensures (pure a : Edit α) d Q := by
  intro a' d' hrun
  obtain ⟨ha, rfl⟩ := Prod.mk.inj hrun
  exact Except.ok.inj ha ▸ hQ

theorem ensures_throw (x : Error) {Q : α → Draft → Prop} : Ensures (throw x : Edit α) d Q := by
  intro a' d' hrun
  cases congrArg Prod.fst hrun

theorem ensures_bind {f : α → Edit β} {Q : β → Draft → Prop}
    (h : e.Ensures d fun a d' => (f a).Ensures d' Q) : (e >>= f).Ensures d Q := by
  intro b d'' hrun
  rw [on_bind] at hrun
  cases he : e.on d with
  | mk outcome d' =>
      rw [he] at hrun
      cases outcome with
      | error x => cases congrArg Prod.fst hrun
      | ok a => exact h a d' he b d'' hrun

theorem ensures_get {Q : Draft → Draft → Prop} (hQ : Q d d) : Ensures (get : Edit Draft) d Q := by
  intro a d' hrun
  obtain ⟨ha, rfl⟩ := Prod.mk.inj hrun
  exact Except.ok.inj ha ▸ hQ

theorem ensures_modify {f : Draft → Draft} {Q : Unit → Draft → Prop} (hQ : Q () (f d)) :
    Ensures (modify f : Edit Unit) d Q := by
  intro u d' hrun
  obtain ⟨_, rfl⟩ := Prod.mk.inj hrun
  exact hQ

theorem ensures_reading {f : Draft → Except Error α} {Q : α → Draft → Prop}
    (hQ : ∀ a, f d = .ok a → Q a d) : (reading f).Ensures d Q := by
  intro a d' hrun
  rw [on_reading] at hrun
  obtain ⟨ha, rfl⟩ := Prod.mk.inj hrun
  exact hQ a ha

theorem ensures_updating {f : Draft → Except Error Draft} {Q : Unit → Draft → Prop}
    (hQ : ∀ d', f d = .ok d' → Q () d') : (updating f).Ensures d Q := by
  intro u d' hrun
  rw [on_updating] at hrun
  cases hf : f d with
  | error x =>
      rw [hf] at hrun
      cases congrArg Prod.fst hrun
  | ok d₁ =>
      rw [hf] at hrun
      obtain ⟨_, rfl⟩ := Prod.mk.inj hrun
      exact hQ _ hf

/-- A loop keeps an invariant. -/
theorem ensures_forM {f : γ → Edit Unit} {I : Draft → Prop} {xs : List γ}
    (hstep : ∀ x ∈ xs, ∀ d, I d → (f x).Ensures d fun _ d' => I d') (hI : I d) :
    Ensures (xs.forM f) d fun _ d' => I d' := by
  induction xs generalizing d with
  | nil => exact ensures_pure hI
  | cons x xs ih =>
      refine ensures_bind ((hstep x List.mem_cons_self d hI).imp fun _ d' hd' => ?_)
      exact ih (fun y hy => hstep y (List.mem_cons_of_mem x hy)) hd'

end Edit
end VectorIndex
