import VectorIndex.Draft

/-!
# `VectorIndex.Draft.Edit` — steps that may fail half-way

Reading a damaged record can stop an insertion or a repair in the middle. What was changed up to there
stays in the draft. So an edit returns its outcome together with the draft it leaves, in both cases.

## Contents
- `Edit`, `Edit.on`, `Edit.ofExcept`, and the equations by which an edit is run step by step.
-/

namespace VectorIndex

/-- A step on a draft: an outcome, and the draft it leaves. -/
abbrev Edit := ExceptT Error (StateM Draft)

namespace Edit

variable {α β : Type}

/-- The outcome of an edit and the draft it leaves. -/
def on (e : Edit α) (d : Draft) : Except Error α × Draft := (ExceptT.run e).run d

/-- A computation that changes nothing. -/
def ofExcept (x : Except Error α) : Edit α := ExceptT.mk (pure x)

/-! ## Running an edit -/

@[simp] theorem on_pure (a : α) (d : Draft) : on (pure a) d = (.ok a, d) := rfl

@[simp] theorem on_throw (e : Error) (d : Draft) : on (throw e : Edit α) d = (.error e, d) := rfl

@[simp] theorem on_ofExcept (x : Except Error α) (d : Draft) : on (ofExcept x) d = (x, d) := rfl

@[simp] theorem on_get (d : Draft) : on (get : Edit Draft) d = (.ok d, d) := rfl

@[simp] theorem on_set (d' d : Draft) : on (set d' : Edit Unit) d = (.ok (), d') := rfl

@[simp] theorem on_modify (f : Draft → Draft) (d : Draft) :
    on (modify f : Edit Unit) d = (.ok (), f d) := rfl

/-- The second step runs on the draft that the first one leaves, unless the first one failed. -/
theorem on_bind (e : Edit α) (f : α → Edit β) (d : Draft) :
    on (e >>= f) d =
      match on e d with
      | (.ok a, d') => on (f a) d'
      | (.error x, d') => (.error x, d') := by
  simp only [on, bind, ExceptT.bind, ExceptT.run, ExceptT.mk, StateT.run, StateT.bind, ExceptT.bindCont]
  cases hed : e d with
  | mk outcome d' => cases outcome <;> rfl

end Edit

end VectorIndex
