import VectorIndex.Graph

/-!
# `VectorIndex.Graph.Beam` — best-first search on one layer

A beam search explores a layer from a few entries, always expanding the nearest item it has not expanded,
and keeps a shortlist of the nearest items seen. It stops when the nearest item left is further than the
whole of a full shortlist. A filter decides what may enter the shortlist; it does not restrict where the
search goes.

## Contents
- **The task.** `BeamSearch`: graph, query, width, layer, filter.
- **The state.** `Beam`: visited ids, frontier, shortlist.
- **Steps.** `start`, `visit`, `visitAll`, `isFinished`.
- **Every id is visited once.** `Beam.remaining` counts the expansions that can still come; following links
  does not add to it (`visitAll_remaining_le`).
- **The search.** The loop `advance`, which every expansion shortens, and `Graph.beamSearch`.
-/

namespace VectorIndex

/-- What a beam search looks for. -/
structure BeamSearch where
  graph : Graph
  query : Embedding
  /-- How many items the shortlist holds. -/
  width : Nat
  layer : Nat
  /-- What may enter the shortlist. -/
  admits : ItemId → Bool

/-- How far a beam search has come. -/
structure Beam where
  visited : IdSet
  /-- Items still to be expanded, nearest first. -/
  frontier : List Neighbor
  /-- The nearest admitted items, nearest first. -/
  shortlist : List Neighbor

namespace Beam

/-- Nothing seen yet. -/
def empty : Beam := ⟨∅, [], []⟩

/-- How many expansions can still come: one for each item on the frontier and each id not seen yet. -/
def remaining (b : Beam) : Nat := b.visited.room + b.frontier.length

/-- The furthest distance on the shortlist, infinity when it is empty. -/
def furthest (b : Beam) : Single :=
  match b.shortlist.getLast? with
  | some n => n.distance
  | none => Single.infinity

end Beam

namespace BeamSearch

variable (s : BeamSearch)

/-! ## Steps -/

/-- Puts an item on the frontier and, if the filter admits it, on the shortlist. -/
def push (b : Beam) (n : Neighbor) : Beam where
  visited := b.visited
  frontier := Neighbor.insertSorted n b.frontier
  shortlist := if s.admits n.id then Neighbor.insertBounded s.width n b.shortlist else b.shortlist

/-- Enters an item that is scored already. -/
def enter (b : Beam) (n : Neighbor) : Beam :=
  if b.visited.contains n.id then b else s.push { b with visited := b.visited.insert n.id } n

/-- The state before the first expansion. -/
def start (entries : List Neighbor) : Beam := entries.foldl s.enter Beam.empty

/-- The shortlist is full and `c`, the nearest item left, is further than all of it. -/
def isFinished (b : Beam) (c : Neighbor) : Bool :=
  s.width ≤ b.shortlist.length && !b.shortlist.isEmpty && b.furthest.lt c.distance

/-- There is room on the shortlist, or the item is nearer than the furthest on it. -/
def accepts (b : Beam) (n : Neighbor) : Bool :=
  b.shortlist.length < s.width || n.distance.lt b.furthest

/-- Follows a link: marks the target and pushes it if it resolves and is accepted. -/
def visit (b : Beam) (id : ItemId) : Except Error Beam :=
  if b.visited.contains id then .ok b
  else do
    let seen : Beam := { b with visited := b.visited.insert id }
    match ← s.graph.score s.query id with
    | none => return seen
    | some n => return if s.accepts seen n then s.push seen n else seen

/-- Follows links in their order. -/
def visitAll : Beam → List ItemId → Except Error Beam
  | b, [] => .ok b
  | b, id :: ids => do visitAll (← s.visit b id) ids

/-! ## Every id is visited once -/

@[simp] theorem visited_push (b : Beam) (n : Neighbor) : (s.push b n).visited = b.visited := rfl

/-- Pushing an item adds one expansion. -/
theorem remaining_push (b : Beam) (n : Neighbor) : (s.push b n).remaining = b.remaining + 1 := by
  simp only [Beam.remaining, push, Neighbor.length_insertOn]
  omega

/-- Following a link adds no expansion: an id that joins the frontier is no longer unseen. -/
theorem visit_remaining_le {s : BeamSearch} {b b' : Beam} {id : ItemId} (h : s.visit b id = .ok b') :
    b'.remaining ≤ b.remaining := by
  unfold visit at h
  cases hseen : b.visited.contains id with
  | true =>
      rw [if_pos hseen, Except.ok.injEq] at h
      exact Nat.le_of_eq (congrArg _ h.symm)
  | false =>
      have hroom := IdSet.room_insert_lt hseen
      have hmark : ({ b with visited := b.visited.insert id } : Beam).remaining + 1 ≤ b.remaining := by
        simp only [Beam.remaining]
        omega
      rw [if_neg (by simp [hseen])] at h
      cases hscore : s.graph.score s.query id with
      | error e => simp [hscore, bind, Except.bind] at h
      | ok found =>
          cases found with
          | none =>
              simp only [hscore, bind, Except.bind, pure, Except.pure, Except.ok.injEq] at h
              subst h
              omega
          | some n =>
              simp only [hscore, bind, Except.bind, pure, Except.pure, Except.ok.injEq] at h
              subst h
              split
              · rw [remaining_push]
                exact hmark
              · omega

/-- Following links adds no expansion. -/
theorem visitAll_remaining_le {s : BeamSearch} {b b' : Beam} {ids : List ItemId}
    (h : s.visitAll b ids = .ok b') : b'.remaining ≤ b.remaining := by
  induction ids generalizing b with
  | nil =>
      rw [visitAll, Except.ok.injEq] at h
      exact Nat.le_of_eq (congrArg _ h.symm)
  | cons id ids ih =>
      unfold visitAll at h
      cases hvisit : s.visit b id with
      | error e => simp [hvisit, bind, Except.bind] at h
      | ok m =>
          simp only [hvisit, bind, Except.bind] at h
          exact Nat.le_trans (ih h) (visit_remaining_le hvisit)

/-! ## The search -/

/-- Expands the nearest item until the search is finished or nothing is left. -/
def advance (b : Beam) : Except Error (List Neighbor) :=
  match _hb : b.frontier with
  | [] => .ok b.shortlist
  | c :: rest =>
      if s.isFinished b c then .ok b.shortlist
      else
        match s.graph.node c.id with
        | .error e => .error e
        | .ok none => advance { b with frontier := rest }
        | .ok (some node) =>
            match _hv : s.visitAll { b with frontier := rest } (node.linksAt s.layer) with
            | .error e => .error e
            | .ok b' => advance b'
termination_by b.remaining
decreasing_by
  · simp only [Beam.remaining, _hb, List.length_cons]
    omega
  · have hle := visitAll_remaining_le _hv
    simp only [Beam.remaining, _hb, List.length_cons] at hle ⊢
    omega

end BeamSearch

/-- The `width` items nearest to `query` that a beam search on `layer` finds from `entries`, which are
scored already. The result ascends. -/
def Graph.beamSearch (g : Graph) (query : Embedding) (entries : List Neighbor) (width layer : Nat)
    (admits : ItemId → Bool) : Except Error (List Neighbor) :=
  let s : BeamSearch := ⟨g, query, width, layer, admits⟩
  s.advance (s.start entries)

end VectorIndex
