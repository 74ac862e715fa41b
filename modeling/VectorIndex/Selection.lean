import VectorIndex.Metric
import VectorIndex.Neighbor

/-!
# `VectorIndex.Selection` — which neighbours a node links to

A node has room for a few links. Links that point in different directions keep the graph navigable, so a
candidate is preferred when it is nearer to the node than to every link already chosen. Candidates that fail
this test fill the room that is left.

## Contents
- **Candidates.** `Candidate`: a scored item with its embedding. Each id counts once, at its first place in
  ascending order.
- **Choosing.** `Selection.kept` takes the links to keep, `Selection.offer` decides on one candidate,
  `Selection.choose` is the whole choice, sorted.
-/

namespace VectorIndex

/-- How far apart two embeddings are, for ranking. -/
abbrev Ranking := Embedding → Embedding → Single

/-- An item scored against a node, with its embedding. -/
structure Candidate where
  neighbor : Neighbor
  embedding : Embedding
deriving DecidableEq

/-- Ascending order; candidates that rank equal keep their order. -/
def Candidate.sort (candidates : List Candidate) : List Candidate :=
  Neighbor.sortOn Candidate.neighbor candidates

/-- A candidate with this id is in the list. -/
def Candidate.holds (candidates : List Candidate) (id : ItemId) : Bool :=
  candidates.any fun c => c.neighbor.id == id

/-- A choice under way: what is selected, and what failed the diversity test. Both ascend. -/
structure Selection where
  selected : List Candidate
  spare : List Candidate

namespace Selection

/-- The first candidate of each id. -/
def distinct (candidates : List Candidate) : List Candidate :=
  candidates.foldl (fun found c => if Candidate.holds found c.neighbor.id then found else found ++ [c]) []

/-- The nearest existing links, at most `cap` of them. -/
def kept (existing : List Candidate) (cap : Nat) : List Candidate :=
  (distinct (Candidate.sort existing)).take cap

/-- Nearer to the node than to everything selected. -/
def isDiverse (rank : Ranking) (selected : List Candidate) (c : Candidate) : Bool :=
  selected.all fun s => c.neighbor.distance.lt (rank c.embedding s.embedding)

/-- Decides on one candidate. A full selection and an id seen before change nothing. -/
def offer (rank : Ranking) (cap : Nat) (s : Selection) (c : Candidate) : Selection :=
  if cap ≤ s.selected.length then s
  else if Candidate.holds s.selected c.neighbor.id || Candidate.holds s.spare c.neighbor.id then s
  else if isDiverse rank s.selected c then { s with selected := s.selected ++ [c] }
  else { s with spare := s.spare ++ [c] }

/-- The selection after all candidates, nearest first. -/
def afterAll (rank : Ranking) (candidates existing : List Candidate) (cap : Nat) : Selection :=
  (Candidate.sort candidates).foldl (offer rank cap) ⟨kept existing cap, []⟩

/-- At most `cap` neighbours: the existing links first, then diverse candidates, then the nearest of the
others. The result ascends. A cap may be any number: that no memory can be had for a list of `cap` entries, which
from `2 ^ 63` bytes on stops the program, is left out. -/
def choose (rank : Ranking) (candidates existing : List Candidate) (cap : Nat) : List Neighbor :=
  let s := afterAll rank candidates existing cap
  Neighbor.sort (((s.selected ++ s.spare).take cap).map Candidate.neighbor)

end Selection

end VectorIndex
