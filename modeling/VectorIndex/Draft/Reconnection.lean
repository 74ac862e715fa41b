import VectorIndex.Draft.Linking

/-!
# `VectorIndex.Draft.Reconnection` — every item can be reached

Giving up links can leave a node that no path from the entry point reaches on the base layer. Before a
commit such nodes are linked back. The walk from the entry point remembers by which link it entered each
node; those links are kept, so linking one node back never cuts off another.

## Contents
- **Walking.** `Walk`, `Draft.follow`, `Draft.walkFrom`.
- **Linking back.** `Draft.hostLinks`, `Draft.findHost`, `Draft.attach`.
- **All of it.** `Draft.reconnected`.
-/

namespace VectorIndex

/-- What a walk over the base layer has reached. -/
structure Walk where
  reached : IdSet
  /-- The node whose link led to each reached node. -/
  enteredFrom : IdMap ItemId

namespace Walk

/-- Nothing reached yet. -/
def empty : Walk := ⟨∅, ∅⟩

/-- A node reached without a link. -/
def mark (w : Walk) (id : ItemId) : Walk := { w with reached := w.reached.insert id }

/-- A node reached through a link of `source`. -/
def enter (w : Walk) (source id : ItemId) : Walk :=
  ⟨w.reached.insert id, w.enteredFrom.insert id source⟩

end Walk

namespace Draft

/-! ## Walking -/

/-- Follows the links of `source`. New live targets are marked and put on the stack, the last one on top. -/
def enterAll (d : Draft) (source : ItemId) : Walk → List ItemId → List ItemId → Walk × List ItemId
  | w, stack, [] => (w, stack)
  | w, stack, target :: targets =>
      if w.reached.contains target || !d.contains target then d.enterAll source w stack targets
      else d.enterAll source (w.enter source target) (target :: stack) targets

/-- The steps a walk can still make, one for each node on the stack and each id not reached yet, do not grow
by following links. -/
theorem enterAll_remaining_le (d : Draft) (source : ItemId) (w : Walk) (stack targets : List ItemId) :
    (d.enterAll source w stack targets).1.reached.room + (d.enterAll source w stack targets).2.length ≤
      w.reached.room + stack.length := by
  induction targets generalizing w stack with
  | nil => exact Nat.le_refl _
  | cons target targets ih =>
      unfold enterAll
      by_cases h : (w.reached.contains target || !d.contains target) = true
      · rw [if_pos h]
        exact ih w stack
      · rw [if_neg h]
        have hnew : w.reached.contains target = false := by
          cases hc : w.reached.contains target <;> simp_all
        have hlt : (w.enter source target).reached.room < w.reached.room := IdSet.room_insert_lt hnew
        have hle := ih (w.enter source target) (target :: stack)
        simp only [List.length_cons] at hle
        omega

/-- Walks on from the nodes of the stack. -/
def follow (d : Draft) (w : Walk) (stack : List ItemId) : Except Error Walk :=
  match stack with
  | [] => .ok w
  | id :: rest =>
      match d.node id with
      | .error e => .error e
      | .ok none => follow d w rest
      | .ok (some node) =>
          let next := d.enterAll id w rest (node.linksAt 0)
          follow d next.1 next.2
termination_by w.reached.room + stack.length
decreasing_by
  · simp only [List.length_cons]
    omega
  · have hle := enterAll_remaining_le d id w rest (node.linksAt 0)
    simp only [List.length_cons]
    omega

/-- Marks everything that can be reached from `start` on the base layer. -/
def walkFrom (d : Draft) (w : Walk) (start : ItemId) : Except Error Walk := d.follow (w.mark start) [start]

/-! ## Linking back -/

/-- The base links of `host` with a link to `id`. A full list gives up its furthest link that the walk did
not enter through; `none` if there is no such link. That no memory can be had for as many links as the cap allows is
left out, as in `Selection.choose`. -/
def hostLinks (d : Draft) (w : Walk) (host : ItemId) (node : Node) (id : ItemId) :
    Except Error (Option (List ItemId)) := do
  let links := (node.linksAt 0).filter d.contains
  if links.length < d.cap 0 then return some (links ++ [id])
  else
    let spare := links.filter fun n => w.enteredFrom[n]? != some host
    let scored ← d.graph.scoreAll node.embedding spare
    match (Neighbor.sort scored).getLast? with
    | none => return none
    | some furthest => return some (links.filter (· != furthest.id) ++ [id])

/-- The first of the hosts that is reached and can link to `id`, and the draft with that link. -/
def findHost (d : Draft) (w : Walk) (id : ItemId) : List ItemId → Except Error (ItemId × Draft)
  | [] => .error (.corrupted (.unattachable id))
  | host :: hosts =>
      if host = id || !w.reached.contains host then d.findHost w id hosts
      else do
        match ← d.node host with
        | none => d.findHost w id hosts
        | some node =>
            match ← d.hostLinks w host node id with
            | none => d.findHost w id hosts
            | some links => return (host, d.setLinks host node 0 links)

/-- The items near an embedding that a search from the entry point finds on the base layer. -/
def nearEntry (d : Draft) (embedding : Embedding) : Except Error (List Neighbor) :=
  match d.head.entryPoint with
  | none => return []
  | some entry => do
      match ← d.graph.score embedding entry with
      | none => return []
      | some start =>
          let nearest ← d.graph.descend embedding start d.head.topLevel.toNat 0
          d.beamSearch embedding [nearest] 0

/-- Links the unreached item `id` back: from a node near it if one can, else from any reached node. -/
def attach (d : Draft) (w : Walk) (id : ItemId) : Except Error (ItemId × Draft) := do
  match ← d.node id with
  | none => .error (.corrupted (.item id))
  | some orphan =>
      let near ← d.nearEntry orphan.embedding
      d.findHost w id (near.map Neighbor.id ++ w.reached.toList)

/-! ## All of it -/

/-- Links the items back that are not reached, in their order. -/
def attachAll : Draft → Walk → List ItemId → Except Error Draft
  | d, _, [] => .ok d
  | d, w, id :: ids =>
      if w.reached.contains id then attachAll d w ids
      else do
        let (host, d) ← d.attach w id
        attachAll d (← d.walkFrom { w with enteredFrom := w.enteredFrom.insert id host } id) ids

/-- The draft in which every live item can be reached from the entry point on the base layer. -/
def reconnected (d : Draft) : Except Error Draft :=
  match d.head.entryPoint with
  | none => .ok d
  | some entry => do
      let w ← d.walkFrom Walk.empty entry
      let live := d.liveIds
      if w.reached.size = live.size then return d
      else attachAll d w (live.toList.filter fun id => !w.reached.contains id)

end Draft

end VectorIndex
