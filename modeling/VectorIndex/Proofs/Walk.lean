import VectorIndex.Draft.Reconnection
import VectorIndex.Proofs.WellFormed
import VectorIndex.Proofs.LiveScan

/-!
# `VectorIndex.Proofs.Walk` — the walk over the base layer

A walk remembers for each node the node whose link led to it. These links form a tree that hangs from the
entry point, and `Hung` says that an id hangs on it. `Walked` is the invariant of the walk: what is reached is
live and hangs on the tree, the tree never leads back to the entry point, and the links of every reached node
have been followed, unless it is still on the stack.

When the stack is empty, the reached nodes are exactly those that links lead to from the entry point
(`Walked.reaches`, `Walked.complete`).

## Contents
- **The tree.** `Hung`, `Walked`.
- **One node.** `Draft.enterAll_walked`.
- **The walk.** `Draft.follow_walked`.
-/

namespace VectorIndex

/-! ## The tree -/

/-- `id` hangs on the tree of the links in `entered`, whose root is `entry`. -/
inductive Hung (nodes : IdMap Node) (entered : IdMap ItemId) (entry : ItemId) : ItemId → Prop where
  | root : Hung nodes entered entry entry
  | link {source id : ItemId} : Hung nodes entered entry source → entered[id]? = some source →
      Follows nodes 0 source id → Hung nodes entered entry id

/-- How far a walk has come that still has the nodes of `stack` to expand. -/
structure Walked (nodes : IdMap Node) (entry : ItemId) (w : Walk) (stack : List ItemId) : Prop where
  live : ∀ id ∈ w.reached, id ∈ nodes
  hung : ∀ id ∈ w.reached, Hung nodes w.enteredFrom entry id
  root : entry ∈ w.reached
  /-- The tree holds reached nodes, and none but the root is without a link. -/
  entered : ∀ id source, w.enteredFrom[id]? = some source → id ∈ w.reached ∧ id ≠ entry
  onStack : ∀ id ∈ stack, id ∈ w.reached
  closed : ∀ id ∈ w.reached, id ∉ stack → ∀ t, Follows nodes 0 id t → t ∈ w.reached

section Tree

variable {nodes nodes' : IdMap Node} {entered entered' : IdMap ItemId} {entry id : ItemId} {w : Walk}
  {stack : List ItemId}

theorem Hung.reaches (h : Hung nodes entered entry id) : Reaches nodes 0 entry id := by
  induction h with
  | root => exact .refl
  | link _ _ hlink ih => exact ih.tail hlink

/-- The tree stands while its links do. -/
theorem Hung.imp (h : Hung nodes entered entry id)
    (hlinks : ∀ source t, entered[t]? = some source → Follows nodes 0 source t →
      entered'[t]? = some source ∧ Follows nodes' 0 source t) : Hung nodes' entered' entry id := by
  induction h with
  | root => exact .root
  | link _ hentered hlink ih =>
      obtain ⟨hentered', hlink'⟩ := hlinks _ _ hentered hlink
      exact .link ih hentered' hlink'

theorem Walked.reaches (h : Walked nodes entry w stack) (hid : id ∈ w.reached) :
    Reaches nodes 0 entry id :=
  (h.hung id hid).reaches

/-- With an empty stack, nothing that links lead to is missing. -/
theorem Walked.complete (h : Walked nodes entry w []) (hr : Reaches nodes 0 entry id) : id ∈ w.reached := by
  induction hr with
  | refl => exact h.root
  | tail _ hlink ih => exact h.closed _ ih List.not_mem_nil _ hlink

/-- A walk begins. -/
theorem walked_mark (hentry : entry ∈ nodes) : Walked nodes entry (Walk.empty.mark entry) [entry] := by
  have hmem : ∀ id, id ∈ (Walk.empty.mark entry).reached ↔ entry = id := by
    intro id
    unfold Walk.mark Walk.empty
    rw [mem_insert_id]
    simp
  refine ⟨?_, ?_, (hmem entry).mpr rfl, ?_, ?_, ?_⟩
  · intro id hid
    exact (hmem id).mp hid ▸ hentry
  · intro id hid
    exact (hmem id).mp hid ▸ .root
  · intro id source hid
    simp [Walk.mark, Walk.empty] at hid
  · intro id hid
    exact (hmem id).mpr (List.mem_singleton.mp hid).symm
  · intro id hid hout
    exact absurd (List.mem_singleton.mpr ((hmem id).mp hid).symm) hout

/-- A new node is entered through a link of a reached one, and put on the stack. -/
theorem Walked.enter (h : Walked nodes entry w stack) {source target : ItemId}
    (hsource : source ∈ w.reached) (hnew : target ∉ w.reached) (hlink : Follows nodes 0 source target) :
    Walked nodes entry (w.enter source target) (target :: stack) := by
  have hne : target ≠ entry := fun heq => hnew (heq ▸ h.root)
  have hmem : ∀ id, id ∈ (w.enter source target).reached ↔ target = id ∨ id ∈ w.reached :=
    fun _ => mem_insert_id
  have hentered : ∀ id, (w.enter source target).enteredFrom[id]? =
      if target = id then some source else w.enteredFrom[id]? := fun id => getElem?_insert_id _ _ id _
  -- no node of the tree is entered anew, so the tree stands
  have hkept : ∀ id, Hung nodes w.enteredFrom entry id →
      Hung nodes (w.enter source target).enteredFrom entry id := by
    intro id hid
    refine hid.imp fun s t ht hl => ⟨?_, hl⟩
    rw [hentered, if_neg, ht]
    rintro rfl
    exact hnew (h.entered _ s ht).1
  refine ⟨?_, ?_, (hmem entry).mpr (Or.inr h.root), ?_, ?_, ?_⟩
  · intro id hid
    rcases (hmem id).mp hid with rfl | hid
    · exact hlink.2
    · exact h.live id hid
  · intro id hid
    rcases (hmem id).mp hid with rfl | hid
    · exact .link (hkept source (h.hung source hsource)) (by rw [hentered, if_pos rfl]) hlink
    · exact hkept id (h.hung id hid)
  · intro id s hid
    rw [hentered] at hid
    by_cases heq : target = id
    · exact ⟨(hmem id).mpr (Or.inl heq), heq ▸ hne⟩
    · rw [if_neg heq] at hid
      exact ⟨(hmem id).mpr (Or.inr (h.entered id s hid).1), (h.entered id s hid).2⟩
  · intro id hid
    rcases List.mem_cons.mp hid with rfl | hid
    · exact (hmem id).mpr (Or.inl rfl)
    · exact (hmem id).mpr (Or.inr (h.onStack id hid))
  · -- the new node is on the stack, so nothing is asked of its links yet
    intro id hid hout t ht
    rw [List.mem_cons, not_or] at hout
    rcases (hmem id).mp hid with rfl | hid
    · exact absurd rfl hout.1
    · exact (hmem t).mpr (Or.inr (h.closed id hid hout.2 t ht))

end Tree

/-! ## One node -/

namespace Draft

variable {d : Draft} {nodes : IdMap Node} {entry source : ItemId} {w : Walk} {stack : List ItemId}

/-- Following some links of `source` reaches their live targets. -/
theorem enterAll_walked (h : d.graph.Shows nodes) {node : Node} (hnode : nodes[source]? = some node)
    (targets : List ItemId) (hlinks : ∀ t ∈ targets, t ∈ node.linksAt 0)
    (hw : Walked nodes entry w (source :: stack)) :
    Walked nodes entry (d.enterAll source w stack targets).1
        (source :: (d.enterAll source w stack targets).2) ∧
      (∀ id ∈ w.reached, id ∈ (d.enterAll source w stack targets).1.reached) ∧
      ∀ t ∈ targets, t ∈ nodes → t ∈ (d.enterAll source w stack targets).1.reached := by
  induction targets generalizing w stack with
  | nil => exact ⟨hw, fun _ hid => hid, fun t ht => absurd ht List.not_mem_nil⟩
  | cons target targets ih =>
      have hrest := fun t ht => hlinks t (List.mem_cons_of_mem target ht)
      unfold enterAll
      by_cases hskip : (w.reached.contains target || !d.contains target) = true
      · -- reached before, or gone
        rw [if_pos hskip]
        obtain ⟨hw', hmono, hall⟩ := ih hrest hw
        refine ⟨hw', hmono, fun t ht hlive => ?_⟩
        rcases List.mem_cons.mp ht with rfl | ht
        · rw [Bool.or_eq_true, (contains_eq h t).mpr hlive, Bool.not_true] at hskip
          exact hmono t (Std.ExtTreeSet.mem_iff_contains.mpr (hskip.resolve_right Bool.false_ne_true))
        · exact hall t ht hlive
      · rw [if_neg hskip]
        rw [Bool.or_eq_true, not_or, Bool.not_eq_true', Bool.not_eq_false, contains_eq h] at hskip
        have hnew : target ∉ w.reached := fun hc => hskip.1 (Std.ExtTreeSet.mem_iff_contains.mp hc)
        have hlink : Follows nodes 0 source target :=
          ⟨⟨node, hnode, hlinks target List.mem_cons_self⟩, hskip.2⟩
        have hentered := hw.enter (hw.onStack source List.mem_cons_self) hnew hlink
        -- the new node goes on top of the stack, below the node under expansion
        have hswap : Walked nodes entry (w.enter source target) (source :: target :: stack) :=
          { hentered with
            onStack := fun id hid => hentered.onStack id ((List.Perm.swap target source stack).mem_iff.mp hid)
            closed := fun id hid hout => hentered.closed id hid fun hc =>
              hout ((List.Perm.swap target source stack).mem_iff.mpr hc) }
        obtain ⟨hw', hmono, hall⟩ := ih hrest hswap
        refine ⟨hw', fun id hid => hmono id (mem_insert_id.mpr (Or.inr hid)), fun t ht hlive => ?_⟩
        rcases List.mem_cons.mp ht with rfl | ht
        · exact hmono t (mem_insert_id.mpr (Or.inl rfl))
        · exact hall t ht hlive

/-! ## The walk -/

/-- **The walk goes through, and at its end the stack is empty.** -/
theorem follow_walked (h : d.graph.Shows nodes) (w : Walk) (stack : List ItemId)
    (hw : Walked nodes entry w stack) :
    ∃ w', d.follow w stack = .ok w' ∧ Walked nodes entry w' [] ∧ ∀ id ∈ w.reached, id ∈ w'.reached := by
  -- each step reaches an item or shortens the stack; there are only so many ids
  induction hn : w.reached.room + stack.length using Nat.strongRecOn generalizing w stack with
  | ind n ih =>
      subst hn
      cases stack with
      | nil => exact ⟨w, by rw [follow], hw, fun _ hid => hid⟩
      | cons id rest =>
          obtain ⟨node, hnode⟩ := mem_iff_exists.mp (hw.live id (hw.onStack id List.mem_cons_self))
          obtain ⟨hnext, hmono, hall⟩ :=
            enterAll_walked h hnode (node.linksAt 0) (fun _ ht => ht) hw
          -- the links of `id` are all followed, so it leaves the stack
          have hdone : Walked nodes entry (d.enterAll id w rest (node.linksAt 0)).1
              (d.enterAll id w rest (node.linksAt 0)).2 := by
            refine { hnext with
              onStack := fun a ha => hnext.onStack a (List.mem_cons_of_mem id ha)
              closed := ?_ }
            intro a ha hout t ht
            by_cases heq : a = id
            · subst heq
              obtain ⟨⟨node', hnode', hlink⟩, hlive⟩ := ht
              obtain rfl := Option.some.inj (hnode.symm.trans hnode')
              exact hall t hlink hlive
            · exact hnext.closed a ha (fun hc => (List.mem_cons.mp hc).elim heq hout) t ht
          have hlt : (d.enterAll id w rest (node.linksAt 0)).1.reached.room +
              (d.enterAll id w rest (node.linksAt 0)).2.length < w.reached.room + (id :: rest).length := by
            have hle := enterAll_remaining_le d id w rest (node.linksAt 0)
            simp only [List.length_cons]
            omega
          obtain ⟨w', hfollow, hw', hmono'⟩ := ih _ hlt _ _ hdone rfl
          refine ⟨w', ?_, hw', fun a ha => hmono' a (hmono a ha)⟩
          rw [follow, show d.node id = .ok (some node) from hnode ▸ h id]
          exact hfollow

end Draft

end VectorIndex
