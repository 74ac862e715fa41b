import VectorIndex.Proofs.Runs

/-!
# `VectorIndex.Proofs.Promotion` — which item becomes the entry point

When the entry point is deleted, a scan of the live nodes picks the next one. It keeps a best item while it goes
through the nodes that the draft touched, in whatever order, and then through the rows that count. Precedence is a
linear order of items with their levels, so what the scan ends with depends on the live nodes alone
(`Draft.promotedIn_eq`): not on the order, nor on which of them have rows. No repair changes the description
afterwards (`Edit.delete_ensures_head`).

## Contents
- **Any order.** `Draft.foldl_higher_congr`, `Draft.promotedIn`, `Edit.deleteIn` and what they are equal to.
- **The description.** `Edit.delete_ensures_head`, `Topmost`, `Draft.Sound.promoted`.
- **Runs.** `run_delete_promotes`.
-/

namespace VectorIndex

/-! ## Any order -/

namespace Draft

/-- The scan depends on what it comes by only. -/
theorem foldl_higher_congr {entries entries' : List (ItemId × Nat)} (h : ∀ e, e ∈ entries ↔ e ∈ entries') :
    entries.foldl higher none = entries'.foldl higher none := by
  refine Option.ext fun top => ?_
  simp only [foldl_higher_eq_some_iff, h]

/-- The live items with their levels, the touched ones in the order in which `visit` lists them. -/
def levelsIn (visit : IdMap Node → List (ItemId × Node)) (d : Draft) : Except Error (List (ItemId × Nat)) := do
  let stored ← storedLevels d.untouchedRows
  return (visit d.touched).map (fun (id, node) => (id, node.level)) ++ stored

/-- The promotion of an entry point when the touched nodes are visited in the order of `visit`. -/
def promotedIn (visit : IdMap Node → List (ItemId × Node)) (d : Draft) : Except Error Draft := do
  match (← d.levelsIn visit).foldl higher none with
  | some (id, level) => return d.withEntry (some id) level
  | none => return d.withEntry none 0

/-- An order of visiting the touched nodes: each of them once. -/
def Visits (visit : IdMap Node → List (ItemId × Node)) : Prop :=
  ∀ nodes, (visit nodes).Perm nodes.toList

/-- **The order does not matter.** -/
theorem promotedIn_eq {visit : IdMap Node → List (ItemId × Node)} (hvisit : Visits visit) (d : Draft) :
    d.promotedIn visit = d.promoted := by
  unfold promotedIn promoted levelsIn levels
  cases storedLevels d.untouchedRows with
  | error e => rfl
  | ok stored =>
      have hperm := ((hvisit d.touched).map fun (id, node) => (id, node.level)).append_right stored
      have hbest := foldl_higher_congr fun e => hperm.mem_iff
      simp only [ok_bind, pure_bind]
      exact hbest ▸ rfl

end Draft

/-- A deletion in which a promotion visits the touched nodes in the order of `visit`. -/
def Edit.deleteIn (visit : IdMap Node → List (ItemId × Node)) (id : ItemId) : Edit Unit := do
  match ← reading fun d => d.node id with
  | none => throw (.itemNotFound id)
  | some removed =>
      let backlinks ← reading Draft.currentBacklinks
      modify fun d => d.remove id removed backlinks
      if (← get).head.size = 0 then modify fun d => d.withEntry none 0
      else
        if (← get).head.entryPoint = some id then updating (Draft.promotedIn visit)
        (List.range (removed.level + 1)).reverse.forM fun layer =>
          repairAll (backlinks.sources layer id) id removed layer

theorem Edit.deleteIn_eq {visit : IdMap Node → List (ItemId × Node)} (hvisit : Draft.Visits visit) (id : ItemId) :
    deleteIn visit id = delete id := by
  have hpromoted : Draft.promotedIn visit = Draft.promoted := funext (Draft.promotedIn_eq hvisit)
  unfold deleteIn
  rw [hpromoted]
  rfl

/-! ## The description -/

/-- `e` is on the highest layer of all, and of the items there the one with the lowest id. -/
def Topmost (nodes : IdMap Node) (e : ItemId) (level : Nat) : Prop :=
  (∃ node, nodes[e]? = some node ∧ node.level = level) ∧
    ∀ (other : ItemId) (n : Node), nodes[other]? = some n → n.level < level ∨ n.level = level ∧ e ≤ other

section Description

variable {d d₁ : Draft} {nodes nodes' : IdMap Node} {id e : ItemId} {level : Nat}

/-- Linking does not change which item that is. -/
theorem Topmost.of_frames (hf : frames nodes' = frames nodes) (h : Topmost nodes e level) :
    Topmost nodes' e level := by
  obtain ⟨⟨node, hnode, hlevel⟩, hfirst⟩ := h
  obtain ⟨node', hnode', hframe⟩ := exists_of_frames hf.symm hnode
  refine ⟨⟨node', hnode', by rw [← level_eq_of_frame hframe]; exact hlevel⟩, fun other n' hn' => ?_⟩
  obtain ⟨n, hn, hframe'⟩ := exists_of_frames hf hn'
  rw [level_eq_of_frame hframe']
  exact hfirst other n hn

/-- The description does not change while links are repaired. -/
theorem Edit.delete_ensures_head (d : Draft) (id : ItemId) :
    (delete id).Ensures d fun _ d' => ∃ d₁, d.Unrepaired id d₁ ∧ d'.head = d₁.head := by
  have hkept : Draft.KeptByLinks fun d' => ∃ d₁, d.Unrepaired id d₁ ∧ d'.head = d₁.head :=
    fun _ _ _ _ _ h => h
  exact hkept.delete fun d₁ hd₁ => ⟨d₁, hd₁, rfl⟩

/-- The entry point that a promotion finds is the topmost item left. -/
theorem Draft.Sound.promoted (h : d.Sound nodes) (hid : id ∈ nodes) {removed : Node} {b : Backlinks}
    (hsize : (d.remove id removed b).head.size ≠ 0) (hpromoted : (d.remove id removed b).promoted = .ok d₁) :
    ∃ e, d₁.head.entryPoint = some e ∧ Topmost (nodes.erase id) e d₁.head.topLevel.toNat := by
  have hne : nodes.erase id ≠ ∅ := mt (h.remove_size_eq_zero hid removed b).mpr hsize
  obtain ⟨e, node, heq, hnode, hfirst⟩ := Draft.promoted_eq (h.holds.shows.remove id removed b) hne
  obtain rfl := Except.ok.inj (heq.symm.trans hpromoted)
  refine ⟨e, rfl, ?_⟩
  have htop : ((d.remove id removed b).withEntry (some e) node.level).head.topLevel.toNat = node.level :=
    h.toNat_level (h.level_lt (getElem?_of_erase hnode))
  rw [htop]
  exact ⟨⟨node, hnode, rfl⟩, hfirst⟩

/-- Where the repairs start, the entry point is the topmost item left if it had to move, and else the same. -/
theorem Draft.Sound.unrepaired (h : d.Sound nodes) (hid : id ∈ nodes) (hd₁ : d.Unrepaired id d₁)
    (hsize : d₁.head.size ≠ 0) :
    (d.head.entryPoint = some id →
      ∃ e, d₁.head.entryPoint = some e ∧ Topmost (nodes.erase id) e d₁.head.topLevel.toNat) ∧
    (d.head.entryPoint ≠ some id →
      d₁.head.entryPoint = d.head.entryPoint ∧ d₁.head.topLevel = d.head.topLevel) := by
  cases hd₁ with
  | last hlast => exact absurd hlast hsize
  | entry hleft hentry hpromoted => exact ⟨fun _ => h.promoted hid hleft hpromoted, absurd hentry⟩
  | other _ hother => exact ⟨fun hentry => absurd hentry hother, fun _ => ⟨rfl, rfl⟩⟩

end Description

/-! ## Runs -/

section Results

variable {distances : Metric → Ranking} {steps : List Step} {s : Session}

/-- **Which item becomes the entry point.** After every run, however the live items of a writer are spread over
    touched nodes and rows, and in whatever order a promotion visits the touched nodes: if the writer deletes `id`
    and an item is left, the live items are those that are left. If `id` was the entry point, the new one is the
    item of the highest level, with the lowest id among equals, and the top level is its level. If not, entry point
    and top level are the same as before. -/
theorem run_delete_promotes (hrun : World.run distances steps = .opened s) {handle : Handle} {w : Writer}
    (hw : s.writers[handle]? = some w) {visit : IdMap Node → List (ItemId × Node)} (hvisit : Draft.Visits visit) :
    ∃ nodes : IdMap Node, (∀ other, w.draft.node other = .ok nodes[other]?) ∧
      ∀ id w', w.run (Edit.deleteIn visit id) = (.ok (), w') → w'.draft.head.size ≠ 0 →
        w.run (Change.delete id).edit = (.ok (), w') ∧
        ∃ nodes' : IdMap Node, (∀ other, w'.draft.node other = .ok nodes'[other]?) ∧
          (∀ other, other ∈ nodes' ↔ id ≠ other ∧ other ∈ nodes) ∧
          (w.draft.head.entryPoint = some id →
            ∃ e, w'.draft.head.entryPoint = some e ∧ Topmost nodes' e w'.draft.head.topLevel.toNat) ∧
          (w.draft.head.entryPoint ≠ some id →
            w'.draft.head.entryPoint = w.draft.head.entryPoint ∧
            w'.draft.head.topLevel = w.draft.head.topLevel) := by
  obtain ⟨nodes, h, _⟩ := ((Session.Sound.of_run hrun).writers handle w hw).sound
  refine ⟨nodes, h.holds.shows, ?_⟩
  intro id w' hdelete hsize
  rw [Edit.deleteIn_eq hvisit] at hdelete
  have hon := Writer.run_eq_ok hdelete
  have hid := h.mem_of_deleteItem hon
  obtain ⟨removed, hnode⟩ := mem_iff_exists.mp hid
  obtain ⟨_, nodes', h', _, hrel, _⟩ := (Edit.delete_yields h hnode).ensures () w'.draft hon
  obtain ⟨d₁, hd₁, hhead⟩ := Edit.delete_ensures_head w.draft id () w'.draft hon
  rw [hhead] at hsize ⊢
  obtain ⟨hentry, hother⟩ := h.unrepaired hid hd₁ hsize
  refine ⟨hdelete, nodes', h'.holds.shows, fun other => ?_, fun he => ?_, hother⟩
  · exact (mem_iff_of_frames hrel.frames).trans mem_erase_key
  · obtain ⟨e, hnew, htop⟩ := hentry he
    exact ⟨e, hnew, htop.of_frames hrel.frames⟩

/-- The touched nodes from the greatest id down. -/
def descending (nodes : IdMap Node) : List (ItemId × Node) := nodes.toList.reverse

theorem visits_descending : Draft.Visits descending := fun nodes => nodes.toList.reverse_perm

/-- Item 2 has a row and was changed since, item 3 has none yet; both are on the base layer only. -/
theorem threeItems_deletes : ((World.run Metric.rank threeItems).session.any fun s =>
    s.writers[(1 : Handle)]?.any fun w => w.draft.head.entryPoint == some 1 &&
      (w.draft.stored.contains 2 && w.draft.touched.contains 2 && !w.draft.stored.contains 3) &&
      (w.run (Edit.deleteIn descending 1)).1.toOption.isSome &&
      (w.run (Edit.deleteIn descending 1)).2.draft.head.size == 2 &&
      (w.run (Edit.deleteIn descending 1)).2.draft.head.entryPoint == some 2) = true := by
  decide +kernel

theorem run_delete_promotes_threeItems : ∃ (s : Session) (w w' : Writer) (nodes' : IdMap Node),
    World.run Metric.rank threeItems = .opened s ∧ s.writers[(1 : Handle)]? = some w ∧
      (w.draft.stored.contains 2 && w.draft.touched.contains 2 && !w.draft.stored.contains 3) = true ∧
      w.draft.head.entryPoint = some 1 ∧ w.run (Edit.deleteIn descending 1) = (.ok (), w') ∧
      w'.draft.head.entryPoint = some 2 ∧ Topmost nodes' 2 w'.draft.head.topLevel.toNat := by
  obtain ⟨s, hs, hshows⟩ := (Option.any_eq_true _ _).mp threeItems_deletes
  obtain ⟨w, hw, hshows⟩ := (Option.any_eq_true _ _).mp hshows
  obtain ⟨hshows, hnew⟩ := Bool.and_eq_true_iff.mp hshows
  obtain ⟨hshows, hsize⟩ := Bool.and_eq_true_iff.mp hshows
  obtain ⟨hshows, hdelete⟩ := Bool.and_eq_true_iff.mp hshows
  obtain ⟨hentry, hplaces⟩ := Bool.and_eq_true_iff.mp hshows
  have hrun := World.session_eq_some.mp hs
  have hleft : (w.run (Edit.deleteIn descending 1)).2.draft.head.size ≠ 0 := by
    rw [eq_of_beq hsize]
    decide
  obtain ⟨_, _, hdeletes⟩ := run_delete_promotes hrun hw visits_descending
  obtain ⟨_, nodes', _, _, hmoved, _⟩ := hdeletes 1 _ (eq_ok_of_isSome hdelete) hleft
  obtain ⟨e, he, htop⟩ := hmoved (eq_of_beq hentry)
  obtain rfl := Option.some.inj (he.symm.trans (eq_of_beq hnew))
  exact ⟨s, w, _, nodes', hrun, hw, hplaces, eq_of_beq hentry, eq_ok_of_isSome hdelete, he, htop⟩

end Results

end VectorIndex
