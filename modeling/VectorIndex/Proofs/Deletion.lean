import VectorIndex.Proofs.LiveScan
import VectorIndex.Proofs.WellFormed

/-!
# `VectorIndex.Proofs.Deletion` — a deletion leaves no dangling link

When a node is removed, the links to it stay where they are, and the repair loops take them away one list at a
time. The invariant of both loops is `Draft.Holds` with the lists still to come as the loose ones: it starts
with the sources that the backlinks name, and it ends tight. The entry point is moved before the first repair,
so every repair finds a description that fits the nodes (`Headed`).

A repair leaves a list without links only where it finds nothing to link to (`Stranded`): no other link, no other
neighbour of the removed node, and a descent from the entry point that comes to the node itself. A list with a live
link keeps one through all repairs, so this can be read off the nodes as they were before the first.

## Contents
- **Removal.** `Draft.Holds.remove`, `Draft.Removes`.
- **Entry point.** `Draft.Outranks`, `Draft.promoted_eq`, and `Draft.Sound.headed_remove_last`, `…_entry`, `…_other`.
- **Repair.** `Stranded`, `Draft.Holds.near`, `Draft.Holds.distantSeeds`, `Draft.Holds.repairPlan`,
  `Edit.repair_yields`.
- **The deletion.** `Edit.repairAll_yields`, `Edit.repairSources_yields`, `Edit.delete_yields`.
- **A deletion that goes through.** `Draft.Unrepaired`, where the repairs start, and `Draft.KeptByLinks.delete`, the
  rule for what they keep.
-/

namespace VectorIndex

/-! ## Removal -/

/-- `d'` is `d` without the item `id`, whatever its entry point is. -/
def Draft.Removes (d : Draft) (id : ItemId) (d' : Draft) : Prop :=
  ∃ node backlinks entryPoint level, d' = (d.remove id node backlinks).withEntry entryPoint level

section Removal

variable {d : Draft} {nodes : IdMap Node} {id : ItemId} {removed : Node} {b : Backlinks}

theorem Draft.withEntry_self (d : Draft) : d.withEntry d.head.entryPoint d.head.topLevel.toNat = d := by
  simp [Draft.withEntry, Metadata.withEntry]

theorem Graph.Shows.remove (h : d.graph.Shows nodes) (id : ItemId) (removed : Node) (b : Backlinks) :
    (d.remove id removed b).graph.Shows (nodes.erase id) := by
  intro other
  have hother : d.node other = .ok nodes[other]? := h other
  show (d.remove id removed b).node other = _
  rw [Draft.node_remove, getElem?_erase_id, hother]
  split <;> rfl

/-- A node goes, and the lists of those who linked to it become loose. -/
theorem Draft.Holds.remove (h : d.Holds tight nodes) (hnode : nodes[id]? = some removed)
    (hb : b.Mirrors nodes) :
    (d.remove id removed b).Holds (fun l a => a ∈ b.sources l id) (nodes.erase id) := by
  refine ⟨h.shows.remove id removed b, ⟨?_, ?_⟩, ?_⟩
  · intro a node ha
    exact h.wired.fits a node (getElem?_of_erase ha)
  · intro a node l ha
    have ha' := getElem?_of_erase ha
    have hlive : ∀ t ∈ node.linksAt l, OnLayer nodes l t := fun t ht => h.wired.target ha' ht
    refine { h.wired.links a node l ha' with
      onLayer := fun t ht hkept => (hlive t ht).erase (mem_erase_key.mp hkept).1
      resolves := fun t ht hgone => ?_ }
    -- the only item that is gone is `id`, and the backlinks name all nodes that link to it
    have heq : id = t := by
      by_cases heq : id = t
      · exact heq
      · exact absurd (mem_erase_key.mpr ⟨heq, (hlive t ht).mem⟩) hgone
    subst heq
    exact Std.ExtTreeSet.mem_toList.mpr ((hb l a id).mpr ⟨⟨node, ha', ht⟩, (hlive id ht).mem⟩)
  · intro b' hb'
    obtain rfl := Option.some.inj hb'
    exact hb.eraseNode hnode

end Removal

/-! ## Entry point -/

namespace Draft

variable {d : Draft} {nodes : IdMap Node} {id : ItemId} {removed : Node} {b : Backlinks}

/-- The item with its level takes precedence: the level is higher, or it is the same and the id is not greater. -/
def Outranks (a b : ItemId × Nat) : Prop := b.2 < a.2 ∨ b.2 = a.2 ∧ a.1 ≤ b.1

section Outranks

variable {a b c : ItemId × Nat}

theorem Outranks.refl (a : ItemId × Nat) : Outranks a a := Or.inr ⟨rfl, UInt32.le_refl a.1⟩

theorem Outranks.level_le (h : Outranks a b) : b.2 ≤ a.2 := h.elim Nat.le_of_lt fun h => Nat.le_of_eq h.1

theorem Outranks.trans (h : Outranks a b) (h' : Outranks b c) : Outranks a c := by
  rcases h with hlt | ⟨heq, hid⟩
  · exact Or.inl (Nat.lt_of_le_of_lt h'.level_le hlt)
  · rcases h' with hlt' | ⟨heq', hid'⟩
    · exact Or.inl (heq ▸ hlt')
    · exact Or.inr ⟨heq'.trans heq, UInt32.le_trans hid hid'⟩

/-- No two take precedence over each other. -/
theorem Outranks.antisymm (h : Outranks a b) (h' : Outranks b a) : a = b := by
  have hlevel : a.2 = b.2 := Nat.le_antisymm h'.level_le h.level_le
  have hid := (h.resolve_left (by omega)).2
  have hid' := (h'.resolve_left (by omega)).2
  exact Prod.ext (UInt32.le_antisymm hid hid') hlevel

end Outranks

/-- The higher of two is one of them, and takes precedence over both. -/
theorem higher_some (best entry : ItemId × Nat) :
    ∃ top, higher (some best) entry = some top ∧ (top = best ∨ top = entry) ∧
      Outranks top best ∧ Outranks top entry := by
  by_cases hkept : (entry.2 < best.2 || entry.2 == best.2 && best.1 < entry.1) = true
  · refine ⟨best, by unfold higher; simp only [if_pos hkept], Or.inl rfl, .refl best, ?_⟩
    simp only [Bool.or_eq_true, Bool.and_eq_true, decide_eq_true_eq, beq_iff_eq] at hkept
    exact hkept.imp_right (And.imp_right UInt32.le_of_lt)
  · refine ⟨entry, by unfold higher; simp only [if_neg hkept], Or.inr rfl, ?_, .refl entry⟩
    simp only [Bool.or_eq_true, Bool.and_eq_true, decide_eq_true_eq, beq_iff_eq, not_or, not_and] at hkept
    rcases Nat.lt_or_eq_of_le (Nat.le_of_not_lt hkept.1) with hlt | heq
    · exact Or.inl hlt
    · exact Or.inr ⟨heq, UInt32.not_lt.mp (hkept.2 heq.symm)⟩

/-- The fold ends at an entry that takes precedence over all of them. -/
theorem foldl_higher (entries : List (ItemId × Nat)) (best : ItemId × Nat) :
    ∃ top, entries.foldl higher (some best) = some top ∧ top ∈ best :: entries ∧
      ∀ e ∈ best :: entries, Outranks top e := by
  induction entries generalizing best with
  | nil => exact ⟨best, rfl, List.mem_cons_self, fun e he => List.mem_singleton.mp he ▸ .refl best⟩
  | cons entry entries ih =>
      -- `mid` stands for both entries from here on
      obtain ⟨mid, hmid, hcases, hbest, hentry⟩ := higher_some best entry
      obtain ⟨top, htop, hmem, hfirst⟩ := ih mid
      have hmidle := hfirst mid List.mem_cons_self
      refine ⟨top, by rw [List.foldl_cons, hmid, htop], ?_, fun e he => ?_⟩
      · rcases List.mem_cons.mp hmem with rfl | hmem
        · rcases hcases with rfl | rfl <;> simp
        · exact List.mem_cons_of_mem _ (List.mem_cons_of_mem _ hmem)
      · rcases List.mem_cons.mp he with rfl | he
        · exact hmidle.trans hbest
        · rcases List.mem_cons.mp he with rfl | he
          · exact hmidle.trans hentry
          · exact hfirst e (List.mem_cons_of_mem _ he)

/-- **The fold picks the entry that takes precedence over all.** -/
theorem foldl_higher_eq_some_iff {entries : List (ItemId × Nat)} {top : ItemId × Nat} :
    entries.foldl higher none = some top ↔ top ∈ entries ∧ ∀ e ∈ entries, Outranks top e := by
  cases entries with
  | nil => simp
  | cons entry entries =>
      rw [List.foldl_cons, show higher none entry = some entry from rfl]
      obtain ⟨found, hfound, hmem, hfirst⟩ := foldl_higher entries entry
      rw [hfound, Option.some.injEq]
      constructor
      · rintro rfl
        exact ⟨hmem, hfirst⟩
      · rintro ⟨htop, hall⟩
        exact (hfirst top htop).antisymm (hall found hmem)

/-- The entry point moves to the live node of the highest level, and among these to the one with the lowest id. -/
theorem promoted_eq (h : d.graph.Shows nodes) (hne : nodes ≠ ∅) :
    ∃ (e : ItemId) (node : Node), d.promoted = .ok (d.withEntry (some e) node.level) ∧ nodes[e]? = some node ∧
      ∀ (other : ItemId) (n : Node), nodes[other]? = some n → Outranks (e, node.level) (other, n.level) := by
  obtain ⟨levels, hlevels, hmem⟩ := levels_eq h
  unfold promoted
  rw [hlevels, ok_bind]
  cases hfold : levels.foldl higher none with
  | none =>
      -- an index with a node has a level
      refine absurd (Std.ExtTreeMap.ext_getElem? fun {other} => ?_) hne
      rw [Std.ExtTreeMap.getElem?_empty, ← not_mem_iff, mem_iff_exists]
      rintro ⟨node, hnode⟩
      have hlevel := (hmem other node.level).mpr ⟨node, hnode, rfl⟩
      obtain ⟨entry, entries, rfl⟩ := List.exists_cons_of_ne_nil (List.ne_nil_of_mem hlevel)
      obtain ⟨top, htop, _⟩ := foldl_higher entries entry
      cases htop.symm.trans hfold
  | some top =>
      obtain ⟨htop, hfirst⟩ := foldl_higher_eq_some_iff.mp hfold
      obtain ⟨node, hnode, hlevel⟩ := (hmem top.1 top.2).mp htop
      refine ⟨top.1, node, ?_, hnode, fun other n hn => ?_⟩
      · rw [hlevel]
        rfl
      · rw [hlevel]
        exact hfirst (other, n.level) ((hmem other n.level).mpr ⟨n, hn, rfl⟩)

theorem size_sub_one {size : UInt64} (hsize : size.toNat = nodes.size) (hid : id ∈ nodes) :
    (size - 1).toNat = (nodes.erase id).size := by
  have hpos : 1 ≤ nodes.size := by
    rw [Nat.one_le_iff_ne_zero, Ne, ← Std.ExtTreeMap.eq_empty_iff_size_eq_zero]
    rintro rfl
    exact Std.ExtTreeMap.not_mem_empty hid
  have hcontains : nodes.contains id = true := Std.ExtTreeMap.mem_iff_contains.mp hid
  have hlt := size.toNat_lt
  rw [Std.ExtTreeMap.size_erase, if_pos hcontains, UInt64.toNat_sub_of_le, hsize]
  · rfl
  · rw [UInt64.le_iff_toNat_le, hsize]
    exact hpos

/-! Before the first repair the description fits the nodes again, in one of three ways. -/

theorem Sound.size_remove (h : d.Sound nodes) (hid : id ∈ nodes) (removed : Node) (b : Backlinks) :
    (d.remove id removed b).head.size.toNat = (nodes.erase id).size :=
  size_sub_one h.headed.size hid

theorem Sound.remove_size_eq_zero (h : d.Sound nodes) (hid : id ∈ nodes) (removed : Node) (b : Backlinks) :
    (d.remove id removed b).head.size = 0 ↔ nodes.erase id = ∅ := by
  rw [Std.ExtTreeMap.eq_empty_iff_size_eq_zero, ← h.size_remove hid removed b, ← UInt64.toNat_inj]
  rfl

/-- The last item was removed. -/
theorem Sound.headed_remove_last (h : d.Sound nodes) (hid : id ∈ nodes) (removed : Node) (b : Backlinks)
    (hsize : (d.remove id removed b).head.size = 0) :
    Headed ((d.remove id removed b).withEntry none 0).head (nodes.erase id) := by
  rw [(h.remove_size_eq_zero hid removed b).mp hsize]
  exact headed_empty hsize rfl

/-- The entry point was removed, and a node of the highest level takes its place. -/
theorem Sound.headed_remove_entry (h : d.Sound nodes) (hid : id ∈ nodes) (removed : Node) (b : Backlinks)
    {e : ItemId} {node : Node} (hnode : (nodes.erase id)[e]? = some node)
    (hle : ∀ (other : ItemId) (n : Node), (nodes.erase id)[other]? = some n → n.level ≤ node.level) :
    Headed ((d.remove id removed b).withEntry (some e) node.level).head (nodes.erase id) := by
  have hlevel := h.level_lt (getElem?_of_erase hnode)
  exact headed_of_entry (h.size_remove hid removed b) rfl hnode (h.toNat_level hlevel).symm hle

/-- Another item was removed. -/
theorem Sound.headed_remove_other (h : d.Sound nodes) (hid : id ∈ nodes) (removed : Node) (b : Backlinks)
    (hother : d.head.entryPoint ≠ some id) : Headed (d.remove id removed b).head (nodes.erase id) := by
  cases hentry : d.head.entryPoint with
  | none =>
      rw [h.headed.entry_none.mp hentry] at hid
      exact absurd hid Std.ExtTreeMap.not_mem_empty
  | some e =>
      obtain ⟨node, hnode, hlevel⟩ := h.headed.entry_some e hentry
      have hne : id ≠ e := by
        rintro rfl
        exact hother hentry
      have hkept : (nodes.erase id)[e]? = some node := by
        rw [getElem?_erase_id, if_neg hne, hnode]
      refine headed_of_entry (h.size_remove hid removed b) hentry hkept hlevel fun other n hn => ?_
      rw [hlevel]
      exact h.headed.level_le other n (getElem?_of_erase hn)

end Draft

/-! ## Repair -/

section Repair

variable {d : Draft} {nodes : IdMap Node} {loose loose' : Nat → ItemId → Prop} {id gone : ItemId}
  {node removed : Node} {layer : Nat}

/-- A repair of `id` finds nothing to link to: no live link is left, the removed node had no other neighbour, and the
    item is the entry point or takes part in the layer above, where the descent may end at it. -/
structure Stranded (head : Metadata) (nodes : IdMap Node) (removed : Node) (layer : Nat) (id : ItemId) : Prop where
  alone : ¬Held nodes layer id
  siblings : ∀ t ∈ removed.linksAt layer, t ∈ nodes → t = id
  cornered : head.entryPoint = some id ∨ OnLayer nodes (layer + 1) id

/-- What strands a node later strands it now. -/
theorem Stranded.of_later {head : Metadata} {nodes' : IdMap Node} (h : Stranded head nodes' removed layer id)
    (hframes : frames nodes' = frames nodes) (hheld : Held nodes layer id → Held nodes' layer id) :
    Stranded head nodes removed layer id where
  alone hlinked := h.alone (hheld hlinked)
  siblings t ht hlive := h.siblings t ht ((mem_iff_of_frames hframes).mpr hlive)
  cornered := h.cornered.imp_right fun hon => hon.of_frames hframes.symm

/-- The distant seeds lie on the layer. They are other nodes, unless the node itself is where the descent ends. -/
theorem Draft.Holds.distantSeeds (h : d.Holds loose nodes) (hhead : Headed d.head nodes)
    (hnode : nodes[id]? = some node) (hlayer : layer ≤ d.head.topLevel.toNat) :
    ∃ seeds, d.distantSeeds id node layer = .ok seeds ∧ Entries d.rank nodes node.embedding layer seeds ∧
      ((∃ n ∈ seeds, n.id ≠ id) ∨ d.head.entryPoint = some id ∨ OnLayer nodes (layer + 1) id) := by
  unfold Draft.distantSeeds
  cases hentry : d.head.entryPoint with
  | none =>
      rw [hhead.entry_none.mp hentry] at hnode
      simp at hnode
  | some entry =>
      dsimp only
      by_cases hself : entry = id
      · refine ⟨[], by rw [if_pos hself]; rfl, fun n hn => absurd hn List.not_mem_nil, ?_⟩
        exact Or.inr (Or.inl (congrArg some hself))
      · obtain ⟨start, nearest, hscore, hdescend, hentries, hcame⟩ :=
          h.approach (hhead.onLayer hentry) node.embedding layer
        rw [if_neg hself, hscore, ok_bind]
        dsimp only
        rw [hdescend]
        refine ⟨[nearest], rfl, hentries layer (by omega), ?_⟩
        by_cases hnearest : nearest.id = id
        · rcases hcame with heq | ⟨l, source, hlt, _, hlink⟩
          · exact absurd (heq.symm.trans hnearest) hself
          · exact Or.inr (Or.inr (hnearest ▸ (h.layered l source nearest.id hlink).mono hlt))
        · exact Or.inl ⟨nearest, List.mem_singleton_self _, hnearest⟩

/-- Where the search for replacements starts: near the node if there is anything near, from afar otherwise. It starts at
    another node, unless nothing is near and the node itself is where the descent ends. -/
theorem Draft.Holds.seeds (h : d.Holds loose nodes) (hhead : Headed d.head nodes)
    (hnode : nodes[id]? = some node) (hlayer : layer ≤ d.head.topLevel.toNat) {near : List Neighbor}
    (hnear : Entries d.rank nodes node.embedding layer near) (hother : ∀ n ∈ near, n.id ≠ id) :
    ∃ seeds, (if near.isEmpty then d.distantSeeds id node layer else pure near) = .ok seeds ∧
      Entries d.rank nodes node.embedding layer seeds ∧
      ((∃ n ∈ seeds, n.id ≠ id) ∨
        near = [] ∧ (d.head.entryPoint = some id ∨ OnLayer nodes (layer + 1) id)) := by
  cases near with
  | nil =>
      obtain ⟨seeds, hseeds, hon, hends⟩ := h.distantSeeds hhead hnode hlayer
      exact ⟨seeds, hseeds, hon, hends.imp_right fun hcornered => ⟨rfl, hcornered⟩⟩
  | cons n near =>
      exact ⟨n :: near, rfl, hnear, Or.inl ⟨n, List.mem_cons_self, hother n List.mem_cons_self⟩⟩

/-- What is near a node: its own live neighbours and those of the removed node, all of them other nodes of the layer. -/
theorem Draft.Holds.near (h : d.Holds loose nodes) (hgone : gone ∉ nodes) (hnode : nodes[id]? = some node)
    (hsiblings : ∀ t ∈ removed.linksAt layer, t ∈ nodes → OnLayer nodes layer t) :
    ∃ remaining offered, d.graph.scoreAll node.embedding (node.linksAt layer) = .ok remaining ∧
      d.graph.scoreAll node.embedding ((removed.linksAt layer).filter fun n => n != id && n != gone) = .ok offered ∧
      Entries d.rank nodes node.embedding layer (remaining ++ offered) ∧ (∀ n ∈ remaining ++ offered, n.id ≠ id) ∧
      (remaining = [] → ¬Held nodes layer id) ∧
      (offered = [] → ∀ t ∈ removed.linksAt layer, t ∈ nodes → t = id) := by
  have hlist := h.wired.links id node layer hnode
  obtain ⟨remaining, hremain, hremaining, hremainingIds⟩ :=
    h.scoreAll node.embedding fun t ht => hlist.onLayer t ht
  have hkept : ∀ t, t ∈ (removed.linksAt layer).filter (fun n => n != id && n != gone) ↔
      t ∈ removed.linksAt layer ∧ t ≠ id ∧ t ≠ gone := by
    intro t
    rw [List.mem_filter, Bool.and_eq_true, bne_iff_ne, bne_iff_ne]
  obtain ⟨offered, hoffer, hoffered, hofferedIds⟩ :=
    h.scoreAll node.embedding fun t ht => hsiblings t ((hkept t).mp ht).1
  refine ⟨remaining, offered, hremain, hoffer, fun n hn => ?_, fun n hn => ?_, ?_, ?_⟩
  · exact (List.mem_append.mp hn).elim (hremaining n) (hoffered n)
  · rcases List.mem_append.mp hn with hn | hn
    · intro heq
      exact hlist.irrefl (heq ▸ ((hremainingIds n.id).mp (List.mem_map_of_mem hn)).1)
    · exact ((hkept n.id).mp ((hofferedIds n.id).mp (List.mem_map_of_mem hn)).1).2.1
  · rintro rfl ⟨t, ht, hlive⟩
    rw [linksOf_eq hnode] at ht
    exact List.not_mem_nil ((hremainingIds t).mpr ⟨ht, hlive⟩)
  · rintro rfl t ht hlive
    by_contra hne
    have hstays : t ≠ gone := fun heq => hgone (heq ▸ hlive)
    exact List.not_mem_nil ((hofferedIds t).mpr ⟨(hkept t).mpr ⟨ht, hne, hstays⟩, hlive⟩)

/-- What a plan proposes: a sound list of other nodes of the layer, empty only if the node is stranded. -/
theorem Draft.Holds.repairPlan (h : d.Holds loose nodes) (hhead : Headed d.head nodes)
    (hgone : gone ∉ nodes) (hcap : 0 < d.cap layer) (hnode : nodes[id]? = some node) (hlayer : layer ≤ node.level)
    (hsiblings : ∀ t ∈ removed.linksAt layer, t ∈ nodes → OnLayer nodes layer t) :
    ∃ r, d.repairPlan id gone removed layer = .ok (some r) ∧ r.node = node ∧
      (∀ P, LinkList d.head.params nodes P layer id (r.chosen.map Neighbor.id)) ∧
      (∀ n ∈ r.chosen, OnLayer nodes layer n.id ∧ n.id ≠ id) ∧
      (r.chosen = [] → Stranded d.head nodes removed layer id) := by
  have htop : layer ≤ d.head.topLevel.toNat := Nat.le_trans hlayer (hhead.level_le id node hnode)
  obtain ⟨remaining, offered, hremain, hoffer, hnear, hother, halone, hsibling⟩ := h.near hgone hnode hsiblings
  obtain ⟨seeds, hseed, hseeds, hends⟩ := h.seeds hhead hnode htop hnear hother
  obtain ⟨found, hfound, hfoundOn, _⟩ := h.beamSearch hseeds
  have hgiven : ∀ n ∈ ((found ++ seeds).filter fun n => n.id != id) ++ remaining,
      OnLayer nodes layer n.id ∧ n.id ≠ id := by
    intro n hn
    rcases List.mem_append.mp hn with hn | hn
    · obtain ⟨hmem, hne⟩ := List.mem_filter.mp hn
      refine ⟨?_, bne_iff_ne.mp hne⟩
      exact (List.mem_append.mp hmem).elim (fun hmem => (hfoundOn n hmem).2) fun hmem => (hseeds n hmem).2
    · have hn := List.mem_append_left offered hn
      exact ⟨(hnear n hn).2, hother n hn⟩
  obtain ⟨chosen, hchosen, hsound, hmem, hall⟩ := h.choose (P := False) hgiven
  refine ⟨⟨node, remaining, chosen⟩, ?_, rfl, fun P => hsound.imp False.elim,
    fun n hn => hgiven n (hmem n hn), ?_⟩
  · unfold Draft.repairPlan
    rw [show d.node id = .ok nodes[id]? from h.shows id, ok_bind, hnode]
    dsimp only
    rw [if_neg (Nat.not_lt_of_le hlayer), hremain, ok_bind, hoffer, ok_bind]
    split at hseed
    · rename_i hempty
      rw [if_pos hempty, hseed, ok_bind, hfound, ok_bind, hchosen]
      rfl
    · rename_i hempty
      rw [if_neg hempty, hseed, ok_bind, hfound, ok_bind, hchosen]
      rfl
  · -- a choice is empty only if it is given nothing, so no seed is another node, and nothing was near
    rintro rfl
    have hnothing : ∀ n ∈ seeds, n.id = id := by
      intro n hn
      by_contra hne
      have hkept : n ∈ (found ++ seeds).filter fun n => n.id != id :=
        List.mem_filter.mpr ⟨List.mem_append_right found hn, bne_iff_ne.mpr hne⟩
      rcases hall n (List.mem_append_left _ hkept) with hmem | hfull
      · exact absurd hmem List.not_mem_nil
      · exact absurd hfull (Nat.ne_of_lt hcap)
    obtain ⟨hnil, hcornered⟩ := hends.resolve_left fun ⟨n, hn, hne⟩ => hne (hnothing n hn)
    obtain ⟨hremaining, hoffered⟩ := List.append_eq_nil_iff.mp hnil
    exact ⟨halone hremaining, hsibling hoffered, hcornered⟩

/-- No plan is made for a node that is not on the layer. -/
theorem Draft.Holds.repairPlan_eq_none (h : d.Holds loose nodes) (gone : ItemId) (removed : Node)
    (hout : ¬OnLayer nodes layer id) : d.repairPlan id gone removed layer = .ok none := by
  unfold Draft.repairPlan
  rw [show d.node id = .ok nodes[id]? from h.shows id, ok_bind]
  cases hnode : nodes[id]? with
  | none => rfl
  | some node =>
      dsimp only
      rw [if_pos (Nat.lt_of_not_le fun hle => hout ⟨node, hnode, hle⟩)]
      rfl

/-- **One repair**: the list of the node is no longer loose. No list loses its last live link, and the node has one
    unless it is stranded. -/
theorem Edit.repair_yields (h : d.Holds loose nodes) (loose' : Nat → ItemId → Prop)
    (hhead : Headed d.head nodes) (hvalid : d.head.params.Valid) (hgone : gone ∉ nodes)
    (hsiblings : ∀ t ∈ removed.linksAt layer, t ∈ nodes → OnLayer nodes layer t)
    (hloose : ∀ l a, loose l a → loose' l a ∨ (l = layer ∧ a = id)) :
    (Edit.repair id gone removed layer).Yields d fun _ d' =>
      ∃ nodes', d'.Holds loose' nodes' ∧ Relinked d nodes d' nodes' ∧
        (∀ l a, Held nodes l a → Held nodes' l a) ∧
        (OnLayer nodes layer id → Held nodes' layer id ∨ Stranded d.head nodes removed layer id) := by
  unfold Edit.repair
  by_cases hon : OnLayer nodes layer id
  · have hlive := hon
    obtain ⟨node, hnode, hlayer⟩ := hlive
    obtain ⟨r, hplan, rfl, hlist, hchosen, hstranded⟩ :=
      h.repairPlan hhead hgone (hvalid.cap_pos layer) hnode hlayer hsiblings
    have hlt := ((h.wired.fits id r.node hnode).lt_length_iff).mpr hlayer
    have hlive : ∀ t ∈ r.chosen.map Neighbor.id, t ∈ nodes := by
      intro t ht
      obtain ⟨n, hn, rfl⟩ := List.mem_map.mp ht
      exact (hchosen n hn).1.mem
    obtain ⟨h₁, hrel₁⟩ := h.setLinks loose' hnode hlayer (hlist (loose' layer id)) (fun t ht => Or.inl (hlive t ht))
      hloose
    have hown : r.chosen.map Neighbor.id ≠ [] ∨ Stranded d.head nodes removed layer id := by
      by_cases hnil : r.chosen = []
      · exact Or.inr (hstranded hnil)
      · exact Or.inl (List.map_eq_nil_iff.not.mpr hnil)
    -- the new list holds a live link if the old one did
    have hheld₁ : ∀ l a, Held nodes l a →
        Held (nodes.insert id (r.node.setLinks layer (r.chosen.map Neighbor.id))) l a := by
      intro l a hheld
      rw [held_setLinks hnode hlt hlive]
      split
      · rename_i hself
        exact hown.resolve_right fun hstranded => hstranded.alone (hself.1 ▸ hself.2 ▸ hheld)
      · exact hheld
    have hadded : ∀ s ∈ r.added, s ≠ id := by
      intro s hs
      obtain ⟨n, hn, rfl⟩ := List.mem_map.mp (List.mem_filter.mp hs).1
      exact (hchosen n hn).2
    refine Edit.yields_bind (Edit.yields_reading hplan (Edit.yields_bind (Edit.yields_modify ?_)))
    -- the new neighbours link back; their lists were not loose, or stay so
    have hon₁ := hon.of_frames hrel₁.frames
    refine (Edit.connectAll_yields h₁ hon₁ hadded).imp ?_
    rintro _ d₂ ⟨nodes₂, h₂, hrel₂, hgained⟩
    have hheld₂ : ∀ l a, Held (nodes.insert id (r.node.setLinks layer (r.chosen.map Neighbor.id))) l a →
        Held nodes₂ l a := fun l a => hgained.held hrel₂.frames (hvalid.cap_pos layer) hon₁.mem
    refine ⟨nodes₂, h₂, hrel₁.trans hrel₂, fun l a hheld => hheld₂ l a (hheld₁ l a hheld), fun _ => ?_⟩
    refine hown.imp_left fun hne => hheld₂ layer id ?_
    rw [held_setLinks hnode hlt hlive, if_pos ⟨rfl, rfl⟩]
    exact hne
  · -- a node that is not on the layer has no links there, so its list is not loose
    refine Edit.yields_bind (Edit.yields_reading (h.repairPlan_eq_none gone removed hon)
      (Edit.yields_pure ⟨nodes, h.imp ?_, .refl, fun _ _ hheld => hheld, fun hc => absurd hc hon⟩))
    intro l a node ha hl hlinks
    refine (hloose l a hl).resolve_right ?_
    rintro ⟨rfl, rfl⟩
    have hlevel : node.level < l := Nat.lt_of_not_le fun hle => hon ⟨node, ha, hle⟩
    exact hlinks (linksAt_eq_nil_of_level_lt (h.wired.fits a node ha).layers_pos hlevel)

end Repair

/-! ## The deletion -/

namespace Edit

variable {d : Draft} {nodes : IdMap Node} {loose : Nat → ItemId → Prop} {id : ItemId} {removed : Node}
  {layer : Nat}

/-- One layer: the loose lists of the layer are those of the nodes still to come. -/
theorem repairAll_yields (loose : Nat → ItemId → Prop) (ids : List ItemId)
    (h : d.Holds (fun l a => loose l a ∨ (l = layer ∧ a ∈ ids)) nodes) (hhead : Headed d.head nodes)
    (hvalid : d.head.params.Valid) (hgone : id ∉ nodes)
    (hsiblings : ∀ t ∈ removed.linksAt layer, t ∈ nodes → OnLayer nodes layer t) :
    (repairAll ids id removed layer).Yields d fun _ d' =>
      ∃ nodes', d'.Holds loose nodes' ∧ Relinked d nodes d' nodes' ∧
        (∀ l a, Held nodes l a → Held nodes' l a) ∧
        ∀ a ∈ ids, OnLayer nodes layer a → Held nodes' layer a ∨ Stranded d.head nodes removed layer a := by
  refine (yields_forM (I := fun rest d' => ∃ nodes',
    d'.Holds (fun l a => loose l a ∨ (l = layer ∧ a ∈ rest)) nodes' ∧ Relinked d nodes d' nodes' ∧
      (∀ l a, Held nodes l a → Held nodes' l a) ∧
      ∀ a ∈ ids, a ∈ rest ∨ (OnLayer nodes layer a → Held nodes' layer a ∨ Stranded d.head nodes removed layer a))
    ?_ ids ⟨nodes, h, .refl, fun _ _ hheld => hheld, fun a ha => Or.inl ha⟩).imp ?_
  · -- one repair: the head and the siblings are as they were before the first
    rintro a rest d₁ ⟨nodes₁, h₁, hrel₁, hheld₁, hdone₁⟩
    refine (repair_yields h₁ (fun l b => loose l b ∨ (l = layer ∧ b ∈ rest)) ?_ ?_ ?_ ?_ ?_).imp ?_
    · rw [hrel₁.head]
      exact hhead.of_frames hrel₁.frames
    · rw [hrel₁.head]
      exact hvalid
    · rw [mem_iff_of_frames hrel₁.frames]
      exact hgone
    · intro t ht hlive
      exact (hsiblings t ht ((mem_iff_of_frames hrel₁.frames).mp hlive)).of_frames hrel₁.frames
    · rintro l b (hl | ⟨rfl, hb⟩)
      · exact Or.inl (Or.inl hl)
      · rcases List.mem_cons.mp hb with rfl | hb
        · exact Or.inr ⟨rfl, rfl⟩
        · exact Or.inl (Or.inr ⟨rfl, hb⟩)
    · rintro _ d₂ ⟨nodes₂, h₂, hrel₂, hheld₂, hown⟩
      refine ⟨nodes₂, h₂, hrel₁.trans hrel₂, fun l b hheld => hheld₂ l b (hheld₁ l b hheld), fun b hb => ?_⟩
      rcases hdone₁ b hb with hrest | hdone
      · rcases List.mem_cons.mp hrest with rfl | hrest
        · refine Or.inr fun hon => (hown (hon.of_frames hrel₁.frames)).imp_right fun hstranded => ?_
          exact (hrel₁.head ▸ hstranded).of_later hrel₁.frames (hheld₁ layer b)
        · exact Or.inl hrest
      · exact Or.inr fun hon => (hdone hon).imp_left (hheld₂ layer b)
  · -- no node is still to come
    rintro _ d' ⟨nodes', h', hrel, hheld, hdone⟩
    refine ⟨nodes', h'.imp ?_, hrel, hheld, fun a ha => (hdone a ha).resolve_left List.not_mem_nil⟩
    rintro l a node _ (hl | ⟨_, hnil⟩) _
    · exact hl
    · exact absurd hnil List.not_mem_nil

/-- All layers: the loose lists are the sources on the layers still to come. -/
theorem repairLayers_yields {sources : Nat → List ItemId} (layers : List Nat)
    (h : d.Holds (fun l a => l ∈ layers ∧ a ∈ sources l) nodes) (hhead : Headed d.head nodes)
    (hvalid : d.head.params.Valid) (hgone : id ∉ nodes)
    (hsiblings : ∀ l, ∀ t ∈ removed.linksAt l, t ∈ nodes → OnLayer nodes l t) :
    Yields (layers.forM fun l => repairAll (sources l) id removed l) d fun _ d' =>
      ∃ nodes', d'.Holds tight nodes' ∧ Relinked d nodes d' nodes' ∧
        ∀ l ∈ layers, ∀ a ∈ sources l, OnLayer nodes l a →
          Held nodes' l a ∨ Stranded d.head nodes removed l a := by
  refine (yields_forM (I := fun rest d' => ∃ nodes',
    d'.Holds (fun l a => l ∈ rest ∧ a ∈ sources l) nodes' ∧ Relinked d nodes d' nodes' ∧
      (∀ l a, Held nodes l a → Held nodes' l a) ∧
      ∀ l ∈ layers, l ∈ rest ∨ ∀ a ∈ sources l, OnLayer nodes l a →
        Held nodes' l a ∨ Stranded d.head nodes removed l a)
    ?_ layers ⟨nodes, h, .refl, fun _ _ hheld => hheld, fun l hl => Or.inl hl⟩).imp ?_
  · rintro l rest d₁ ⟨nodes₁, h₁, hrel₁, hheld₁, hdone₁⟩
    refine (repairAll_yields (fun l' a => l' ∈ rest ∧ a ∈ sources l') (sources l) (h₁.imp ?_)
      ?_ ?_ ?_ ?_).imp ?_
    · rintro l' a node _ ⟨hl', ha⟩ _
      rcases List.mem_cons.mp hl' with rfl | hl'
      · exact Or.inr ⟨rfl, ha⟩
      · exact Or.inl ⟨hl', ha⟩
    · rw [hrel₁.head]
      exact hhead.of_frames hrel₁.frames
    · rw [hrel₁.head]
      exact hvalid
    · rw [mem_iff_of_frames hrel₁.frames]
      exact hgone
    · intro t ht hlive
      exact (hsiblings l t ht ((mem_iff_of_frames hrel₁.frames).mp hlive)).of_frames hrel₁.frames
    · rintro _ d₂ ⟨nodes₂, h₂, hrel₂, hheld₂, hlayer⟩
      refine ⟨nodes₂, h₂, hrel₁.trans hrel₂, fun l b hheld => hheld₂ l b (hheld₁ l b hheld), fun l' hl' => ?_⟩
      rcases hdone₁ l' hl' with hrest | hdone
      · rcases List.mem_cons.mp hrest with rfl | hrest
        · refine Or.inr fun a ha hon => (hlayer a ha (hon.of_frames hrel₁.frames)).imp_right fun hstranded => ?_
          exact (hrel₁.head ▸ hstranded).of_later hrel₁.frames (hheld₁ l' a)
        · exact Or.inl hrest
      · exact Or.inr fun a ha hon => (hdone a ha hon).imp_left (hheld₂ l' a)
  · rintro _ d' ⟨nodes', h', hrel, _, hdone⟩
    exact ⟨nodes', h'.imp fun l a node _ hl _ => absurd hl.1 List.not_mem_nil, hrel,
      fun l hl => (hdone l hl).resolve_left List.not_mem_nil⟩

/-- The repairs of a deletion: they start without the item, with the sources that the backlinks name as the loose lists,
    and leave no list loose. -/
theorem repairSources_yields (h : d.Sound nodes) (hnode : nodes[id]? = some removed) {b : Backlinks}
    (hmirrors : b.Mirrors nodes) {d₁ : Draft} (hremoves : d.Removes id d₁)
    (hheaded : Headed d₁.head (nodes.erase id))
    (h₁ : d₁.Holds (fun l a => a ∈ b.sources l id) (nodes.erase id)) :
    Yields ((List.range (removed.level + 1)).reverse.forM fun l => repairAll (b.sources l id) id removed l) d₁
      fun _ d' => ∃ nodes', d'.Sound nodes' ∧ Relinked d₁ (nodes.erase id) d' nodes' ∧
        ∀ l a, id ∈ linksOf nodes l a → a ≠ id →
          Held nodes' l a ∨ Stranded d'.head (nodes.erase id) removed l a := by
  have hid : id ∈ nodes := mem_iff_exists.mpr ⟨removed, hnode⟩
  have hgone : id ∉ nodes.erase id := fun hc => (mem_erase_key.mp hc).1 rfl
  have hwired := h.holds.wired
  have hvalid : d₁.head.params.Valid := by
    obtain ⟨_, _, _, _, rfl⟩ := hremoves
    exact h.valid
  -- who linked to the item did so on one of its layers
  have hlayer : ∀ l a, id ∈ linksOf nodes l a → l ∈ (List.range (removed.level + 1)).reverse := by
    intro l a hlink
    obtain ⟨removed', hnode', hle⟩ := hwired.layered l a id (follows_iff.mpr ⟨hlink, hid⟩)
    obtain rfl := Option.some.inj (hnode.symm.trans hnode')
    exact List.mem_reverse.mpr (List.mem_range.mpr (Nat.lt_succ_of_le hle))
  have hsources : ∀ l a, a ∈ b.sources l id ↔ id ∈ linksOf nodes l a := fun l a => by
    rw [Backlinks.sources, Std.ExtTreeSet.mem_toList, hmirrors l a id, follows_iff]
    exact and_iff_left hid
  refine (repairLayers_yields _
    (h₁.imp fun l a _ _ ha _ => ⟨hlayer l a ((hsources l a).mp ha), ha⟩) hheaded hvalid hgone ?_).imp ?_
  · intro l t ht hlive
    exact (hwired.target hnode ht).erase (mem_erase_key.mp hlive).1
  · rintro _ d' ⟨nodes', h', hrel, hrepairs⟩
    refine ⟨nodes', Draft.sound_of_relinked hheaded hvalid h' hrel, hrel, fun l a hlink hne => ?_⟩
    rw [hrel.head]
    exact hrepairs l (hlayer l a hlink) a ((hsources l a).mpr hlink)
      ((hwired.onLayer_of_mem_linksOf hlink).erase hne.symm)

/-- **A deletion goes through and keeps the index well-formed.** But for links, the result is the draft
    without the item, and with another entry point if the item was it. Where a node linked to the item, it still has
    a link, unless it was stranded. -/
theorem delete_yields (h : d.Sound nodes) (hnode : nodes[id]? = some removed) :
    (delete id).Yields d fun _ d' =>
      ∃ d₁ nodes', d'.Sound nodes' ∧ d.Removes id d₁ ∧ Relinked d₁ (nodes.erase id) d' nodes' ∧
        ∀ l a, id ∈ linksOf nodes l a → a ≠ id →
          Held nodes' l a ∨ Stranded d'.head (nodes.erase id) removed l a := by
  have hid : id ∈ nodes := mem_iff_exists.mpr ⟨removed, hnode⟩
  obtain ⟨b, hb, hmirrors⟩ := Draft.currentBacklinks_eq h.holds.shows
    (fun source node layer target hsource ht => (h.holds.wired.target hsource ht).mem) h.holds.mirrors
  have hremoved := h.holds.remove hnode hmirrors
  unfold delete
  refine yields_bind (yields_reading (show d.node id = .ok (some removed) from hnode ▸ h.holds.shows id) ?_)
  refine yields_bind (yields_reading hb (yields_bind (yields_modify (yields_bind (yields_get ?_)))))
  by_cases hsize : (d.remove id removed b).head.size = 0
  · -- the last item: there is nothing to repair
    rw [if_pos hsize]
    have hempty : nodes.erase id = ∅ := (h.remove_size_eq_zero hid removed b).mp hsize
    have htight : ((d.remove id removed b).withEntry none 0).Holds tight (nodes.erase id) := by
      refine (hremoved.withEntry none 0).imp fun l a node ha _ _ => ?_
      rw [hempty] at ha
      simp at ha
    have hsound := Draft.sound_of_relinked (h.headed_remove_last hid removed b hsize) h.valid htight .refl
    refine yields_modify ⟨_, _, hsound, ⟨removed, b, none, 0, rfl⟩, .refl, fun l a hlink hne => ?_⟩
    have hlive := ((h.holds.wired.onLayer_of_mem_linksOf hlink).erase hne.symm).mem
    rw [hempty] at hlive
    exact absurd hlive Std.ExtTreeMap.not_mem_empty
  · rw [if_neg hsize]
    refine yields_bind (yields_get ?_)
    show Yields (if d.head.entryPoint = some id then _ else _) _ _
    by_cases hentry : d.head.entryPoint = some id
    · -- the entry point is moved first, and the repairs start from the new one
      rw [if_pos hentry]
      have hne : nodes.erase id ≠ ∅ := fun hempty =>
        hsize ((h.remove_size_eq_zero hid removed b).mpr hempty)
      obtain ⟨e, node, hpromoted, he, hfirst⟩ := Draft.promoted_eq hremoved.shows hne
      have hheaded := h.headed_remove_entry hid removed b he fun other n hn => (hfirst other n hn).level_le
      have hremoves : d.Removes id ((d.remove id removed b).withEntry (some e) node.level) :=
        ⟨removed, b, some e, node.level, rfl⟩
      refine yields_bind (yields_updating hpromoted ?_)
      refine (repairSources_yields h hnode hmirrors hremoves hheaded (hremoved.withEntry _ _)).imp ?_
      rintro _ d' ⟨nodes', h', hrel, hrepairs⟩
      exact ⟨_, nodes', h', hremoves, hrel, hrepairs⟩
    · rw [if_neg hentry]
      have hheaded := h.headed_remove_other hid removed b hentry
      have hremoves : d.Removes id (d.remove id removed b) := ⟨removed, b, _, _, (Draft.withEntry_self _).symm⟩
      refine (repairSources_yields h hnode hmirrors hremoves hheaded hremoved).imp ?_
      rintro _ d' ⟨nodes', h', hrel, hrepairs⟩
      exact ⟨_, nodes', h', hremoves, hrel, hrepairs⟩

end Edit

/-! ## A deletion that goes through -/

/-- The draft that the repairs of a deletion start from: the item is gone, and the entry point has moved if the item
    was it. -/
inductive Draft.Unrepaired (d : Draft) (id : ItemId) : Draft → Prop
  | last {removed : Node} {b : Backlinks} : (d.remove id removed b).head.size = 0 →
      Unrepaired d id ((d.remove id removed b).withEntry none 0)
  | entry {removed : Node} {b : Backlinks} {d₁ : Draft} : (d.remove id removed b).head.size ≠ 0 →
      d.head.entryPoint = some id → (d.remove id removed b).promoted = .ok d₁ → Unrepaired d id d₁
  | other {removed : Node} {b : Backlinks} : (d.remove id removed b).head.size ≠ 0 →
      d.head.entryPoint ≠ some id → Unrepaired d id (d.remove id removed b)

/-- Replacing the links of a node on a layer keeps it. -/
def Draft.KeptByLinks (I : Draft → Prop) : Prop :=
  ∀ d id node layer links, I d → I (d.setLinks id node layer links)

section Kept

variable {I : Draft → Prop} (hI : Draft.KeptByLinks I) {d d' : Draft}
include hI

theorem Draft.KeptByLinks.withLink {source target : ItemId} {layer : Nat} (h : I d)
    (hlink : d.withLink source target layer = .ok d') : I d' := by
  obtain ⟨found, _, hlink⟩ := bind_eq_ok.mp hlink
  cases found with
  | none => exact Except.ok.inj hlink ▸ h
  | some node =>
      dsimp only at hlink
      split at hlink
      · exact Except.ok.inj hlink ▸ h
      · obtain ⟨links, _, hset⟩ := bind_eq_ok.mp hlink
        exact Except.ok.inj hset ▸ hI d source node layer links h

theorem Draft.KeptByLinks.repair (h : I d) (id gone : ItemId) (removed : Node) (layer : Nat) :
    (Edit.repair id gone removed layer).Ensures d fun _ d' => I d' := by
  refine Edit.ensures_bind (Edit.ensures_reading fun plan _ => ?_)
  cases plan with
  | none => exact Edit.ensures_pure h
  | some r =>
      refine Edit.ensures_bind (Edit.ensures_modify (Edit.ensures_forM (fun _ _ _ hd => ?_) (hI d id r.node layer _ h)))
      exact Edit.ensures_updating fun _ hlink => hI.withLink hd hlink

/-- **What the repairs start from and what they keep holds after the deletion.** -/
theorem Draft.KeptByLinks.delete {id : ItemId} (hstart : ∀ d₁, d.Unrepaired id d₁ → I d₁) :
    (Edit.delete id).Ensures d fun _ d' => I d' := by
  refine Edit.ensures_bind (Edit.ensures_reading fun found _ => ?_)
  cases found with
  | none => exact Edit.ensures_throw _
  | some removed =>
      refine Edit.ensures_bind (Edit.ensures_reading fun b _ => Edit.ensures_bind (Edit.ensures_modify
        (Edit.ensures_bind (Edit.ensures_get ?_))))
      have hrepairs : ∀ d₁ : Draft, d.Unrepaired id d₁ →
          Edit.Ensures ((List.range (removed.level + 1)).reverse.forM fun layer =>
            Edit.repairAll (b.sources layer id) id removed layer) d₁ fun _ d' => I d' := fun d₁ h₁ =>
        Edit.ensures_forM (fun layer _ _ h₂ =>
          Edit.ensures_forM (fun a _ _ h₃ => hI.repair h₃ a id removed layer) h₂) (hstart d₁ h₁)
      split
      · rename_i hsize
        exact Edit.ensures_modify (hstart _ (.last hsize))
      · rename_i hsize
        refine Edit.ensures_bind (Edit.ensures_get ?_)
        split
        · rename_i hentry
          refine Edit.ensures_bind (Edit.ensures_updating fun d₁ hpromoted => ?_)
          exact hrepairs d₁ (.entry hsize hentry hpromoted)
        · rename_i hentry
          exact hrepairs _ (.other hsize hentry)

end Kept

end VectorIndex
