import VectorIndex.Draft.Insertion
import VectorIndex.Proofs.Wiring

/-!
# `VectorIndex.Proofs.WellFormed` — well-formed indexes

`WellFormed head nodes` is what holds of every index between two calls. `Draft.Sound` adds what the next call
needs besides: that the parameters are valid and that the backlinks, if there are any, mirror the links.

## Contents
- **The head of the graph.** `Headed`: size, entry point, top level.
- **The index.** `WellFormed`, and `Draft.Sound` for drafts.
-/

namespace VectorIndex

/-! ## The head of the graph -/

/-- The description counts the nodes and names one of the highest level. -/
structure Headed (head : Metadata) (nodes : IdMap Node) : Prop where
  size : head.size.toNat = nodes.size
  entry_none : head.entryPoint = none ↔ nodes = ∅
  entry_some : ∀ e, head.entryPoint = some e →
    ∃ node, nodes[e]? = some node ∧ node.level = head.topLevel.toNat
  level_le : ∀ (id : ItemId) (node : Node), nodes[id]? = some node → node.level ≤ head.topLevel.toNat

section Headed

variable {head : Metadata} {nodes nodes' : IdMap Node}

/-- An index without nodes has no entry point. -/
theorem headed_empty (hsize : head.size = 0) (hentry : head.entryPoint = none) : Headed head ∅ where
  size := by
    rw [hsize]
    rfl
  entry_none := ⟨fun _ => rfl, fun _ => hentry⟩
  entry_some e he := by
    rw [hentry] at he
    cases he
  level_le id node hnode := by
    simp at hnode

/-- An index with nodes is headed by one of the highest level. -/
theorem headed_of_entry {e : ItemId} {node : Node} (hsize : head.size.toNat = nodes.size)
    (hentry : head.entryPoint = some e) (hnode : nodes[e]? = some node)
    (htop : node.level = head.topLevel.toNat)
    (hle : ∀ (id : ItemId) (n : Node), nodes[id]? = some n → n.level ≤ node.level) : Headed head nodes where
  size := hsize
  entry_none := by
    constructor
    · intro hnone
      rw [hentry] at hnone
      cases hnone
    · intro hempty
      rw [hempty] at hnode
      simp at hnode
  entry_some e' he' := by
    obtain rfl := Option.some.inj (hentry.symm.trans he')
    exact ⟨node, hnode, htop⟩
  level_le id n hn := htop ▸ hle id n hn

theorem eq_empty_iff_of_frames (hf : frames nodes' = frames nodes) : nodes' = ∅ ↔ nodes = ∅ := by
  rw [Std.ExtTreeMap.eq_empty_iff_size_eq_zero, Std.ExtTreeMap.eq_empty_iff_size_eq_zero, size_of_frames hf]

/-- Linking moves neither size nor entry point nor top level. -/
theorem Headed.of_frames (h : Headed head nodes) (hf : frames nodes' = frames nodes) :
    Headed head nodes' where
  size := h.size.trans (size_of_frames hf).symm
  entry_none := h.entry_none.trans (eq_empty_iff_of_frames hf).symm
  entry_some e he := by
    obtain ⟨node, hnode, hlevel⟩ := h.entry_some e he
    obtain ⟨node', hnode', hframe⟩ := exists_of_frames hf.symm hnode
    exact ⟨node', hnode', (level_eq_of_frame hframe).symm.trans hlevel⟩
  level_le id node' hnode' := by
    obtain ⟨node, hnode, hframe⟩ := exists_of_frames hf hnode'
    exact level_eq_of_frame hframe ▸ h.level_le id node hnode

/-- The entry point takes part in the top layer. -/
theorem Headed.onLayer (h : Headed head nodes) {e : ItemId} (he : head.entryPoint = some e) :
    OnLayer nodes head.topLevel.toNat e := by
  obtain ⟨node, hnode, hlevel⟩ := h.entry_some e he
  exact ⟨node, hnode, Nat.le_of_eq hlevel.symm⟩

end Headed

/-! ## The index -/

/-- **A well-formed index.** Besides its head: every vector has the dimension and only finite components;
    every node is on 1 to `layerLimit` layers; and a link list keeps to its cap, names no item twice, never
    its own node, and only live items of its layer. -/
structure WellFormed (head : Metadata) (nodes : IdMap Node) : Prop extends Headed head nodes where
  vectors : ∀ (id : ItemId) (node : Node), nodes[id]? = some node →
    node.embedding.length = head.dimension.toNat ∧ ∀ x ∈ node.embedding, x.isFinite
  layers : ∀ (id : ItemId) (node : Node), nodes[id]? = some node →
    1 ≤ node.links.length ∧ node.links.length ≤ head.params.layerLimit.toNat
  links : ∀ (id : ItemId) (node : Node), nodes[id]? = some node → ∀ layer,
    (node.linksAt layer).length ≤ head.params.cap layer ∧ (node.linksAt layer).Nodup ∧
      id ∉ node.linksAt layer ∧ ∀ t ∈ node.linksAt layer, OnLayer nodes layer t

theorem wellFormed_iff {head : Metadata} {nodes : IdMap Node} :
    WellFormed head nodes ↔
      Wired head.params head.dimension.toNat tight nodes ∧ Headed head nodes := by
  constructor
  · intro h
    refine ⟨⟨?_, ?_⟩, h.toHeaded⟩
    · intro id node hnode
      exact ⟨(h.vectors id node hnode).1, (h.vectors id node hnode).2, (h.layers id node hnode).1,
        (h.layers id node hnode).2⟩
    · intro id node layer hnode
      obtain ⟨hlength, hnodup, hirrefl, honLayer⟩ := h.links id node hnode layer
      exact ⟨hlength, hnodup, hirrefl, fun t ht _ => honLayer t ht,
        fun t ht hgone => hgone (honLayer t ht).mem⟩
  · rintro ⟨hw, hh⟩
    refine ⟨hh, ?_, ?_, ?_⟩
    · intro id node hnode
      exact ⟨(hw.fits id node hnode).length, (hw.fits id node hnode).finite⟩
    · intro id node hnode
      exact ⟨(hw.fits id node hnode).layers_pos, (hw.fits id node hnode).layers_le⟩
    · intro id node hnode layer
      have hlist := hw.links id node layer hnode
      exact ⟨hlist.length_le, hlist.nodup, hlist.irrefl, fun t ht => hw.target hnode ht⟩

/-- Between two calls: the live nodes of the draft are `nodes`, and they are a well-formed index. -/
structure Draft.Sound (d : Draft) (nodes : IdMap Node) : Prop where
  holds : d.Holds tight nodes
  headed : Headed d.head nodes
  valid : d.head.params.Valid

namespace Draft

variable {d : Draft} {nodes : IdMap Node}

theorem Sound.wellFormed (h : d.Sound nodes) : WellFormed d.head nodes :=
  wellFormed_iff.mpr ⟨h.holds.wired, h.headed⟩

/-- Links may be unsound for a while: a draft is sound once they are sound again. -/
theorem sound_of_relinked {d' : Draft} {nodes' : IdMap Node} (hheaded : Headed d.head nodes)
    (hvalid : d.head.params.Valid) (h' : d'.Holds tight nodes') (hrel : Relinked d nodes d' nodes') :
    d'.Sound nodes' := by
  refine ⟨h', ?_, ?_⟩ <;> rw [hrel.head]
  · exact hheaded.of_frames hrel.frames
  · exact hvalid

theorem Sound.relinked (h : d.Sound nodes) {d' : Draft} {nodes' : IdMap Node} (h' : d'.Holds tight nodes')
    (hrel : Relinked d nodes d' nodes') : d'.Sound nodes' :=
  sound_of_relinked h.headed h.valid h' hrel

theorem Sound.drawnLevel_lt (h : d.Sound nodes) : d.drawnLevel < d.head.params.layerLimit.toNat :=
  levelOfDraw_lt h.valid.layerLimit_pos

/-- A level below the limit fits the byte in which the top level is kept. -/
theorem Sound.toNat_level (h : d.Sound nodes) {level : Nat}
    (hlevel : level < d.head.params.layerLimit.toNat) : (UInt8.ofNat level).toNat = level := by
  have hle := h.valid.layerLimit_le
  rw [UInt8.toNat_ofNat']
  omega

theorem Sound.level_lt (h : d.Sound nodes) {id : ItemId} {node : Node} (hnode : nodes[id]? = some node) :
    node.level < d.head.params.layerLimit.toNat := by
  have hfits := h.holds.wired.fits id node hnode
  have hpos := hfits.layers_pos
  have hle := hfits.layers_le
  unfold Node.level
  omega

end Draft

end VectorIndex
