import VectorIndex.Proofs.Search

/-!
# `VectorIndex.Proofs.Collections` — an index is a map from ids to vectors

To its user an index is a `Collection`: a finite map from ids to vectors of one dimension. A `Catalog` holds the
collection of each committed index and of each open writer. The calls of a program move it along
(`Catalog.answered`), and of an answer that looks only at whether the call went through: graphs, levels,
distances and files do not come into it.

`Session.Mirrors` relates a session to a catalog, `Session.Mirrors.step` says that one call keeps the two in
step, and the result is `run_agrees`: after every run the writers and searchers show what the catalog of the
same calls holds, and every change is accepted or rejected as the map says.

## Contents
- **Rejections.** `Embedding.Unfit`, `Change.Rejects`, `Change.effect`, and `Change.apply` in their terms.
- **The catalog.** `Collection`, `Catalog`, `Catalog.answered`.
- **Entry by entry.** `Entrywise`: two maps with corresponding entries.
- **Sessions.** `Session.Mirrors`, kept by each call.
- **What can be seen.** `Writer.Agrees`, `Searcher.Agrees`, `Session.Agrees`.
- **Runs.** `World.transcript`, `Catalog.run`, `run_agrees`.
-/

namespace VectorIndex

/-! ## Rejections -/

/-- The vector has the dimension and only finite components. -/
def Embedding.Fits (dimension : Nat) (v : Embedding) : Prop := v.length = dimension ∧ ∀ x ∈ v, x.isFinite

/-- Why a vector does not fit: its length, or else its first component that is not finite. -/
def Embedding.Unfit (dimension : Nat) (v : Embedding) (e : Error) : Prop :=
  (v.length ≠ dimension ∧ e = .dimensionMismatch dimension v.length) ∨
  v.length = dimension ∧ ∃ (position : Nat) (value : Single), v[position]? = some value ∧
    value.isFinite = false ∧ (∀ x ∈ v.take position, x.isFinite) ∧
    e = .invalidVector (.component position value)

/-- The reasons for which a map of vectors rejects a call. -/
def Change.Rejects (dimension : Nat) (items : IdMap Embedding) : Change → Error → Prop
  | .add id v, e => v.Unfit dimension e ∨ v.Fits dimension ∧ id ∈ items ∧ e = .duplicateId id
  | .update id v, e => v.Unfit dimension e ∨ v.Fits dimension ∧ id ∉ items ∧ e = .itemNotFound id
  | .delete id, e => id ∉ items ∧ e = .itemNotFound id
  | .clear, _ => False

/-- The map after a call that it accepts. -/
def Change.effect (items : IdMap Embedding) : Change → IdMap Embedding
  | .add id v => items.insert id v
  | .update id v => items.insert id v
  | .delete id => items.erase id
  | .clear => ∅

section Rejections

variable {dimension : Nat} {items items' : IdMap Embedding} {v : Embedding} {e : Error}

/-- The check stops at the first component that is not finite. -/
theorem Embedding.find?_eq_some_iff {position : Nat} {value : Single} :
    v.zipIdx.find? (fun c => !c.1.isFinite) = some (value, position) ↔
      v[position]? = some value ∧ value.isFinite = false ∧ ∀ x ∈ v.take position, x.isFinite := by
  rw [List.find?_eq_some_iff_getElem]
  simp only [List.getElem_zipIdx, List.length_zipIdx, Prod.mk.injEq, Nat.zero_add, Bool.not_eq_true',
    Bool.not_not]
  constructor
  · rintro ⟨hbad, i, hi, ⟨rfl, rfl⟩, hbefore⟩
    refine ⟨List.getElem?_eq_getElem hi, hbad, fun x hx => ?_⟩
    obtain ⟨j, hj, rfl⟩ := List.mem_take_iff_getElem.mp hx
    exact hbefore j (by omega)
  · rintro ⟨hget, hbad, hbefore⟩
    obtain ⟨hi, hvalue⟩ := List.getElem?_eq_some_iff.mp hget
    exact ⟨hbad, position, hi, ⟨hvalue, rfl⟩, fun j hj =>
      hbefore _ (List.mem_take_iff_getElem.mpr ⟨j, by omega, rfl⟩)⟩

theorem Embedding.check_eq_error : Embedding.check dimension v = .error e ↔ v.Unfit dimension e := by
  unfold Embedding.check Embedding.Unfit
  by_cases hlength : v.length = dimension
  · subst hlength
    rw [if_pos rfl]
    simp only [ne_eq, not_true_eq_false, false_and, false_or, true_and]
    cases hfind : v.zipIdx.find? (fun c => !c.1.isFinite) with
    | none =>
        constructor
        · intro h
          cases h
        · rintro ⟨position, value, hget, hbad, hfirst, _⟩
          rw [Embedding.find?_eq_some_iff.mpr ⟨hget, hbad, hfirst⟩] at hfind
          cases hfind
    | some found =>
        obtain ⟨hget, hbad, hfirst⟩ := Embedding.find?_eq_some_iff.mp hfind
        constructor
        · intro h
          exact ⟨found.2, found.1, hget, hbad, hfirst, (Except.error.inj h).symm⟩
        · rintro ⟨position, value, hget', hbad', hfirst', rfl⟩
          rw [Embedding.find?_eq_some_iff.mpr ⟨hget', hbad', hfirst'⟩] at hfind
          obtain rfl := Option.some.inj hfind
          rfl
  · rw [if_neg hlength]
    constructor
    · intro h
      exact Or.inl ⟨hlength, (Except.error.inj h).symm⟩
    · rintro (⟨_, rfl⟩ | ⟨heq, _⟩)
      · rfl
      · exact absurd heq hlength

/-- A vector that fits is not unfit. -/
theorem Embedding.Fits.not_unfit (h : v.Fits dimension) : ¬v.Unfit dimension e := by
  intro hunfit
  rw [← check_eq_error, Embedding.check_eq_ok.mpr h] at hunfit
  cases hunfit

/-- After the check of the vector, the rest decides. -/
theorem Embedding.check_then_eq_error {answer : Except Error (IdMap Embedding)} :
    (do Embedding.check dimension v; answer) = .error e ↔
      v.Unfit dimension e ∨ v.Fits dimension ∧ answer = .error e := by
  cases hcheck : Embedding.check dimension v with
  | error x =>
      have hunfit := check_eq_error.mp hcheck
      constructor
      · intro h
        exact Or.inl (Except.error.inj h ▸ hunfit)
      · rintro (h | ⟨h, _⟩)
        · rw [← check_eq_error, hcheck] at h
          exact congrArg Except.error (Except.error.inj h)
        · exact absurd hunfit h.not_unfit
  | ok u =>
      have hfits : v.Fits dimension := Embedding.check_eq_ok.mp hcheck
      constructor
      · intro h
        exact Or.inr ⟨hfits, h⟩
      · rintro (h | ⟨_, h⟩)
        · exact absurd h hfits.not_unfit
        · exact h

/-- A call that an item of the id stops. -/
theorem taken_eq_error {id : ItemId} {x : Error} :
    (if items.contains id then throw x else return items' : Except Error (IdMap Embedding)) = .error e ↔
      id ∈ items ∧ e = x := by
  rw [Std.ExtTreeMap.mem_iff_contains]
  by_cases hid : items.contains id = true
  · simp [hid, throw, throwThe, MonadExceptOf.throw, eq_comm]
  · simp [hid, pure, Except.pure]

/-- A call that needs an item of the id. -/
theorem missing_eq_error {id : ItemId} {x : Error} :
    (if items.contains id then return items' else throw x : Except Error (IdMap Embedding)) = .error e ↔
      id ∉ items ∧ e = x := by
  rw [Std.ExtTreeMap.mem_iff_contains]
  by_cases hid : items.contains id = true
  · simp [hid, pure, Except.pure]
  · simp [hid, throw, throwThe, MonadExceptOf.throw, eq_comm]

/-- **A call is rejected for the listed reasons, and for no other.** -/
theorem Change.apply_eq_error {c : Change} : c.apply dimension items = .error e ↔ c.Rejects dimension items e := by
  cases c with
  | add id v => exact Embedding.check_then_eq_error.trans (or_congr_right (and_congr_right fun _ => taken_eq_error))
  | update id v =>
      exact Embedding.check_then_eq_error.trans (or_congr_right (and_congr_right fun _ => missing_eq_error))
  | delete id => exact missing_eq_error
  | clear => simp [apply, Rejects, pure, Except.pure]

/-- A call that goes through has its effect. -/
theorem Change.eq_effect_of_apply {c : Change} (h : c.apply dimension items = .ok items') :
    items' = c.effect items := by
  unfold apply at h
  cases c with
  | add id v =>
      obtain ⟨_, _, h⟩ := bind_eq_ok.mp h
      split at h
      · cases h
      · exact (Except.ok.inj h).symm
  | update id v =>
      obtain ⟨_, _, h⟩ := bind_eq_ok.mp h
      split at h
      · exact (Except.ok.inj h).symm
      · cases h
  | delete id =>
      dsimp only at h
      split at h
      · exact (Except.ok.inj h).symm
      · cases h
  | clear => exact (Except.ok.inj h).symm

/-- No call is rejected for a fault of the file. -/
theorem Change.Rejects.not_storage {c : Change} {fault : StorageError} :
    ¬c.Rejects dimension items (.storage fault) := by
  cases c <;> simp [Rejects, Embedding.Unfit]

end Rejections

/-! ## The catalog -/

/-- An index to its user: a map from ids to vectors of one dimension. -/
structure Collection where
  dimension : Nat
  items : IdMap Embedding

/-- A collection without items. The dimension is stored in 32 bits. -/
def Collection.fresh (dimension : Nat) : Collection := ⟨(UInt32.ofNat dimension).toNat, ∅⟩

/-- The collections of the committed indexes and, under their handles, those of the open writers. -/
structure Catalog where
  committed : IndexMap Collection
  writers : Std.ExtTreeMap Handle (IndexId × Collection)

namespace Catalog

/-- Nothing committed, and no writer. -/
def empty : Catalog := ⟨∅, ∅⟩

variable (m : Catalog)

/-- The catalog after a call that went through. -/
def accepted : Call → Catalog
  | .openWriter handle index dimension _ _ _ =>
      { m with writers :=
          m.writers.insert handle (index, m.committed[index]?.getD (Collection.fresh dimension)) }
  | .change handle change =>
      match m.writers[handle]? with
      | none => m
      | some (index, c) =>
          { m with writers := m.writers.insert handle (index, { c with items := change.effect c.items }) }
  | .commit handle _ =>
      match m.writers[handle]? with
      | none => m
      | some (index, c) => ⟨m.committed.insert index c, m.writers.erase handle⟩
  | .abort handle => { m with writers := m.writers.erase handle }
  | .dropIndex index => { m with committed := m.committed.erase index }
  | .openSearcher _ _ => m
  | .closeSearcher _ => m

/-- The catalog after a call that was rejected: a commit ends its writer in any case. -/
def rejected : Call → Catalog
  | .commit handle _ => { m with writers := m.writers.erase handle }
  | _ => m

/-- The catalog after a call and its answer. -/
def answered (c : Call) : Answer → Catalog
  | .done (.ok _) => m.accepted c
  | .done (.error _) => m.rejected c
  | .waiting => m
  | .badHandle => m

end Catalog

/-! ## Entry by entry -/

section Entries

variable {κ α β : Type} [Ord κ] [Std.TransOrd κ] {r r' : κ → α → β → Prop} {m : Std.ExtTreeMap κ α}
  {m' : Std.ExtTreeMap κ β} {k : κ} {a : α} {b : β}

theorem optionRel_imp {p q : α → β → Prop} {x : Option α} {y : Option β} (h : Option.Rel p x y)
    (hpq : ∀ a b, x = some a → p a b → q a b) : Option.Rel q x y := by
  cases h with
  | none => exact .none
  | some hab => exact .some (hpq _ _ rfl hab)

/-- The two maps have the same keys, and under each key their entries correspond. -/
def Entrywise (r : κ → α → β → Prop) (m : Std.ExtTreeMap κ α) (m' : Std.ExtTreeMap κ β) : Prop :=
  ∀ k, Option.Rel (r k) m[k]? m'[k]?

theorem entrywise_empty : Entrywise r ∅ ∅ := by
  intro k
  simp only [Std.ExtTreeMap.getElem?_empty]
  exact .none

theorem Entrywise.of_some (h : Entrywise r m m') (hk : m[k]? = some a) : ∃ b, m'[k]? = some b ∧ r k a b := by
  have hrel := h k
  rw [hk] at hrel
  generalize m'[k]? = y at hrel ⊢
  cases hrel with
  | some hab => exact ⟨_, rfl, hab⟩

theorem Entrywise.to_some (h : Entrywise r m m') (hk : m'[k]? = some b) : ∃ a, m[k]? = some a ∧ r k a b := by
  have hrel := h k
  rw [hk] at hrel
  generalize m[k]? = x at hrel ⊢
  cases hrel with
  | some hab => exact ⟨_, rfl, hab⟩

theorem Entrywise.none_iff (h : Entrywise r m m') : m[k]? = none ↔ m'[k]? = none := by
  have hrel := h k
  generalize m[k]? = x at hrel ⊢
  generalize m'[k]? = y at hrel ⊢
  cases hrel <;> simp

/-- Entries that correspond may be seen to correspond in another way. -/
theorem Entrywise.imp (h : Entrywise r m m') (hr : ∀ k a b, m[k]? = some a → r k a b → r' k a b) :
    Entrywise r' m m' :=
  fun k => optionRel_imp (h k) (hr k)

variable [Std.LawfulEqOrd κ] [DecidableEq κ]

/-- Both maps get an entry under one key. -/
theorem Entrywise.insert (h : Entrywise r m m') (hab : r' k a b)
    (hr : ∀ other, k ≠ other → ∀ a b, r other a b → r' other a b) :
    Entrywise r' (m.insert k a) (m'.insert k b) := by
  intro other
  rw [getElem?_insert_id, getElem?_insert_id]
  by_cases heq : k = other
  · subst heq
    rw [if_pos rfl, if_pos rfl]
    exact .some hab
  · rw [if_neg heq, if_neg heq]
    exact optionRel_imp (h other) fun a b _ => hr other heq a b

/-- Both maps lose the entry of one key. -/
theorem Entrywise.erase (h : Entrywise r m m') (k : κ)
    (hr : ∀ other, k ≠ other → ∀ a b, r other a b → r' other a b) :
    Entrywise r' (m.erase k) (m'.erase k) := by
  intro other
  rw [getElem?_erase_id, getElem?_erase_id]
  by_cases heq : k = other
  · rw [if_pos heq, if_pos heq]
    exact .none
  · rw [if_neg heq, if_neg heq]
    exact optionRel_imp (h other) fun a b _ => hr other heq a b

/-- An entry that is there already may be put there again. -/
theorem insert_same (h : m[k]? = some a) : m.insert k a = m := by
  apply Std.ExtTreeMap.ext_getElem?
  intro other
  rw [getElem?_insert_id]
  by_cases heq : k = other
  · rw [if_pos heq, ← heq, h]
  · rw [if_neg heq]

end Entries

/-! ## Sessions -/

/-- The collection that some nodes are. -/
structure Collection.Of (c : Collection) (head : Metadata) (nodes : IdMap Node) : Prop where
  dimension : head.dimension.toNat = c.dimension
  items : vectors nodes = c.items

/-- A committed index holds the collection. -/
def Stored (nodes : IndexMap (Table Rows)) (index : IndexId) (row : Bytes) (c : Collection) : Prop :=
  ∃ head rows found, Metadata.decode row = .ok head ∧ nodes[index]? = some (.rows rows) ∧
    Committed head rows found ∧ c.Of head found

/-- The writer of an index holds the collection. -/
def Drafted (w : Writer) (entry : IndexId × Collection) : Prop :=
  w.index = entry.1 ∧ ∃ nodes, w.draft.Sound nodes ∧ entry.2.Of w.draft.head nodes

/-- The session holds the collections of the catalog. -/
structure Session.Mirrors (s : Session) (m : Catalog) : Prop where
  committed : Entrywise (Stored s.db.nodes) s.db.metadata m.committed
  writers : Entrywise (fun _ => Drafted) s.writers m.writers

section Mirroring

variable {c : Collection} {head head' : Metadata} {nodes nodes' : IdMap Node}

/-- Reading determines the nodes. -/
theorem Graph.Shows.unique {g : Graph} (h : g.Shows nodes) (h' : g.Shows nodes') : nodes = nodes' := by
  apply Std.ExtTreeMap.ext_getElem?
  intro id
  exact Except.ok.inj ((h id).symm.trans (h' id))

theorem collection_fresh (dimension : Nat) (metric : Metric) (params : Params) :
    (Collection.fresh dimension).Of (Metadata.fresh dimension metric params) ∅ :=
  ⟨rfl, vectors_empty⟩

/-- Linking changes no collection. -/
theorem Collection.Of.of_frames (h : c.Of head nodes) (hhead : head' = head)
    (hframes : frames nodes' = frames nodes) : c.Of head' nodes' where
  dimension := hhead ▸ h.dimension
  items := (vectors_of_frames hframes).trans h.items

variable {s : Session} {m : Catalog} {handle : Handle} {w : Writer}

/-- A writer starts with the committed collection, or with a fresh one. -/
theorem Session.Mirrors.opened (h : s.Mirrors m) (htables : Tables s.db.metadata s.db.nodes) {index : IndexId}
    {dimension : Nat} {metric : Metric} {params : Option Params} {head : Metadata} {isNew : Bool} {rows : Rows}
    (hhead : s.db.writerHead index dimension metric params = .ok (head, isNew))
    (hrows : s.db.rows index = .ok rows) :
    ∃ found, Committed head rows found ∧
      (m.committed[index]?.getD (Collection.fresh dimension)).Of head found := by
  unfold Database.rows at hrows
  rcases Database.writerHead_eq_ok hhead with ⟨hrow, _, hvalid, rfl⟩ | ⟨row, hrow, _, hdecode, _⟩
  · rw [htables.absent index hrow] at hrows
    obtain rfl := Except.ok.inj hrows
    rw [h.committed.none_iff.mp hrow]
    exact ⟨∅, committed_fresh hvalid dimension metric, collection_fresh dimension metric _⟩
  · obtain ⟨c, hc, head', rows', found, hdecode', htable, hcommitted, hof⟩ := h.committed.of_some hrow
    rw [htable] at hrows
    obtain rfl := Except.ok.inj hrows
    obtain rfl := Except.ok.inj (hdecode.symm.trans hdecode')
    rw [hc]
    exact ⟨found, hcommitted, hof⟩

theorem Session.Mirrors.openWriter (h : s.Mirrors m) (htables : Tables s.db.metadata s.db.nodes)
    (distances : Metric → Ranking) (handle : Handle) {index : IndexId} {dimension : Nat} {metric : Metric}
    {options : WriterOptions} {entropy : Random.Generator} {db : Database}
    (hopen : s.db.openWriter index dimension metric options entropy = .answered (.ok (w, db))) :
    ({ s with db := db, writers := s.writers.insert handle (w.rankedBy distances) } : Session).Mirrors
      (m.accepted (.openWriter handle index dimension metric options entropy)) := by
  obtain ⟨_, rfl, head, isNew, rows, generator, hhead, hrows, rfl⟩ := Database.openWriter_eq_ok hopen
  obtain ⟨found, hc, hof⟩ := h.opened htables hhead hrows
  refine ⟨h.committed, h.writers.insert ⟨rfl, found, ?_, hof⟩ fun _ _ _ _ hr => hr⟩
  exact hc.sound (distances head.metric) generator

theorem Session.Mirrors.change (h : s.Mirrors m) (hw : s.writers[handle]? = some w) (change : Change) :
    ({ s with writers := s.writers.insert handle (w.run change.edit).2 } : Session).Mirrors
      (m.answered (.change handle change) (.done (w.run change.edit).1)) := by
  obtain ⟨⟨index, c⟩, hentry, hindex, nodes, hsound, hof⟩ := h.writers.of_some hw
  unfold Writer.run
  rcases change.edit_on hsound with ⟨e, _, hrun⟩ | ⟨items, d', happly, hrun, nodes', hsound', hitems, hd, _⟩
  · -- rejected: the same writer is put back
    rw [hrun]
    refine ⟨h.committed, ?_⟩
    rw [insert_same hw]
    exact h.writers
  · rw [hrun]
    dsimp only [Catalog.answered, Catalog.accepted]
    rw [hentry]
    refine ⟨h.committed, h.writers.insert ⟨hindex, nodes', hsound', ?_, ?_⟩ fun _ _ _ _ hr => hr⟩
    · exact (congrArg UInt32.toNat hd.dimension).trans hof.dimension
    · rw [hitems, Change.eq_effect_of_apply happly, hof.items]

/-- The writer is gone, and the tables of the other indexes are as they were. -/
theorem Session.Mirrors.commit (h : s.Mirrors m) (hsound : s.Sound) (hw : s.writers[handle]? = some w)
    (allocated : UInt64) :
    ({ s with db := (s.db.commit w allocated).2, writers := s.writers.erase handle } : Session).Mirrors
      (m.answered (.commit handle allocated) (.done (s.db.commit w allocated).1)) := by
  obtain ⟨⟨index, c⟩, hentry, rfl, nodes, hdraft, hof⟩ := h.writers.of_some hw
  have htracks : w.Tracks (s.db.release w.index) := (hsound.writers handle w hw).of_rows rfl
  obtain ⟨nodes₁, d, nodes', hsettles⟩ := htracks.settles
  obtain rfl := hdraft.holds.shows.unique hsettles.before.holds.shows
  have hwriters := h.writers.erase handle fun _ _ _ _ hr => hr
  rcases hsettles.commit_cases allocated with ⟨e, hcommit, _⟩ | hcommit
  · rw [hcommit]
    exact ⟨h.committed, hwriters⟩
  · rw [hcommit]
    dsimp only [Catalog.answered, Catalog.accepted]
    rw [hentry]
    refine ⟨h.committed.insert ?_ ?_, hwriters⟩
    · have hdecode := Metadata.decode_encode d.head []
      rw [List.append_nil] at hdecode
      refine ⟨d.head, d.writeTo d.stored, nodes', hdecode, ?_, hsettles.committed,
        hof.of_frames hsettles.rebased.head hsettles.rebased.frames⟩
      unfold Database.withIndex
      dsimp only
      rw [getElem?_insert_id, if_pos rfl]
    · rintro other hne row c' ⟨head, rows, found, hdecode, htable, hrest⟩
      refine ⟨head, rows, found, hdecode, ?_, hrest⟩
      unfold Database.withIndex
      dsimp only
      rw [getElem?_insert_id, if_neg hne]
      exact htable

theorem Session.Mirrors.dropIndex (h : s.Mirrors m) {index : IndexId} {db : Database}
    (hdrop : s.db.dropIndex index = .ok db) :
    ({ s with db := db } : Session).Mirrors (m.accepted (.dropIndex index)) := by
  obtain ⟨_, _, rfl⟩ := Database.dropIndex_eq_ok hdrop
  refine ⟨h.committed.erase index ?_, h.writers⟩
  rintro other hne row c ⟨head, rows, found, hdecode, htable, hrest⟩
  refine ⟨head, rows, found, hdecode, ?_, hrest⟩
  rw [getElem?_erase_id, if_neg hne]
  exact htable

/-- **One call keeps session and catalog in step**, whatever it answers. -/
theorem Session.Mirrors.step (h : s.Mirrors m) (hsound : s.Sound) (distances : Metric → Ranking) (c : Call) :
    (s.step distances c).2.Mirrors (m.answered c (s.step distances c).1) := by
  have hmoves := s.step_moves distances c
  generalize (s.step distances c).1 = answer, (s.step distances c).2 = s' at hmoves ⊢
  cases hmoves with
  | refuses hanswer => rcases hanswer with rfl | rfl <;> exact h
  | fails e hcommit =>
      cases c with
      | commit handle allocated => exact absurd rfl (hcommit handle allocated)
      | _ => exact h
  | opens hunused hopen => exact h.openWriter hsound.tables distances _ hopen
  | changes change hw => exact h.change hw change
  | commits allocated hw => exact h.commit hsound hw allocated
  | aborts hw => exact ⟨h.committed, h.writers.erase _ fun _ _ _ _ hr => hr⟩
  | shows | closes => exact ⟨h.committed, h.writers⟩
  | drops hdrop => exact h.dropIndex hdrop

end Mirroring

/-! ## What can be seen -/

/-- A writer shows the collection, and accepts and rejects changes as the map does. -/
structure Writer.Agrees (w : Writer) (c : Collection) : Prop where
  dimension : w.draft.dimension = c.dimension
  contains : ∀ id, w.draft.contains id = c.items.contains id
  vector : ∀ id, w.draft.vector id = .ok c.items[id]?
  size : w.draft.head.size.toNat = c.items.size
  liveIds : ∀ id, id ∈ w.draft.liveIds ↔ id ∈ c.items
  rejects : ∀ (change : Change) (e : Error),
    (w.run change.edit).1 = .error e ↔ change.Rejects c.dimension c.items e

/-- A searcher shows the collection; ids and items are listed in ascending order. -/
structure Searcher.Agrees (x : Searcher) (c : Collection) : Prop where
  dimension : x.dimension = c.dimension
  contains : ∀ id, x.contains id = c.items.contains id
  vector : ∀ id, x.vector id = .ok c.items[id]?
  size : x.head.size.toNat = c.items.size
  itemIds : x.itemIds = c.items.keys
  items : x.items = c.items.toList.map .ok

/-- The session shows the catalog: the writers are those of the catalog and agree with it, a searcher that is
    opened now agrees with the committed collection, and there is none for an index that is not committed. -/
structure Session.Agrees (s : Session) (m : Catalog) : Prop where
  writers : Entrywise (fun _ w entry => w.index = entry.1 ∧ w.Agrees entry.2) s.writers m.writers
  committed : ∀ (index : IndexId) (c : Collection), m.committed[index]? = some c →
    ∃ x, s.db.searcher index = .ok x ∧ x.Agrees c
  absent : ∀ index : IndexId, m.committed[index]? = none → s.db.searcher index = .error (.indexNotFound index)

section Agreement

variable {c : Collection} {head : Metadata} {nodes : IdMap Node}

theorem Collection.Of.size (h : c.Of head nodes) (hheaded : Headed head nodes) :
    head.size.toNat = c.items.size := by
  rw [hheaded.size, ← h.items]
  exact Std.ExtTreeMap.size_map.symm

theorem Draft.Sound.agrees {w : Writer} (h : w.draft.Sound nodes) (hof : c.Of w.draft.head nodes) :
    w.Agrees c where
  dimension := hof.dimension
  contains id := by rw [h.contains_eq id, hof.items]
  vector id := by
    have hid : w.draft.node id = .ok nodes[id]? := h.holds.shows id
    unfold Draft.vector
    rw [hid, ← hof.items, getElem?_vectors]
    rfl
  size := hof.size h.headed
  liveIds id := by rw [Draft.mem_liveIds h.holds.shows id, ← hof.items, mem_vectors]
  rejects change e := by
    have hdimension : w.draft.dimension = c.dimension := hof.dimension
    rw [← Change.apply_eq_error, ← hof.items, ← hdimension]
    unfold Writer.run
    rcases change.edit_on h with ⟨x, happly, hrun⟩ | ⟨items, d', happly, hrun, _⟩
    · rw [happly, hrun]
      simp only [Except.error.injEq]
    · rw [happly, hrun]
      constructor
      · intro h
        cases h
      · intro h
        cases h

theorem Committed.agrees {x : Searcher} (h : Committed x.head x.rows nodes) (hof : c.Of x.head nodes) :
    x.Agrees c := by
  -- the rows, each with the vector of its node, are the collection
  have hitems : c.items = x.rows.map fun id _ => vectorOf nodes id := by
    rw [← hof.items]
    apply Std.ExtTreeMap.ext_getElem?
    intro id
    rw [getElem?_vectors, Std.ExtTreeMap.getElem?_map]
    cases hnode : nodes[id]? with
    | none =>
        rw [not_mem_iff.mp fun hc => not_mem_iff.mpr hnode (h.mem_rows.mp hc)]
        rfl
    | some node =>
        obtain ⟨record, hrecord⟩ := mem_iff_exists.mp (h.mem_rows.mpr (mem_iff_exists.mpr ⟨node, hnode⟩))
        rw [hrecord, Option.map_some, Option.map_some, vectorOf, hnode]
        rfl
  refine ⟨hof.dimension, fun id => ?_, fun id => ?_, hof.size h.wellFormed.toHeaded, ?_, ?_⟩
  · rw [hitems, Std.ExtTreeMap.contains_map]
    rfl
  · unfold Searcher.vector
    rw [h.shows id, ← hof.items, getElem?_vectors]
    rfl
  · rw [hitems, Std.ExtTreeMap.keys_map]
    rfl
  · rw [h.items_eq.1, h.items_eq.2, hitems, Std.ExtTreeMap.toList_map, ← Std.ExtTreeMap.map_fst_toList_eq_keys,
      List.map_map (g := fun id => (id, vectorOf nodes id))]
    rfl

theorem Session.Mirrors.agrees {s : Session} {m : Catalog} (h : s.Mirrors m) : s.Agrees m where
  writers := h.writers.imp fun _ _ _ _ ⟨hindex, _, hsound, hof⟩ => ⟨hindex, hsound.agrees hof⟩
  committed index c hc := by
    obtain ⟨row, hrow, head, rows, found, hdecode, htable, hcommitted, hof⟩ := h.committed.to_some hc
    refine ⟨⟨index, head, rows⟩, Database.searcher_eq_ok.mpr ⟨rfl, ?_, ?_⟩, hcommitted.agrees hof⟩
    · exact Database.head_eq_some.mpr ⟨row, hrow, hdecode⟩
    · exact Database.rows_eq_ok.mpr (Or.inl htable)
  absent index hindex := by
    unfold Database.searcher
    rw [Database.head_eq_none.mpr (h.committed.none_iff.mpr hindex)]
    rfl

end Agreement

/-! ## Runs -/

/-- The answer to a step, if it is a call on an open file. -/
def World.answer (distances : Metric → Ranking) : World → Step → Option Answer
  | .opened s, .call c => some (s.step distances c).1
  | _, _ => none

/-- The steps of a program and the answers that it gets. -/
def World.transcript (distances : Metric → Ranking) : World → List Step → List (Step × Option Answer)
  | _, [] => []
  | world, step :: steps =>
      (step, world.answer distances step) :: (world.step distances step).transcript distances steps

/-- The catalog after a step and its answer: closing the file drops the writers. -/
def Catalog.follow (m : Catalog) : Step × Option Answer → Catalog
  | (.call c, some answer) => m.answered c answer
  | (.call _, none) => m
  | (.openFile _, _) => m
  | (.closeFile, _) => { m with writers := ∅ }

/-- The catalog that the steps of a program and their answers lead to. -/
def Catalog.run (distances : Metric → Ranking) (steps : List Step) : Catalog :=
  ((World.closed Store.empty).transcript distances steps).foldl Catalog.follow Catalog.empty

/-- The file holds the collections of the catalog. -/
def World.Mirrors : World → Catalog → Prop
  | .closed store, m => m.writers = ∅ ∧ ∃ metadata, store.metadata = .rows metadata ∧
      Entrywise (Stored store.nodes) metadata m.committed
  | .opened s, m => s.Mirrors m

theorem World.Mirrors.step {world : World} {m : Catalog} (h : world.Mirrors m) (hsound : world.Sound)
    (distances : Metric → Ranking) (step : Step) :
    (world.step distances step).Mirrors (m.follow (step, world.answer distances step)) := by
  cases world with
  | closed store =>
      obtain ⟨hwriters, metadata, hmetadata, hcommitted⟩ := h
      cases step with
      | openFile config =>
          unfold World.step
          dsimp only
          cases hopen : Database.openFile config (.store store) with
          | error e => exact ⟨hwriters, metadata, hmetadata, hcommitted⟩
          | ok db =>
              obtain ⟨_, rows, hrows, _, rfl⟩ := Database.openFile_eq_ok hopen
              rw [hmetadata, Table.rows.injEq] at hrows
              subst hrows
              refine ⟨hcommitted, ?_⟩
              show Entrywise _ ∅ m.writers
              rw [hwriters]
              exact entrywise_empty
      | closeFile => exact ⟨rfl, metadata, hmetadata, hcommitted⟩
      | call c => exact ⟨hwriters, metadata, hmetadata, hcommitted⟩
  | opened s =>
      cases step with
      | openFile config => exact h
      | closeFile => exact ⟨rfl, s.db.metadata, rfl, h.committed⟩
      | call c => exact Session.Mirrors.step h hsound distances c

/-- **World and catalog stay in step** through every run. -/
theorem World.mirrors_run (distances : Metric → Ranking) (steps : List Step) :
    (World.run distances steps).Mirrors (Catalog.run distances steps) := by
  have hall : ∀ (steps : List Step) (world : World) (m : Catalog), world.Sound → world.Mirrors m →
      (steps.foldl (World.step distances) world).Mirrors
        ((world.transcript distances steps).foldl Catalog.follow m) := by
    intro steps
    induction steps with
    | nil => exact fun _ _ _ h => h
    | cons step steps ih =>
        exact fun world m hsound h => ih _ _ (World.sound_step hsound distances step)
          (h.step hsound distances step)
  exact hall steps _ _ ⟨∅, rfl, tables_empty⟩ ⟨rfl, ∅, rfl, entrywise_empty⟩

section Results

variable {distances : Metric → Ranking} {steps : List Step} {s : Session}

/-- **An index is a map from ids to vectors.** After every run that starts from an empty file, whatever the
    distances and the levels drawn, the open writers and a searcher opened on any index show the collections
    that the calls of the run and their answers lead to, and the next change of a writer is accepted or
    rejected as its collection says, never for a fault of the file. -/
theorem run_agrees (hrun : World.run distances steps = .opened s) :
    s.Agrees (Catalog.run distances steps) ∧
    ∀ (handle : Handle) (index : IndexId) (c : Collection),
      (Catalog.run distances steps).writers[handle]? = some (index, c) → ∀ change : Change,
      ((s.change handle change).1 = .done (.ok ()) ↔ ∀ e, ¬change.Rejects c.dimension c.items e) ∧
      (∀ e, (s.change handle change).1 = .done (.error e) ↔ change.Rejects c.dimension c.items e) ∧
      ∀ fault, (s.change handle change).1 ≠ .done (.error (.storage fault)) := by
  have hmirrors := World.mirrors_run distances steps
  rw [hrun] at hmirrors
  have hagrees := hmirrors.agrees
  refine ⟨hagrees, fun handle index c hc change => ?_⟩
  obtain ⟨w, hw, _, hwriter⟩ := hagrees.writers.to_some hc
  have hanswer : (s.change handle change).1 = .done (w.run change.edit).1 := by
    unfold Session.change
    rw [hw]
  have herror : ∀ e, (s.change handle change).1 = .done (.error e) ↔
      change.Rejects c.dimension c.items e := by
    intro e
    rw [hanswer, Answer.done.injEq]
    exact hwriter.rejects change e
  refine ⟨?_, herror, fun fault hfault => ?_⟩
  · simp only [← herror, hanswer, Answer.done.injEq]
    cases hresult : (w.run change.edit).1 with
    | ok u => simp
    | error e => simp
  · exact Change.Rejects.not_storage ((herror _).mp hfault)

theorem threeItems_catalog : ((Catalog.run Metric.rank threeItems).writers[(1 : Handle)]?.any fun entry =>
    (entry.1 == 7 && entry.2.dimension == 1) && (entry.2.items.size == 3 && entry.2.items.contains 3)) = true := by
  decide +kernel

/-- The second writer counts three items, and rejects an id that it has. -/
theorem run_agrees_threeItems : ∃ (s : Session) (c : Collection),
    World.run Metric.rank threeItems = .opened s ∧
      (Catalog.run Metric.rank threeItems).writers[(1 : Handle)]? = some (7, c) ∧ c.items.size = 3 ∧
      (s.change 1 (.add 3 [⟨0x3f800000⟩])).1 = .done (.error (.duplicateId 3)) := by
  obtain ⟨s, _, _, hrun, _⟩ := threeItems_run
  obtain ⟨⟨index, c⟩, hentry, hshows⟩ := (Option.any_eq_true _ _).mp threeItems_catalog
  simp only [Bool.and_eq_true, beq_iff_eq] at hshows
  obtain ⟨⟨rfl, hdimension⟩, hsize, hthere⟩ := hshows
  refine ⟨s, c, hrun, hentry, hsize, ?_⟩
  refine (((run_agrees hrun).2 1 7 c hentry (.add 3 [⟨0x3f800000⟩])).2.1 _).mpr (Or.inr ⟨⟨?_, ?_⟩, ?_, rfl⟩)
  · exact hdimension.symm
  · intro x hx
    rw [List.mem_singleton.mp hx]
    rfl
  · exact Std.ExtTreeMap.mem_iff_contains.mpr hthere

end Results

end VectorIndex
