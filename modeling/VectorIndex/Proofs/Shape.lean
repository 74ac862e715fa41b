import VectorIndex.Proofs.Publication
import VectorIndex.Proofs.Transactions

/-!
# `VectorIndex.Proofs.Shape` — an index keeps its dimension and its metric

What an index is for is settled by the request for its first writer: the metric, and the dimension as far as 32
bits hold it (`Shape.requested`). No change of a draft and no commit touches either, and a later request must name
both, so they stay until the index is dropped (`run_keeps_shape`).

A request is refused for the dimension zero, but what is left of the dimension in 32 bits is not looked at. A
multiple of 2 ^ 32 is accepted for a new index, whose vectors are then empty, and once that is committed no request
for a writer is accepted any more.

## Contents
- **Shapes.** `Shape`, `Metadata.shape`, `shapeIn`.
- **Requests.** `Database.openWriter_shape`; `Tables.opens_new`; `Database.Insists`, what a request for an index that
  is there is answered, and `Tables.insists`.
- **Calls.** `Session.Shaped`, kept by each call, and `Session.shapeIn_step`.
- **Runs.** `run_opens_requested`, `run_keeps_shape`.
-/

namespace VectorIndex

/-! ## Shapes -/

/-- How long the vectors of an index are, and how they are compared. -/
structure Shape where
  dimension : UInt32
  metric : Metric
deriving DecidableEq

/-- The shape of a new index. The dimension is cut to 32 bits. -/
def Shape.requested (dimension : Nat) (metric : Metric) : Shape := ⟨UInt32.ofNat dimension, metric⟩

/-- The shape of the index that is described. -/
def Metadata.shape (head : Metadata) : Shape := ⟨head.dimension, head.metric⟩

/-- The shape of an index, if it is there. -/
def shapeIn (metadata : IndexMap Bytes) (index : IndexId) : Option Shape :=
  metadata[index]?.bind fun row => (Metadata.decode row).toOption.map Metadata.shape

section Shapes

variable {metadata : IndexMap Bytes} {index other : IndexId} {shape : Shape}

theorem Shape.toNat_requested (dimension : Nat) (metric : Metric) :
    (requested dimension metric).dimension.toNat = dimension % UInt32.size := UInt32.toNat_ofNat'

theorem shapeIn_eq_some_iff : shapeIn metadata index = some shape ↔
    ∃ row head, metadata[index]? = some row ∧ Metadata.decode row = .ok head ∧ head.shape = shape := by
  unfold shapeIn
  simp only [Option.bind_eq_some_iff, Option.map_eq_some_iff, toOption_eq_some]
  exact ⟨fun ⟨row, hrow, head, h⟩ => ⟨row, head, hrow, h⟩, fun ⟨row, head, hrow, h⟩ => ⟨row, hrow, head, h⟩⟩

theorem shapeIn_insert (head : Metadata) :
    shapeIn (metadata.insert index head.encode) other =
      if index = other then some head.shape else shapeIn metadata other := by
  unfold shapeIn
  rw [getElem?_insert_id]
  split
  · have hdecode := Metadata.decode_encode head []
    rw [List.append_nil] at hdecode
    rw [Option.bind_some, hdecode]
    rfl
  · rfl

theorem shapeIn_erase (hne : index ≠ other) : shapeIn (metadata.erase index) other = shapeIn metadata other := by
  unfold shapeIn
  rw [getElem?_erase_id, if_neg hne]

end Shapes

/-! ## Requests -/

section Requests

variable {db db' : Database} {index : IndexId} {dimension : Nat} {metric : Metric} {options : WriterOptions}
  {entropy : Random.Generator} {w : Writer} {shape : Shape}

/-- **The shape of a writer is the one asked for**, with the dimension cut to 32 bits, and also that of the index if
    it is there. -/
theorem Database.openWriter_shape
    (h : db.openWriter index dimension metric options entropy = .answered (.ok (w, db'))) :
    1 ≤ dimension ∧ w.index = index ∧ w.draft.head.shape = .requested dimension metric ∧
      ∀ shape, shapeIn db.metadata index = some shape → w.draft.head.shape = shape := by
  have hpos : 1 ≤ dimension := by
    refine Nat.pos_of_ne_zero fun hzero => ?_
    unfold openWriter at h
    rw [if_pos hzero] at h
    cases h
  obtain ⟨_, _, head, isNew, rows, generator, hhead, _, rfl⟩ := openWriter_eq_ok h
  refine ⟨hpos, rfl, ?_⟩
  rcases writerHead_eq_ok hhead with ⟨hnone, _, _, rfl⟩ | ⟨row, hrow, _, hdecode, rfl, rfl⟩
  · refine ⟨rfl, fun shape hshape => ?_⟩
    obtain ⟨row, _, hrow, _⟩ := shapeIn_eq_some_iff.mp hshape
    rw [hnone] at hrow
    cases hrow
  · refine ⟨?_, fun shape hshape => ?_⟩
    · unfold Shape.requested
      rw [UInt32.ofNat_toNat]
      rfl
    · obtain ⟨row', head', hrow', hdecode', rfl⟩ := shapeIn_eq_some_iff.mp hshape
      obtain rfl := Option.some.inj (hrow.symm.trans hrow')
      obtain rfl := Except.ok.inj (hdecode.symm.trans hdecode')
      rfl

/-- A request for a new index is accepted for every dimension but zero, also if nothing of it is left in 32 bits. -/
theorem Tables.opens_new (h : Tables db.metadata db.nodes) (hnew : db.metadata[index]? = none)
    (hfree : index ∉ db.writing) (hvalid : (options.params.getD db.config.params).Valid) (hdim : dimension ≠ 0) :
    ∃ w db', db.openWriter index dimension metric options entropy = .answered (.ok (w, db')) := by
  have hheld : ¬db.writing.contains index = true := fun hc => hfree (Std.ExtTreeSet.mem_iff_contains.mpr hc)
  have hhead : db.head index = .ok none := Database.head_eq_none.mpr hnew
  have hrows : db.rows index = .ok ∅ := Database.rows_eq_ok.mpr (Or.inr ⟨h.absent index hnew, rfl⟩)
  unfold Database.openWriter Database.writerHead
  rw [if_neg hdim, if_neg hheld, hhead, ok_bind]
  dsimp only
  rw [Params.check_eq_ok.mpr hvalid, ok_bind, pure_bind, hrows]
  exact ⟨_, _, rfl⟩

/-- A request for an index that is there and that nobody holds: the dimension is compared first, then the metric. -/
theorem Database.openWriter_of_head {head : Metadata} {rows : Rows} (hhead : db.head index = .ok (some head))
    (hrows : db.rows index = .ok rows) (hfree : index ∉ db.writing) (hdim : dimension ≠ 0) :
    db.openWriter index dimension metric options entropy = .answered
      (if dimension ≠ head.shape.dimension.toNat then
        .error (.dimensionMismatch head.shape.dimension.toNat dimension)
      else if metric ≠ head.shape.metric then .error (.metricMismatch head.shape.metric metric)
      else .ok (⟨index, false, Draft.ofRows head rows (options.generator entropy)⟩,
        { db with writing := db.writing.insert index })) := by
  have hheld : ¬db.writing.contains index = true := fun hc => hfree (Std.ExtTreeSet.mem_iff_contains.mpr hc)
  unfold openWriter writerHead
  rw [if_neg hdim, if_neg hheld, hhead, ok_bind, Request.answered.injEq]
  unfold Metadata.shape
  dsimp only
  by_cases hdimension : head.dimension.toNat = dimension
  · rw [if_neg (not_not_intro hdimension), if_neg (not_not_intro hdimension.symm)]
    by_cases hmetric : head.metric = metric
    · rw [if_neg (not_not_intro hmetric), if_neg (not_not_intro hmetric.symm), pure_bind, hrows]
      rfl
    · rw [if_pos hmetric, if_pos (Ne.symm hmetric)]
      rfl
  · rw [if_pos hdimension, if_pos (Ne.symm hdimension)]
    rfl

/-- Requests for a writer of the index are accepted for this shape only. -/
structure Database.Insists (db : Database) (index : IndexId) (shape : Shape) : Prop where
  zero : ∀ metric options entropy,
    db.openWriter index 0 metric options entropy = .answered (.error (.invalidParameter .dimension))
  dimension : ∀ dimension metric options entropy, dimension ≠ 0 → dimension ≠ shape.dimension.toNat →
    db.openWriter index dimension metric options entropy =
      .answered (.error (.dimensionMismatch shape.dimension.toNat dimension))
  metric : ∀ metric options entropy, shape.dimension.toNat ≠ 0 → metric ≠ shape.metric →
    db.openWriter index shape.dimension.toNat metric options entropy =
      .answered (.error (.metricMismatch shape.metric metric))
  opens : ∀ options entropy, shape.dimension.toNat ≠ 0 → ∃ w db',
    db.openWriter index shape.dimension.toNat shape.metric options entropy = .answered (.ok (w, db')) ∧
      w.draft.head.shape = shape

theorem Tables.insists (h : Tables db.metadata db.nodes) (hshape : shapeIn db.metadata index = some shape)
    (hfree : index ∉ db.writing) : db.Insists index shape := by
  obtain ⟨row, head, hrow, hdecode, rfl⟩ := shapeIn_eq_some_iff.mp hshape
  obtain ⟨head', rows, _, hdecode', htable, _⟩ := h.present index row hrow
  obtain rfl := Except.ok.inj (hdecode.symm.trans hdecode')
  have hhead : db.head index = .ok (some head) := Database.head_eq_some.mpr ⟨row, hrow, hdecode⟩
  have hrows : db.rows index = .ok rows := Database.rows_eq_ok.mpr (Or.inl htable)
  constructor
  · intro metric options entropy
    rfl
  · intro dimension metric options entropy hdim hne
    rw [Database.openWriter_of_head hhead hrows hfree hdim, if_pos hne]
  · intro metric options entropy hdim hne
    rw [Database.openWriter_of_head hhead hrows hfree hdim, if_neg (not_not_intro rfl), if_pos hne]
  · intro options entropy hdim
    rw [Database.openWriter_of_head hhead hrows hfree hdim, if_neg (not_not_intro rfl), if_neg (not_not_intro rfl)]
    exact ⟨_, _, rfl, rfl⟩

end Requests

/-! ## Calls -/

section Calls

variable {s : Session} {distances : Metric → Ranking} {c : Call} {handle : Handle} {index : IndexId} {w : Writer}
  {shape : Shape}

/-- A change leaves the shape of a writer as it is. -/
theorem Writer.Tracks.shape_run {db : Database} (h : w.Tracks db) (change : Change) :
    (w.run change.edit).2.draft.head.shape = w.draft.head.shape := by
  obtain ⟨nodes, hsound, _⟩ := h.sound
  have hcontinues := Change.run_continues hsound change
  unfold Metadata.shape
  rw [hcontinues.dimension, hcontinues.metric]

/-- **A commit writes the shape of its writer.** -/
theorem Database.shapeIn_commit {db : Database} (h : w.Tracks db) {allocated : UInt64}
    (hok : (db.commit w allocated).1 = .ok ()) (other : IndexId) : shapeIn (db.commit w allocated).2.metadata other =
      if w.index = other then some w.draft.head.shape else shapeIn db.metadata other := by
  have hfree : w.Tracks (db.release w.index) := h.of_rows rfl
  obtain ⟨_, d, _, hsettles⟩ := hfree.settles
  rcases hsettles.commit_cases allocated with ⟨e, hcommit, _⟩ | hcommit
  · rw [hcommit] at hok
    cases hok
  · rw [hcommit, ← hsettles.rebased.head]
    exact shapeIn_insert d.head

/-- After a commit the index is free. -/
theorem Database.not_mem_writing_commit (db : Database) (w : Writer) (allocated : UInt64) :
    w.index ∉ (db.commit w allocated).2.writing := by
  rw [commit_eq_publish]
  cases db.publish w allocated <;> simp [release]

/-- Vectors of the dimension of the index are accepted, and no others. -/
theorem Writer.Tracks.length_eq {db : Database} (h : w.Tracks db) {id : ItemId} {v : Embedding}
    (hok : (w.run (Change.add id v).edit).1 = .ok () ∨ (w.run (Change.update id v).edit).1 = .ok ()) :
    v.length = w.draft.head.dimension.toNat := by
  obtain ⟨nodes, hsound, _⟩ := h.sound
  have haccepted : ∀ c : Change, (w.run c.edit).1 = .ok () →
      ∃ items, c.apply w.draft.dimension (vectors nodes) = .ok items := by
    intro c hc
    rcases c.edit_on hsound with ⟨e, _, hrun⟩ | ⟨items, _, happly, _⟩
    · unfold Writer.run at hc
      rw [hrun] at hc
      cases hc
    · exact ⟨items, happly⟩
  have hcheck : Embedding.check w.draft.dimension v = .ok () := by
    rcases hok with hok | hok
    · obtain ⟨items, happly⟩ := haccepted _ hok
      obtain ⟨_, hcheck, _⟩ := bind_eq_ok.mp happly
      exact hcheck
    · obtain ⟨items, happly⟩ := haccepted _ hok
      obtain ⟨_, hcheck, _⟩ := bind_eq_ok.mp happly
      exact hcheck
  exact (Embedding.check_eq_ok.mp hcheck).1

/-- **What a call does to the shapes.** A commit that goes through writes the shape of its writer; the removal of an
    index takes one that nobody held. No other call changes one. -/
theorem Session.shapeIn_step (h : s.Sound) (distances : Metric → Ranking) (c : Call) :
    (∀ other, shapeIn (s.step distances c).2.db.metadata other = shapeIn s.db.metadata other) ∨
    (∃ handle allocated w, c = .commit handle allocated ∧ s.writers[handle]? = some w ∧
      ∀ other, shapeIn (s.step distances c).2.db.metadata other =
        if w.index = other then some w.draft.head.shape else shapeIn s.db.metadata other) ∨
    ∃ index, c = .dropIndex index ∧ index ∉ s.db.writing ∧
      ∀ other, index ≠ other → shapeIn (s.step distances c).2.db.metadata other = shapeIn s.db.metadata other := by
  rcases (Session.tables_step s distances c).2 with ⟨hsame, _⟩ | ⟨handle, allocated, w, _, _, rfl, hw, _⟩ |
    ⟨index, rfl, hfree, _, hdb⟩
  · rw [hsame]
    exact Or.inl fun _ => rfl
  · have hdb : (s.step distances (.commit handle allocated)).2.db = (s.db.commit w allocated).2 := by
      dsimp only [step, Session.commit]
      rw [hw]
    rw [hdb]
    cases hanswer : (s.db.commit w allocated).1 with
    | ok u =>
        exact Or.inr (Or.inl ⟨handle, allocated, w, rfl, hw,
          Database.shapeIn_commit (h.writers handle w hw) hanswer⟩)
    | error e =>
        rw [Database.commit_of_error hanswer]
        exact Or.inl fun _ => rfl
  · rw [hdb]
    exact Or.inr (Or.inr ⟨index, rfl, hfree, fun other hne => shapeIn_erase hne⟩)

/-- A writer of an index that is there has the shape of the index. -/
def Session.Shaped (s : Session) : Prop :=
  ∀ (handle : Handle) (w : Writer), s.writers[handle]? = some w → ∀ shape,
    shapeIn s.db.metadata w.index = some shape → w.draft.head.shape = shape

theorem Session.Shaped.step (h : s.Shaped) (hsound : s.Sound) (distances : Metric → Ranking) (c : Call) :
    (s.step distances c).2.Shaped := by
  intro other x hx shape hshape
  rcases Session.shapeIn_step hsound distances c with hsame | ⟨handle, _, w, rfl, hw, hwritten⟩ |
    ⟨dropped, rfl, hfree, hrest⟩
  · rw [hsame] at hshape
    rcases Session.writers_step hx with hold | ⟨index, _, _, _, _, w, _, _, hopen, rfl⟩ | ⟨change, w, _, hold, rfl⟩
    · exact h other x hold shape hshape
    · obtain ⟨_, rfl, _, hthere⟩ := Database.openWriter_shape hopen
      exact hthere shape hshape
    · rw [(hsound.writers other w hold).shape_run change]
      exact h other w hold shape hshape
  · have hold := (Session.writers_step hx).resolve_right (by simp)
    rw [hwritten] at hshape
    split at hshape
    · -- no other writer has the index
      rename_i heq
      obtain rfl := hsound.holders.unique (heldBy_eq hw) (heq ▸ heldBy_eq hold)
      obtain rfl := Option.some.inj (hw.symm.trans hold)
      exact Option.some.inj hshape
    · exact h other x hold shape hshape
  · have hold := (Session.writers_step hx).resolve_right (by simp)
    rw [hrest] at hshape
    · exact h other x hold shape hshape
    · rintro rfl
      exact hfree ((hsound.holders.mem_iff _).mpr ⟨other, heldBy_eq hold⟩)

/-- **An index that is there keeps its shape**, unless it is dropped. -/
theorem Session.Shaped.shapeIn_step (h : s.Shaped) (hsound : s.Sound) (distances : Metric → Ranking)
    (hkept : c ≠ .dropIndex index) (hshape : shapeIn s.db.metadata index = some shape) :
    shapeIn (s.step distances c).2.db.metadata index = some shape := by
  rcases Session.shapeIn_step hsound distances c with hsame | ⟨handle, _, w, _, hw, hwritten⟩ |
    ⟨dropped, rfl, _, hrest⟩
  · rw [hsame, hshape]
  · rw [hwritten]
    split
    · rename_i heq
      rw [h handle w hw shape (heq ▸ hshape)]
    · exact hshape
  · rw [hrest index fun heq => hkept (heq ▸ rfl), hshape]

/-- The call asks for a writer under the handle. -/
def Call.Opens (handle : Handle) : Call → Prop
  | .openWriter asked .. => asked = handle
  | _ => False

/-- A writer that was not opened meanwhile was there before, with the same shape. -/
theorem Session.Sound.writer_after (hsound : s.Sound) (distances : Metric → Ranking) {calls : List Call}
    (hcalls : ∀ c ∈ calls, ¬c.Opens handle) (hw : (s.after distances calls).writers[handle]? = some w) :
    ∃ before, s.writers[handle]? = some before ∧ w.index = before.index ∧
      w.draft.head.shape = before.draft.head.shape := by
  induction calls generalizing s with
  | nil => exact ⟨w, hw, rfl, rfl⟩
  | cons c calls ih =>
      obtain ⟨mid, hmid, hindex, hshape⟩ :=
        ih (hsound.step distances c) (fun c hc => hcalls c (List.mem_cons_of_mem _ hc)) hw
      rcases Session.writers_step hmid with hold | ⟨_, _, _, _, _, _, _, rfl, _⟩ | ⟨change, old, _, hold, rfl⟩
      · exact ⟨mid, hold, hindex, hshape⟩
      · exact absurd rfl (hcalls _ List.mem_cons_self)
      · exact ⟨old, hold, hindex, hshape.trans ((hsound.writers handle old hold).shape_run change)⟩

end Calls

/-! ## Runs -/

/-- The writers of an open file have the shapes of their indexes. -/
def World.Shaped (world : World) : Prop := ∀ s, world = .opened s → s.Shaped

/-- The index is in the file, with this shape. -/
def World.Has (index : IndexId) (shape : Shape) : World → Prop
  | .closed store => ∃ metadata, store.metadata = .rows metadata ∧ shapeIn metadata index = some shape
  | .opened s => shapeIn s.db.metadata index = some shape

section Runs

variable {distances : Metric → Ranking} {world : World} {index : IndexId} {shape : Shape} {s : Session}

theorem World.shaped_step (h : world.Shaped) (hsound : world.Sound) (step : Step) :
    (world.step distances step).Shaped := by
  intro s hs
  rcases World.opened_step hs with ⟨db, rfl⟩ | hsame | ⟨before, c, rfl, rfl, rfl⟩
  · intro handle w hw
    simp at hw
  · exact h s hsame
  · exact (h before rfl).step hsound distances c

theorem World.shaped_run (distances : Metric → Ranking) (steps : List Step) :
    (World.run distances steps).Shaped :=
  World.run_induction (P := World.Shaped) (fun s hs => by cases hs)
    (fun _ step hsound h => World.shaped_step h hsound step) steps

/-- An index of a file keeps its shape, also when the file is closed and opened. -/
theorem World.has_step (h : world.Shaped) (hsound : world.Sound) {step : Step}
    (hkept : step ≠ .call (.dropIndex index)) (hhas : world.Has index shape) :
    (world.step distances step).Has index shape := by
  cases world with
  | closed store =>
      cases step with
      | openFile config =>
          unfold World.step
          dsimp only
          split
          · exact hhas
          · rename_i db hopen
            obtain ⟨metadata, hmetadata, hshape⟩ := hhas
            obtain ⟨_, rows, hrows, _, rfl⟩ := Database.openFile_eq_ok hopen
            obtain rfl := Table.rows.inj (hmetadata.symm.trans hrows)
            exact hshape
      | closeFile => exact hhas
      | call c => exact hhas
  | opened s =>
      cases step with
      | openFile config => exact hhas
      | closeFile => exact ⟨s.db.metadata, rfl, hhas⟩
      | call c => exact (h s rfl).shapeIn_step hsound distances (fun hc => hkept (hc ▸ rfl)) hhas

theorem World.has_after (distances : Metric → Ranking) {later : List Step} (h : world.Shaped) (hsound : world.Sound)
    (hkept : .call (.dropIndex index) ∉ later) (hhas : world.Has index shape) :
    (later.foldl (World.step distances) world).Has index shape := by
  induction later generalizing world with
  | nil => exact hhas
  | cons step later ih =>
      have hstep : step ≠ .call (.dropIndex index) := fun heq => hkept (heq ▸ List.mem_cons_self)
      exact ih (World.shaped_step h hsound step) (World.sound_step hsound distances step)
        (fun hc => hkept (List.mem_cons_of_mem _ hc)) (World.has_step h hsound hstep hhas)

/-! ## Results -/

/-- **An index is opened for the shape asked for.** After every run, if a program asks for a writer under a handle
    that is not in use, and the writer is there after some more calls, then the dimension asked for is not zero, and
    the writer has the metric asked for and the dimension asked for, cut to 32 bits. It accepts vectors of that
    dimension only. If a commit of the writer goes through, the index has this shape, and further requests are
    accepted for this shape only. -/
theorem run_opens_requested {steps : List Step} (hrun : World.run distances steps = .opened s) {handle : Handle}
    (hunused : handle ∉ s.writers) (index : IndexId) (dimension : Nat) (metric : Metric) (options : WriterOptions)
    (entropy : Random.Generator) {calls : List Call} (hcalls : ∀ c ∈ calls, ¬c.Opens handle) {s' : Session}
    (hs' : s.after distances (.openWriter handle index dimension metric options entropy :: calls) = s')
    {w : Writer} (hw : s'.writers[handle]? = some w) :
    1 ≤ dimension ∧ w.index = index ∧
    w.draft.head.metric = metric ∧ w.draft.head.dimension.toNat = dimension % UInt32.size ∧
    (∀ id v, (w.run (Change.add id v).edit).1 = .ok () ∨ (w.run (Change.update id v).edit).1 = .ok () →
      v.length = dimension % UInt32.size) ∧
    (∀ allocated, (s'.db.commit w allocated).1 = .ok () →
      shapeIn (s'.db.commit w allocated).2.metadata index = some (.requested dimension metric) ∧
      (s'.db.commit w allocated).2.Insists index (.requested dimension metric)) := by
  have hsound := Session.Sound.of_run hrun
  have hopened := hsound.step distances (.openWriter handle index dimension metric options entropy)
  have hafter : s'.Sound := hs' ▸ hopened.after distances calls
  have htracks := hafter.writers handle w hw
  -- the writer goes back to the request, and that one was accepted
  subst hs'
  obtain ⟨first, hfirst, hindex, hshape⟩ := hopened.writer_after distances hcalls hw
  rcases Session.writers_step hfirst with hold | ⟨_, _, _, _, _, opened, _, heq, hopen, rfl⟩ | ⟨_, _, heq, _⟩
  · exact absurd (mem_iff_exists.mpr ⟨first, hold⟩) hunused
  · obtain ⟨-, rfl, rfl, rfl, rfl, rfl⟩ := Call.openWriter.inj heq
    obtain ⟨hpos, hat, hasked, _⟩ := Database.openWriter_shape hopen
    have hwriter : w.draft.head.shape = .requested dimension metric := hshape.trans hasked
    have hwat : w.index = index := hindex.trans hat
    have hdimension : w.draft.head.dimension.toNat = dimension % UInt32.size := by
      rw [← Shape.toNat_requested dimension metric, ← hwriter]
      rfl
    refine ⟨hpos, hwat, congrArg Shape.metric hwriter, hdimension, fun id v hv => ?_, fun allocated hok => ?_⟩
    · rw [htracks.length_eq hv, hdimension]
    · have hpublished := Database.shapeIn_commit htracks hok index
      rw [if_pos hwat, hwriter] at hpublished
      exact ⟨hpublished, (hafter.commit hw allocated).tables.insists hpublished
        (hwat ▸ Database.not_mem_writing_commit _ w allocated)⟩
  · cases heq

/-- Of 2 ^ 32 nothing is left: the vectors of the new index are empty. -/
example : Shape.requested UInt32.size .euclidean = ⟨0, .euclidean⟩ := rfl

/-- **An index keeps its shape.** If an index is there after some run, then, as long as it is not dropped, it has the
    same shape after whatever steps follow, the closing and opening of the file included. Its writers have that shape,
    and as long as there is none, requests are accepted for this shape only. -/
theorem run_keeps_shape {steps later : List Step} (hrun : World.run distances steps = .opened s)
    (hshape : shapeIn s.db.metadata index = some shape) (hkept : .call (.dropIndex index) ∉ later) {s' : Session}
    (hlater : World.run distances (steps ++ later) = .opened s') :
    shapeIn s'.db.metadata index = some shape ∧
    (∀ (handle : Handle) (w : Writer), s'.writers[handle]? = some w → w.index = index →
      w.draft.head.shape = shape) ∧
    (index ∉ s'.db.writing → s'.db.Insists index shape) := by
  have hafter : later.foldl (World.step distances) (World.run distances steps) = .opened s' := by
    rw [← hlater]
    exact (List.foldl_append ..).symm
  have hbefore : (World.run distances steps).Has index shape := hrun ▸ hshape
  have hhas := World.has_after distances (World.shaped_run distances steps) (World.sound_run distances steps) hkept
    hbefore
  rw [hafter] at hhas
  refine ⟨hhas, fun handle w hw hindex => ?_, fun hfree => ?_⟩
  · exact World.shaped_run distances (steps ++ later) s' hlater handle w hw shape (hindex ▸ hhas)
  · exact (Session.Sound.of_run hlater).tables.insists hhas hfree

end Runs

end VectorIndex
