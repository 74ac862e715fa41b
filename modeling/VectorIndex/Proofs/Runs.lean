import VectorIndex.Proofs.Session

/-!
# `VectorIndex.Proofs.Runs` — what holds after every run

`World.Sound` is the invariant of all runs that start from an empty file: every index of the file is
committed, every writer holds a sound draft over the committed rows of its index, no two writers share an index, and
searchers keep the committed index they were opened on. One lemma per call says that the call keeps it
(`Session.Sound.step`), and `World.sound_run` is the induction over the run.

The results say what a program can see of this: well-formed indexes (`run_wellFormed`) and commits that
reach every item (`run_reconnected`).

## Contents
- **Tables.** `Tables`, and what puts and takes an index.
- **Writers and what they hold.** `Owned`, `heldBy`, `Holders`.
- **Sessions.** `Session.Sound`, kept by each call.
- **Runs.** `World.Sound`, `World.sound_run`; `threeItems`, a run on which the results are tried.
- **Results.** `run_wellFormed`, `run_reconnected`.
-/

namespace VectorIndex

/-! ## Tables -/

/-- Every index has a description and rows that hold together, or neither. -/
structure Tables (metadata : IndexMap Bytes) (nodes : IndexMap (Table Rows)) : Prop where
  absent : ∀ index : IndexId, metadata[index]? = none → nodes[index]? = none
  present : ∀ (index : IndexId) (row : Bytes), metadata[index]? = some row →
    ∃ head rows found, Metadata.decode row = .ok head ∧ nodes[index]? = some (.rows rows) ∧
      Committed head rows found

section Tables

variable {metadata : IndexMap Bytes} {nodes : IndexMap (Table Rows)} {index : IndexId} {db : Database}

theorem tables_empty : Tables ∅ ∅ := by
  constructor
  · intro index _
    simp
  · intro index row h
    simp at h

theorem Tables.insert (h : Tables metadata nodes) {head : Metadata} {rows : Rows} {found : IdMap Node}
    (hc : Committed head rows found) :
    Tables (metadata.insert index head.encode) (nodes.insert index (.rows rows)) := by
  constructor
  · intro other hother
    rw [getElem?_insert_id] at hother ⊢
    by_cases heq : index = other
    · rw [if_pos heq] at hother
      cases hother
    · rw [if_neg heq] at hother ⊢
      exact h.absent other hother
  · intro other row hother
    rw [getElem?_insert_id] at hother ⊢
    by_cases heq : index = other
    · rw [if_pos heq, Option.some.injEq] at hother
      subst hother
      have hdecode := Metadata.decode_encode head []
      rw [List.append_nil] at hdecode
      exact ⟨head, rows, found, hdecode, by rw [if_pos heq], hc⟩
    · rw [if_neg heq] at hother ⊢
      exact h.present other row hother

theorem Tables.erase (h : Tables metadata nodes) : Tables (metadata.erase index) (nodes.erase index) := by
  constructor
  · intro other hother
    rw [getElem?_erase_id] at hother ⊢
    by_cases heq : index = other
    · rw [if_pos heq]
    · rw [if_neg heq] at hother ⊢
      exact h.absent other hother
  · intro other row hother
    rw [getElem?_erase_id] at hother ⊢
    by_cases heq : index = other
    · rw [if_pos heq] at hother
      cases hother
    · rw [if_neg heq] at hother ⊢
      exact h.present other row hother

/-- An index that is there has a searcher. -/
theorem Tables.searcher (h : Tables db.metadata db.nodes) (hindex : index ∈ db.metadata) :
    ∃ head rows found, db.searcher index = .ok ⟨index, head, rows⟩ ∧ Committed head rows found := by
  obtain ⟨row, hrow⟩ := mem_iff_exists.mp hindex
  obtain ⟨head, rows, found, hdecode, hrows, hc⟩ := h.present index row hrow
  refine ⟨head, rows, found, Database.searcher_eq_ok.mpr ⟨rfl, ?_, ?_⟩, hc⟩
  · exact Database.head_eq_some.mpr ⟨row, hrow, hdecode⟩
  · exact Database.rows_eq_ok.mpr (Or.inl hrows)

/-- A searcher is opened on a committed index. -/
theorem Tables.of_searcher (h : Tables db.metadata db.nodes) {x : Searcher} (hx : db.searcher index = .ok x) :
    ∃ found, Committed x.head x.rows found := by
  obtain ⟨_, hhead, _⟩ := Database.searcher_eq_ok.mp hx
  obtain ⟨row, hrow, _⟩ := Database.head_eq_some.mp hhead
  obtain ⟨head, rows, found, heq, hc⟩ := h.searcher (mem_iff_exists.mpr ⟨row, hrow⟩)
  obtain rfl := Except.ok.inj (heq.symm.trans hx)
  exact ⟨found, hc⟩

/-- A writer starts from a committed index, or from a new one. -/
theorem Tables.writerHead (h : Tables db.metadata db.nodes) {dimension : Nat} {metric : Metric}
    {params : Option Params} {head : Metadata} {isNew : Bool} {rows : Rows}
    (hhead : db.writerHead index dimension metric params = .ok (head, isNew))
    (hrows : db.rows index = .ok rows) : ∃ found, Committed head rows found := by
  unfold Database.rows at hrows
  rcases Database.writerHead_eq_ok hhead with ⟨hrow, _, hvalid, rfl⟩ | ⟨row, hrow, _, hdecode, _⟩
  · rw [h.absent index hrow] at hrows
    obtain rfl := Except.ok.inj hrows
    exact ⟨∅, committed_fresh hvalid dimension metric⟩
  · obtain ⟨head', rows', found, hdecode', htable, hc⟩ := h.present index row hrow
    rw [htable] at hrows
    obtain rfl := Except.ok.inj hrows
    obtain rfl := Except.ok.inj (hdecode.symm.trans hdecode')
    exact ⟨found, hc⟩

end Tables

/-! ## Writers and what they hold -/

/-- Every held index has one owner. -/
structure Owned {η : Type} (held : Std.ExtTreeSet IndexId) (owns : η → Option IndexId) : Prop where
  mem_iff : ∀ index, index ∈ held ↔ ∃ a, owns a = some index
  unique : ∀ {a b : η} {index : IndexId}, owns a = some index → owns b = some index → a = b

section Owned

variable {η : Type} {held : Std.ExtTreeSet IndexId} {owns owns' : η → Option IndexId} {a : η} {index : IndexId}

theorem owned_empty (h : ∀ a, owns a = none) : Owned ∅ owns := by
  refine ⟨fun index => ?_, fun {a b index} ha _ => ?_⟩
  · simp [h]
  · rw [h a] at ha
    cases ha

/-- An index is taken that nobody has. -/
theorem Owned.take (h : Owned held owns) (hnone : owns a = none) (hfree : index ∉ held)
    (hnew : owns' a = some index) (hothers : ∀ b, b ≠ a → owns' b = owns b) : Owned (held.insert index) owns' := by
  have hout : ∀ b, owns b ≠ some index := fun b hb => hfree ((h.mem_iff index).mpr ⟨b, hb⟩)
  refine ⟨fun other => ?_, fun {b c other} hb hc => ?_⟩
  · rw [Std.ExtTreeSet.mem_insert, Std.LawfulEqCmp.compare_eq_iff_eq, h.mem_iff]
    constructor
    · rintro (rfl | ⟨b, hb⟩)
      · exact ⟨a, hnew⟩
      · refine ⟨b, ?_⟩
        rw [hothers b, hb]
        rintro rfl
        rw [hnone] at hb
        cases hb
    · rintro ⟨b, hb⟩
      by_cases hba : b = a
      · rw [hba, hnew] at hb
        exact Or.inl (Option.some.inj hb)
      · rw [hothers b hba] at hb
        exact Or.inr ⟨b, hb⟩
  · by_cases hba : b = a <;> by_cases hca : c = a
    · exact hba.trans hca.symm
    · rw [hba, hnew, Option.some.injEq] at hb
      rw [hothers c hca, ← hb] at hc
      exact absurd hc (hout c)
    · rw [hca, hnew, Option.some.injEq] at hc
      rw [hothers b hba, ← hc] at hb
      exact absurd hb (hout b)
    · rw [hothers b hba] at hb
      rw [hothers c hca] at hc
      exact h.unique hb hc

/-- An owner gives its index back. -/
theorem Owned.release (h : Owned held owns) (hmine : owns a = some index) (hnew : owns' a = none)
    (hothers : ∀ b, b ≠ a → owns' b = owns b) : Owned (held.erase index) owns' := by
  have hback : ∀ {b : η} {other : IndexId}, owns' b = some other ↔ b ≠ a ∧ owns b = some other := by
    intro b other
    by_cases hba : b = a
    · rw [hba, hnew]
      simp
    · rw [hothers b hba, and_iff_right hba]
  refine ⟨fun other => ?_, fun hb hc => h.unique (hback.mp hb).2 (hback.mp hc).2⟩
  rw [Std.ExtTreeSet.mem_erase, Ne, Std.LawfulEqCmp.compare_eq_iff_eq, h.mem_iff]
  simp only [hback]
  constructor
  · rintro ⟨hne, b, hb⟩
    refine ⟨b, ?_, hb⟩
    rintro rfl
    exact hne (Option.some.inj (hmine.symm.trans hb))
  · rintro ⟨b, hba, hb⟩
    refine ⟨?_, b, hb⟩
    rintro rfl
    exact hba (h.unique hb hmine)

end Owned

/-- The index that a handle writes to. -/
def heldBy (writers : Std.ExtTreeMap Handle Writer) (handle : Handle) : Option IndexId :=
  writers[handle]?.map Writer.index

/-- The indexes that are held are those of the writers, and each has one writer. -/
structure Holders (held : Std.ExtTreeSet IndexId) (writers : Std.ExtTreeMap Handle Writer) : Prop where
  mem_iff : ∀ index, index ∈ held ↔ ∃ handle, heldBy writers handle = some index
  unique : ∀ {a b : Handle} {index : IndexId}, heldBy writers a = some index →
    heldBy writers b = some index → a = b

section Holders

variable {held : Std.ExtTreeSet IndexId} {writers : Std.ExtTreeMap Handle Writer} {handle other : Handle}
  {w : Writer}

theorem holders_iff : Holders held writers ↔ Owned held (heldBy writers) :=
  ⟨fun h => ⟨h.mem_iff, h.unique⟩, fun h => ⟨h.mem_iff, h.unique⟩⟩

theorem heldBy_eq (hw : writers[handle]? = some w) : heldBy writers handle = some w.index := by
  unfold heldBy
  rw [hw, Option.map_some]

theorem heldBy_eq_none (hunused : ¬writers.contains handle = true) : heldBy writers handle = none := by
  unfold heldBy
  rw [not_mem_iff.mp fun hc => hunused (Std.ExtTreeMap.mem_iff_contains.mp hc), Option.map_none]

theorem heldBy_insert :
    heldBy (writers.insert handle w) other =
      if handle = other then some w.index else heldBy writers other := by
  unfold heldBy
  rw [getElem?_insert_id]
  split <;> rfl

theorem heldBy_erase :
    heldBy (writers.erase handle) other = if handle = other then none else heldBy writers other := by
  unfold heldBy
  rw [getElem?_erase_id]
  split <;> rfl

theorem holders_empty : Holders ∅ ∅ :=
  holders_iff.mpr (owned_empty fun handle => by simp [heldBy])

/-- A writer takes an index that nobody holds. -/
theorem Holders.insert (h : Holders held writers) (hunused : heldBy writers handle = none)
    {index : IndexId} (hindex : w.index = index) (hfree : index ∉ held) :
    Holders (held.insert index) (writers.insert handle w) := by
  subst hindex
  refine holders_iff.mpr ((holders_iff.mp h).take hunused hfree ?_ fun other hne => ?_)
  · rw [heldBy_insert, if_pos rfl]
  · rw [heldBy_insert, if_neg hne.symm]

/-- A writer is replaced by one of the same index. -/
theorem Holders.replace (h : Holders held writers) {w' : Writer} (hw : writers[handle]? = some w)
    (hindex : w'.index = w.index) : Holders held (writers.insert handle w') := by
  have hsame : heldBy (writers.insert handle w') = heldBy writers := by
    funext other
    rw [heldBy_insert]
    split
    · rename_i heq
      rw [← heq, heldBy_eq hw, hindex]
    · rfl
  constructor
  · intro index
    rw [hsame]
    exact h.mem_iff index
  · intro a b index ha hb
    rw [hsame] at ha hb
    exact h.unique ha hb

/-- A writer is gone, and its index is free. -/
theorem Holders.erase (h : Holders held writers) (hw : writers[handle]? = some w) :
    Holders (held.erase w.index) (writers.erase handle) := by
  refine holders_iff.mpr ((holders_iff.mp h).release (heldBy_eq hw) ?_ fun other hne => ?_)
  · rw [heldBy_erase, if_pos rfl]
  · rw [heldBy_erase, if_neg hne.symm]

/-- The other writers write to other indexes. -/
theorem Holders.index_ne (h : Holders held writers) {x : Writer} (hw : writers[handle]? = some w)
    (hx : (writers.erase handle)[other]? = some x) : x.index ≠ w.index := by
  intro heq
  have hother := getElem?_of_erase hx
  obtain rfl := h.unique (heldBy_eq hw) (heq ▸ heldBy_eq hother)
  rw [getElem?_erase_id, if_pos rfl] at hx
  cases hx

end Holders

/-! ## Sessions -/

/-- What holds of a session between two calls. -/
structure Session.Sound (s : Session) : Prop where
  tables : Tables s.db.metadata s.db.nodes
  writers : ∀ (handle : Handle) (w : Writer), s.writers[handle]? = some w → w.Tracks s.db
  holders : Holders s.db.writing s.writers
  searchers : ∀ (handle : Handle) (x : Searcher), s.searchers[handle]? = some x →
    ∃ found, Committed x.head x.rows found

/-- A writer looks at the rows of its own index only. -/
theorem Writer.Tracks.of_rows {w : Writer} {db db' : Database} (h : w.Tracks db)
    (hrows : db'.rows w.index = db.rows w.index) : w.Tracks db' where
  base := by
    rw [hrows]
    exact h.base
  sound := h.sound

/-- A writer on a committed index. -/
theorem Committed.tracks {head : Metadata} {rows : Rows} {found : IdMap Node} (h : Committed head rows found)
    {db : Database} {index : IndexId} (hrows : db.rows index = .ok rows) (isNew : Bool)
    (generator : Random.Generator) (distances : Metric → Ranking) :
    (Writer.rankedBy ⟨index, isNew, Draft.ofRows head rows generator⟩ distances).Tracks db where
  base := ⟨rows, hrows, Or.inl ⟨rfl, rfl⟩⟩
  sound := ⟨found, h.sound (distances head.metric) generator, fun _ => h.spans⟩

/-- A call on the writer goes through or is rejected; in both cases the writer goes on. -/
theorem Writer.Tracks.run {w : Writer} {db : Database} (h : w.Tracks db) (c : Change) :
    (w.run c.edit).2.Tracks db ∧ (w.run c.edit).2.index = w.index := by
  refine ⟨?_, rfl⟩
  obtain ⟨rows, hrows, hbase⟩ := h.base
  obtain ⟨nodes, hsound, hspans⟩ := h.sound
  unfold Writer.run
  rcases c.edit_on hsound with ⟨e, _, hrun⟩ | ⟨items, d', _, hrun, nodes', hsound', _, hcontinues, haltered⟩
  · rw [hrun]
    exact h
  · rw [hrun]
    exact ⟨⟨rows, hrows, hbase.continues hcontinues⟩, nodes', hsound', fun hc => absurd haltered hc⟩

namespace Session

variable {s : Session} {handle : Handle} {index : IndexId} {w : Writer}

theorem Sound.openWriter (h : s.Sound) (distances : Metric → Ranking) {dimension : Nat} {metric : Metric}
    {options : WriterOptions} {entropy : Random.Generator} {w : Writer} {db : Database}
    (hunused : ¬s.writers.contains handle = true)
    (hopen : s.db.openWriter index dimension metric options entropy = .answered (.ok (w, db))) :
    ({ s with db := db, writers := s.writers.insert handle (w.rankedBy distances) } : Session).Sound := by
  obtain ⟨hfree, rfl, head, isNew, rows, generator, hhead, hrows, rfl⟩ := Database.openWriter_eq_ok hopen
  obtain ⟨found, hc⟩ := h.tables.writerHead hhead hrows
  refine ⟨h.tables, fun other x hx => ?_, h.holders.insert (heldBy_eq_none hunused) rfl hfree, h.searchers⟩
  rcases getElem?_of_insert hx with rfl | hx
  · exact (hc.tracks hrows isNew generator distances).of_rows rfl
  · exact (h.writers other x hx).of_rows rfl

theorem Sound.change (h : s.Sound) (hw : s.writers[handle]? = some w) (c : Change) :
    ({ s with writers := s.writers.insert handle (w.run c.edit).2 } : Session).Sound := by
  obtain ⟨htracks, hindex⟩ := (h.writers handle w hw).run c
  refine ⟨h.tables, fun other x hx => ?_, h.holders.replace hw hindex, h.searchers⟩
  rcases getElem?_of_insert hx with rfl | hx
  · exact htracks
  · exact h.writers other x hx

/-- A writer is gone, and no index but its own has other tables. -/
theorem Sound.finish (h : s.Sound) (hw : s.writers[handle]? = some w) {db : Database}
    (htables : Tables db.metadata db.nodes) (hwriting : db.writing = s.db.writing.erase w.index)
    (hrows : ∀ i, i ≠ w.index → db.rows i = s.db.rows i) :
    ({ s with db := db, writers := s.writers.erase handle } : Session).Sound := by
  refine ⟨htables, fun other x hx => ?_, hwriting ▸ h.holders.erase hw, h.searchers⟩
  exact (h.writers other x (getElem?_of_erase hx)).of_rows (hrows x.index (h.holders.index_ne hw hx))

theorem Sound.commit (h : s.Sound) (hw : s.writers[handle]? = some w) (allocated : UInt64) :
    ({ s with db := (s.db.commit w allocated).2, writers := s.writers.erase handle } : Session).Sound := by
  have htracks : w.Tracks (s.db.release w.index) := (h.writers handle w hw).of_rows rfl
  rcases Database.commit_cases htracks allocated with ⟨e, hcommit, _⟩ | ⟨head, rows, nodes, hc, hcommit⟩
  · rw [hcommit]
    exact h.finish hw h.tables rfl fun _ _ => rfl
  · rw [hcommit]
    refine h.finish hw (h.tables.insert hc) rfl fun i hne => ?_
    unfold Database.rows Database.withIndex
    dsimp only
    rw [getElem?_insert_id, if_neg fun heq => hne heq.symm]
    rfl

theorem Sound.openSearcher (h : s.Sound) (handle : Handle) {x : Searcher} (hx : s.db.searcher index = .ok x) :
    ({ s with searchers := s.searchers.insert handle x } : Session).Sound := by
  refine ⟨h.tables, h.writers, h.holders, fun other y hy => ?_⟩
  rcases getElem?_of_insert hy with rfl | hy
  · exact h.tables.of_searcher hx
  · exact h.searchers other y hy

theorem Sound.dropIndex (h : s.Sound) {db : Database} (hdrop : s.db.dropIndex index = .ok db) :
    ({ s with db := db } : Session).Sound := by
  obtain ⟨hfree, _, rfl⟩ := Database.dropIndex_eq_ok hdrop
  refine ⟨h.tables.erase, fun handle w hw => (h.writers handle w hw).of_rows ?_, h.holders, h.searchers⟩
  -- no writer holds the index
  have hne : index ≠ w.index := by
    rintro rfl
    exact hfree ((h.holders.mem_iff _).mpr ⟨handle, heldBy_eq hw⟩)
  unfold Database.rows
  dsimp only
  rw [getElem?_erase_id, if_neg hne]

/-- **Every call keeps the invariant**, whatever it answers. -/
theorem Sound.step (h : s.Sound) (distances : Metric → Ranking) (c : Call) :
    (s.step distances c).2.Sound := by
  have hmoves := s.step_moves distances c
  generalize (s.step distances c).1 = answer, (s.step distances c).2 = s' at hmoves ⊢
  cases hmoves with
  | refuses | fails => exact h
  | opens hunused hopen => exact h.openWriter distances hunused hopen
  | changes change hw => exact h.change hw change
  | commits allocated hw => exact h.commit hw allocated
  | aborts hw => exact h.finish hw h.tables rfl fun _ _ => rfl
  | shows hx => exact h.openSearcher _ hx
  | closes handle => exact { h with searchers := fun other x hx => h.searchers other x (getElem?_of_erase hx) }
  | drops hdrop => exact h.dropIndex hdrop

end Session

/-- A database just opened has no writers and no searchers. -/
theorem Tables.session {db : Database} (h : Tables db.metadata db.nodes) (hfree : db.writing = ∅) :
    (Session.mk db ∅ ∅).Sound := by
  refine ⟨h, fun handle w hw => ?_, ?_, fun handle x hx => ?_⟩
  · simp at hw
  · dsimp only
    rw [hfree]
    exact holders_empty
  · simp at hx

/-! ## Runs -/

/-- What holds of a file between two steps. -/
def World.Sound : World → Prop
  | .closed store => ∃ metadata, store.metadata = .rows metadata ∧ Tables metadata store.nodes
  | .opened s => s.Sound

theorem World.sound_step {world : World} (h : world.Sound) (distances : Metric → Ranking) (step : Step) :
    (world.step distances step).Sound := by
  cases world with
  | closed store =>
      cases step with
      | openFile config =>
          obtain ⟨metadata, hmetadata, htables⟩ := h
          unfold World.step
          dsimp only
          cases hopen : Database.openFile config (.store store) with
          | error e => exact ⟨metadata, hmetadata, htables⟩
          | ok db =>
              obtain ⟨_, rows, hrows, _, rfl⟩ := Database.openFile_eq_ok hopen
              obtain rfl := Table.rows.inj (hmetadata.symm.trans hrows)
              exact htables.session rfl
      | closeFile => exact h
      | call c => exact h
  | opened s =>
      cases step with
      | openFile config => exact h
      | closeFile => exact ⟨s.db.metadata, rfl, h.tables⟩
      | call c => exact h.step distances c

/-- **The invariant holds after every run.** -/
theorem World.sound_run (distances : Metric → Ranking) (steps : List Step) :
    (World.run distances steps).Sound := by
  have hall : ∀ (steps : List Step) (world : World), world.Sound →
      (steps.foldl (World.step distances) world).Sound := by
    intro steps
    induction steps with
    | nil => exact fun _ h => h
    | cons step steps ih => exact fun world h => ih _ (World.sound_step h distances step)
  exact hall steps _ ⟨∅, rfl, tables_empty⟩

/-- What holds of an empty file and is kept by each step of a sound world holds after every run. -/
theorem World.run_induction {distances : Metric → Ranking} {P : World → Prop} (hempty : P (.closed Store.empty))
    (hstep : ∀ world step, world.Sound → P world → P (world.step distances step)) (steps : List Step) :
    P (World.run distances steps) := by
  have hall : ∀ (steps : List Step) (world : World), world.Sound → P world →
      P (steps.foldl (World.step distances) world) := by
    intro steps
    induction steps with
    | nil => exact fun _ _ h => h
    | cons step steps ih =>
        exact fun world hsound h => ih _ (World.sound_step hsound distances step) (hstep world step hsound h)
  exact hall steps _ ⟨∅, rfl, tables_empty⟩ hempty

/-- The session, if the file is open. -/
def World.session : World → Option Session
  | .closed _ => none
  | .opened s => some s

theorem World.session_eq_some {world : World} {s : Session} :
    world.session = some s ↔ world = .opened s := by
  cases world <;> simp [session]

/-- A call that went through is an edit that did. -/
theorem Writer.run_eq_ok {w w' : Writer} {edit : Edit Unit} (h : w.run edit = (.ok (), w')) :
    edit.on w.draft = (.ok (), w'.draft) := by
  unfold Writer.run at h
  obtain ⟨hanswer, rfl⟩ := Prod.mk.inj h
  exact Prod.ext hanswer rfl

/-- An answer that is there is a success. -/
theorem eq_ok_of_isSome {β : Type} {x : Except Error Unit × β} (h : x.1.toOption.isSome = true) :
    x = (.ok (), x.2) := by
  obtain ⟨u, hu⟩ := Option.isSome_iff_exists.mp h
  exact Prod.ext (toOption_eq_some.mp hu) rfl

/-- A run: two items are committed, and a second writer has added a third. As in all runs that are carried out here,
the index has a single layer: to draw a level among several takes a logarithm of floating-point numbers, which the
kernel does not evaluate. -/
def threeItems : List Step :=
  [.openFile ⟨4, 1000000, none, ⟨2, 2, 1, ⟨0x3ff0000000000000⟩, 1⟩⟩,
    .call (.openWriter 0 7 1 .euclidean .default (.ofSeed 0)),
    .call (.change 0 (.add 1 [⟨0x3f800000⟩])),
    .call (.change 0 (.add 2 [⟨0x40000000⟩])),
    .call (.commit 0 8192),
    .call (.openWriter 1 7 1 .euclidean .default (.ofSeed 0)),
    .call (.change 1 (.add 3 [⟨0x40400000⟩]))]

theorem threeItems_shows : ((World.run Metric.rank threeItems).session.any fun s =>
    (s.writers[(1 : Handle)]?.any fun w => w.isChanged && w.draft.head.size == 3) &&
    (s.db.searcher 7).toOption.any fun x => x.dimension == 1 && x.items.length == 2) = true := by
  decide +kernel

/-- What the run leaves: a writer that counts three items, and two items for a searcher. -/
theorem threeItems_run : ∃ s w x, World.run Metric.rank threeItems = .opened s ∧
    (s.writers[(1 : Handle)]? = some w ∧ w.isChanged = true ∧ w.draft.head.size = 3) ∧
    s.db.searcher 7 = .ok x ∧ x.dimension = 1 ∧ x.items.length = 2 := by
  obtain ⟨s, hs, hshows⟩ := (Option.any_eq_true _ _).mp threeItems_shows
  obtain ⟨hwriter, hsearcher⟩ := Bool.and_eq_true_iff.mp hshows
  obtain ⟨w, hw, hcounts⟩ := (Option.any_eq_true _ _).mp hwriter
  obtain ⟨x, hx, hlists⟩ := (Option.any_eq_true _ _).mp hsearcher
  rw [Bool.and_eq_true_iff, beq_iff_eq] at hcounts hlists
  rw [beq_iff_eq] at hlists
  exact ⟨s, w, x, World.session_eq_some.mp hs, ⟨hw, hcounts⟩, toOption_eq_some.mp hx, hlists⟩

/-! ## Results -/

section Results

variable {distances : Metric → Ranking} {steps : List Step} {s : Session}

theorem Session.Sound.of_run (h : World.run distances steps = .opened s) : s.Sound := by
  have hsound := World.sound_run distances steps
  rw [h] at hsound
  exact hsound

/-- **Indexes stay well-formed.** After every run, whatever the distances are, the nodes that a writer sees,
    those that a searcher opened now would see, and those that the open searchers see are well-formed
    indexes. -/
theorem run_wellFormed (hrun : World.run distances steps = .opened s) :
    (∀ (handle : Handle) (w : Writer), s.writers[handle]? = some w →
      ∃ nodes : IdMap Node, (∀ id, w.draft.node id = .ok nodes[id]?) ∧ WellFormed w.draft.head nodes) ∧
    (∀ index ∈ s.db.indexIds, ∃ (x : Searcher) (nodes : IdMap Node), s.db.searcher index = .ok x ∧
      (∀ id, x.rows.node id = .ok nodes[id]?) ∧ WellFormed x.head nodes) ∧
    ∀ (handle : Handle) (x : Searcher), s.searchers[handle]? = some x →
      ∃ nodes : IdMap Node, (∀ id, x.rows.node id = .ok nodes[id]?) ∧ WellFormed x.head nodes := by
  have h := Session.Sound.of_run hrun
  refine ⟨?_, ?_, ?_⟩
  · intro handle w hw
    obtain ⟨nodes, hsound, _⟩ := (h.writers handle w hw).sound
    exact ⟨nodes, hsound.holds.shows, hsound.wellFormed⟩
  · intro index hindex
    obtain ⟨head, rows, found, hx, hc⟩ := h.tables.searcher (Std.ExtTreeMap.mem_keys.mp hindex)
    exact ⟨_, found, hx, hc.shows, hc.wellFormed⟩
  · intro handle x hx
    obtain ⟨found, hc⟩ := h.searchers handle x hx
    exact ⟨found, hc.shows, hc.wellFormed⟩

theorem run_wellFormed_threeItems : ∃ (s : Session) (w : Writer) (nodes : IdMap Node),
    World.run Metric.rank threeItems = .opened s ∧ s.writers[(1 : Handle)]? = some w ∧
      WellFormed w.draft.head nodes ∧ nodes.size = 3 := by
  obtain ⟨s, w, _, hrun, ⟨hw, _, hsize⟩, _⟩ := threeItems_run
  obtain ⟨nodes, _, hnodes⟩ := (run_wellFormed hrun).1 1 w hw
  refine ⟨s, w, nodes, hrun, hw, hnodes, ?_⟩
  rw [← hnodes.size, hsize]
  rfl

/-- **Every item can be reached after a commit.** After every run the reconnection of a writer's draft goes
    through. It leaves a well-formed index in which links lead from the entry point to every item, also to
    those that could be reached before, and it changes base lists only: not even these if every item could be
    reached before. A commit has no other way to fail than the limit on indexes and the quota, and what is
    committed then can be reached. -/
theorem run_reconnected (hrun : World.run distances steps = .opened s) {handle : Handle} {w : Writer}
    (hw : s.writers[handle]? = some w) :
    (∃ (nodes : IdMap Node) (d' : Draft) (nodes' : IdMap Node), w.draft.reconnected = .ok d' ∧
      (∀ id, w.draft.node id = .ok nodes[id]?) ∧ (∀ id, d'.node id = .ok nodes'[id]?) ∧
      WellFormed d'.head nodes' ∧ Spans d'.head nodes' ∧
      (∀ e, w.draft.head.entryPoint = some e → ∀ id, Reaches nodes 0 e id → Reaches nodes' 0 e id) ∧
      d'.unlinked = w.draft.unlinked ∧ withoutBase nodes' = withoutBase nodes ∧
      (Spans w.draft.head nodes → d' = w.draft)) ∧
    ∀ allocated, (∀ e, (s.db.commit w allocated).1 = .error e →
        e = .indexLimitReached w.index s.db.config.maxIndexes ∨
          e = .storage (.full allocated s.db.config.quota)) ∧
      ∀ x, (s.db.commit w allocated).2.searcher w.index = .ok x →
        ∃ found : IdMap Node, (∀ id, x.rows.node id = .ok found[id]?) ∧ Spans x.head found := by
  have h := Session.Sound.of_run hrun
  have htracks := h.writers handle w hw
  refine ⟨?_, fun allocated => ⟨?_, ?_⟩⟩
  · obtain ⟨nodes, hsound, _⟩ := htracks.sound
    obtain ⟨d', nodes', hd', hsound', hrel, hspans, hsame⟩ := hsound.reconnected
    refine ⟨nodes, d', nodes', hd', hsound.holds.shows, hsound'.holds.shows, hsound'.wellFormed, hspans, ?_,
      hrel.rest, hrel.base, hsame⟩
    -- what could be reached is live, and everything that is live can be reached now
    intro e he id hreach
    have hid : id ∈ nodes := by
      cases hreach with
      | refl => exact (hsound.headed.onLayer he).mem
      | tail _ hlink => exact hlink.2
    exact hspans e (hrel.head ▸ he) id ((mem_iff_of_frames hrel.frames).mpr hid)
  · intro e he
    have hfree : w.Tracks (s.db.release w.index) := htracks.of_rows rfl
    rcases Database.commit_cases hfree allocated with ⟨e', hcommit, hreason⟩ | ⟨head, rows, nodes, _, hcommit⟩
    · rw [hcommit] at he
      exact Except.error.inj he ▸ hreason
    · rw [hcommit] at he
      cases he
  · intro x hx
    obtain ⟨found, hc⟩ := (h.commit hw allocated).tables.of_searcher hx
    exact ⟨found, hc.shows, hc.spans⟩

theorem run_reconnected_threeItems : ∃ (s : Session) (w : Writer) (d' : Draft) (nodes' : IdMap Node),
    World.run Metric.rank threeItems = .opened s ∧ s.writers[(1 : Handle)]? = some w ∧
      w.isChanged = true ∧ w.draft.reconnected = .ok d' ∧ (∀ id, d'.node id = .ok nodes'[id]?) ∧
      Spans d'.head nodes' := by
  obtain ⟨s, w, _, hrun, ⟨hw, hchanged, _⟩, _⟩ := threeItems_run
  obtain ⟨⟨_, d', nodes', hd', _, hshows, _, hspans, _⟩, _⟩ := run_reconnected hrun hw
  exact ⟨s, w, d', nodes', hrun, hw, hchanged, hd', hshows, hspans⟩

end Results

end VectorIndex
