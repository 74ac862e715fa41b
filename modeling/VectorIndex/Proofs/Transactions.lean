import VectorIndex.Proofs.Runs

/-!
# `VectorIndex.Proofs.Transactions` — all or nothing, and never too many indexes

A commit and the removal of an index are write transactions: a row of writes and checks on a copy of the tables,
which replaces the tables if every one of them goes through, and is thrown away otherwise. `Write` is one of them,
and `Database.commit_eq_transact` and `Database.dropIndex_eq_transact` say that the library's calls are such
transactions, done while the index is held. So the checks that come after writes undo them: the limit on indexes
before the first write, the type of a table after the description was written, the quota last of all.

The limit is checked when a writer commits, not when it is opened, against descriptions that other writers have
written meanwhile. It holds nevertheless (`Session.Registered.size_step`), because what a writer knows of its own index
cannot change while it is open (`Session.Registered`).

## Contents
- **Writes.** `Write`, `Write.apply`, `Database.transact`.
- **Calls as transactions.** `Writer.writes`, `Database.commit_eq_transact`, `Database.dropIndex_eq_transact`.
- **Registered writers.** `Session.Registered`, kept by each call; `Session.Registered.size_step`.
- **Result.** `Session.after`, `commits_atomic_bounded`.
-/

namespace VectorIndex

/-! ## Writes -/

/-- One step of a write transaction. -/
inductive Write where
  /-- Room is left for an index that is not there yet. -/
  | checkLimit (index : IndexId)
  | putHead (index : IndexId) (row : Bytes)
  /-- The description is taken away; there must be one. -/
  | takeHead (index : IndexId)
  | deleteTable (index : IndexId)
  /-- The table is there afterwards, and holds rows. -/
  | openTable (index : IndexId)
  | removeRow (index : IndexId) (id : ItemId)
  | putRow (index : IndexId) (id : ItemId) (record : Bytes)
  /-- The file has not outgrown its quota, by what the storage reports of its bytes. -/
  | checkQuota (allocated : UInt64)

/-- The database with another description of an index. -/
def Database.withHead (db : Database) (index : IndexId) (row : Bytes) : Database :=
  { db with metadata := db.metadata.insert index row }

/-- The database with other rows of an index. -/
def Database.withRows (db : Database) (index : IndexId) (rows : Rows) : Database :=
  { db with nodes := db.nodes.insert index (.rows rows) }

/-- The database without the node table of an index. -/
def Database.withoutTable (db : Database) (index : IndexId) : Database :=
  { db with nodes := db.nodes.erase index }

/-- What a step makes of the copy that the transaction works on. -/
def Write.apply (db : Database) : Write → Except Error Database
  | .checkLimit index =>
      if !db.contains index && db.config.maxIndexes.toNat ≤ db.metadata.size then
        .error (.indexLimitReached index db.config.maxIndexes)
      else .ok db
  | .putHead index row => .ok (db.withHead index row)
  | .takeHead index =>
      if db.contains index then .ok { db with metadata := db.metadata.erase index }
      else .error (.indexNotFound index)
  | .deleteTable index => .ok (db.withoutTable index)
  | .openTable index => do return db.withRows index (← db.rows index)
  | .removeRow index id => do return db.withRows index ((← db.rows index).erase id)
  | .putRow index id record => do return db.withRows index ((← db.rows index).insert id record)
  | .checkQuota allocated =>
      if db.config.quota < allocated then .error (.storage (.full allocated db.config.quota)) else .ok db

/-- Step after step, up to the first that fails. -/
def Write.applyAll (db : Database) (writes : List Write) : Except Error Database :=
  writes.foldlM Write.apply db

/-- The transaction stops at one of its steps, after those before it have changed the copy. -/
def Write.Stops (db : Database) (writes : List Write) (e : Error) : Prop :=
  ∃ before write after copy, writes = before ++ write :: after ∧ applyAll db before = .ok copy ∧
    write.apply copy = .error e

/-- A write transaction. The tables are those of the copy if all steps went through, otherwise what they were. -/
def Database.transact (db : Database) (writes : List Write) : Except Error Unit × Database :=
  match Write.applyAll db writes with
  | .ok copy => (.ok (), copy)
  | .error e => (.error e, db)

/-- The database with an index taken. -/
def Database.hold (db : Database) (index : IndexId) : Database :=
  { db with writing := db.writing.insert index }

section Writes

variable {db : Database} {index : IndexId} {rows : Rows}

@[simp] theorem Database.rows_withRows : (db.withRows index rows).rows index = .ok rows := by
  unfold Database.rows Database.withRows
  dsimp only
  rw [getElem?_insert_id, if_pos rfl]

@[simp] theorem Database.withRows_withRows {rows' : Rows} :
    (db.withRows index rows).withRows index rows' = db.withRows index rows' := by
  unfold withRows
  rw [Database.mk.injEq]
  refine ⟨rfl, rfl, Std.ExtTreeMap.ext_getElem? fun other => ?_, rfl⟩
  dsimp only
  rw [getElem?_insert_id, getElem?_insert_id, getElem?_insert_id]
  split <;> rfl

/-- A table that was deleted has no rows, and can be there again. -/
@[simp] theorem Database.rows_withoutTable : (db.withoutTable index).rows index = .ok ∅ := by
  unfold Database.rows Database.withoutTable
  dsimp only
  rw [getElem?_erase_id, if_pos rfl]

@[simp] theorem Database.withRows_withoutTable :
    (db.withoutTable index).withRows index rows = db.withRows index rows := by
  unfold Database.withRows Database.withoutTable
  rw [Database.mk.injEq]
  refine ⟨rfl, rfl, Std.ExtTreeMap.ext_getElem? fun other => ?_, rfl⟩
  dsimp only
  rw [getElem?_insert_id, getElem?_insert_id, getElem?_erase_id]
  split <;> rfl

theorem Write.applyAll_cons {write : Write} {writes : List Write} :
    applyAll db (write :: writes) = (write.apply db >>= fun copy => applyAll copy writes) := by
  unfold applyAll
  rw [List.foldlM_cons]

theorem Write.applyAll_singleton {write : Write} : applyAll db [write] = write.apply db := by
  rw [applyAll_cons]
  cases write.apply db <;> rfl

theorem Write.applyAll_append {before after : List Write} :
    applyAll db (before ++ after) = (applyAll db before >>= fun copy => applyAll copy after) := by
  unfold applyAll
  rw [List.foldlM_append]

theorem Write.applyAll_eq_error {writes : List Write} {e : Error} :
    applyAll db writes = .error e ↔ Stops db writes e := by
  constructor
  · intro h
    induction writes generalizing db with
    | nil => cases h
    | cons write writes ih =>
        rw [applyAll_cons] at h
        cases hwrite : write.apply db with
        | error e' =>
            rw [hwrite] at h
            obtain rfl := Except.error.inj h
            exact ⟨[], write, writes, db, rfl, rfl, hwrite⟩
        | ok copy =>
            rw [hwrite, ok_bind] at h
            obtain ⟨before, failed, after, copy', rfl, hbefore, hfailed⟩ := ih h
            refine ⟨write :: before, failed, after, copy', rfl, ?_, hfailed⟩
            rw [applyAll_cons, hwrite, ok_bind, hbefore]
  · rintro ⟨before, write, after, copy, rfl, hbefore, hwrite⟩
    rw [applyAll_append, hbefore, ok_bind, applyAll_cons, hwrite]
    rfl

theorem Database.rows_withWriting (writing : Std.ExtTreeSet IndexId) :
    ({ db with writing := writing } : Database).rows index = db.rows index := rfl

/-- A transaction does not look at who holds which index, nor does it change it. -/
theorem Write.apply_withWriting (write : Write) (writing : Std.ExtTreeSet IndexId) :
    write.apply { db with writing := writing } =
      (write.apply db).map fun copy => { copy with writing := writing } := by
  cases write with
  | putHead index row => rfl
  | deleteTable index => rfl
  | checkLimit index =>
      unfold apply Database.contains
      dsimp only
      split <;> rfl
  | takeHead index =>
      unfold apply Database.contains
      dsimp only
      split <;> rfl
  | checkQuota allocated =>
      unfold apply
      dsimp only
      split <;> rfl
  | openTable index | removeRow index id | putRow index id record =>
      unfold apply
      dsimp only
      rw [Database.rows_withWriting]
      cases db.rows index <;> rfl

theorem Write.applyAll_withWriting (writes : List Write) (writing : Std.ExtTreeSet IndexId) :
    applyAll { db with writing := writing } writes =
      (applyAll db writes).map fun copy => { copy with writing := writing } := by
  induction writes generalizing db with
  | nil => rfl
  | cons write writes ih =>
      rw [applyAll_cons, applyAll_cons, apply_withWriting]
      cases write.apply db with
      | error e => rfl
      | ok copy => exact ih

theorem Write.writing_of_applyAll {writes : List Write} {copy : Database} (h : applyAll db writes = .ok copy) :
    copy.writing = db.writing := by
  have hsame : applyAll db writes = (applyAll db writes).map fun copy => { copy with writing := db.writing } :=
    applyAll_withWriting writes db.writing
  rw [h] at hsame
  rw [Except.ok.inj hsame]

end Writes

/-! ## Calls as transactions -/

/-- The changes of a draft, row by row. -/
def Draft.writes (d : Draft) (index : IndexId) : List Write :=
  .openTable index :: d.deleted.toList.map (Write.removeRow index) ++
    d.touched.toList.map fun (id, node) => .putRow index id node.encode

/-- The transaction that writes a settled draft. -/
def Writer.writes (w : Writer) (d : Draft) (allocated : UInt64) : List Write :=
  (if w.isNew then [.checkLimit w.index] else []) ++ .putHead w.index d.head.encode ::
    (if d.discards then [.deleteTable w.index] else []) ++ d.writes w.index ++ [.checkQuota allocated]

/-- The transaction that removes an index. -/
def removal (index : IndexId) : List Write := [.takeHead index, .deleteTable index]

section Calls

variable {db : Database} {index : IndexId} {rows : Rows} {w : Writer} {d : Draft} {allocated : UInt64}

theorem Write.apply_removeRow {id : ItemId} :
    (removeRow index id).apply (db.withRows index rows) = .ok (db.withRows index (rows.erase id)) := by
  dsimp only [apply]
  rw [Database.rows_withRows, ok_bind, Database.withRows_withRows]
  rfl

theorem Write.apply_putRow {id : ItemId} {record : Bytes} :
    (putRow index id record).apply (db.withRows index rows) = .ok (db.withRows index (rows.insert id record)) := by
  dsimp only [apply]
  rw [Database.rows_withRows, ok_bind, Database.withRows_withRows]
  rfl

theorem Write.applyAll_removeRow (ids : List ItemId) :
    applyAll (db.withRows index rows) (ids.map (removeRow index)) =
      .ok (db.withRows index (ids.foldl (fun rows id => rows.erase id) rows)) := by
  induction ids generalizing rows with
  | nil => rfl
  | cons id ids ih => rw [List.map_cons, applyAll_cons, apply_removeRow, ok_bind, ih, List.foldl_cons]

theorem Write.applyAll_putRow (entries : List (ItemId × Node)) :
    applyAll (db.withRows index rows) (entries.map fun (id, node) => putRow index id node.encode) =
      .ok (db.withRows index (entries.foldl (fun rows (id, node) => rows.insert id node.encode) rows)) := by
  induction entries generalizing rows with
  | nil => rfl
  | cons entry entries ih => rw [List.map_cons, applyAll_cons, apply_putRow, ok_bind, ih, List.foldl_cons]

/-- The changes row by row are the changes at once. -/
theorem Draft.applyAll_writes :
    Write.applyAll db (d.writes index) = (db.rows index).map fun rows => db.withRows index (d.writeTo rows) := by
  unfold Draft.writes
  rw [List.cons_append, Write.applyAll_cons]
  dsimp only [Write.apply]
  cases db.rows index with
  | error e => rfl
  | ok rows =>
      rw [ok_bind, pure_bind, Write.applyAll_append, Write.applyAll_removeRow, ok_bind, Write.applyAll_putRow]
      rfl

/-- The transaction of a writer, written out: the limit, the rows that count, the quota. -/
theorem Writer.applyAll_writes : Write.applyAll db (w.writes d allocated) =
    if w.isNew && !db.contains w.index && db.config.maxIndexes.toNat ≤ db.metadata.size then
      .error (.indexLimitReached w.index db.config.maxIndexes)
    else
      (if d.discards then .ok ∅ else db.rows w.index) >>= fun rows =>
        (Write.checkQuota allocated).apply (db.withIndex w.index d.head (d.writeTo rows)) := by
  have hwrites : w.writes d allocated = (if w.isNew then [.checkLimit w.index] else []) ++
      (.putHead w.index d.head.encode :: ((if d.discards then [.deleteTable w.index] else []) ++
        (d.writes w.index ++ [.checkQuota allocated]))) := by
    unfold Writer.writes
    simp only [List.append_assoc, List.cons_append]
  -- a description does not touch the rows, and after the table was deleted there are none
  have hrest : Write.applyAll (db.withHead w.index d.head.encode)
      ((if d.discards then [.deleteTable w.index] else []) ++ (d.writes w.index ++ [.checkQuota allocated])) =
      (if d.discards then .ok ∅ else db.rows w.index) >>= fun rows =>
        (Write.checkQuota allocated).apply (db.withIndex w.index d.head (d.writeTo rows)) := by
    have hquota : ∀ copy : Database, Write.applyAll copy (d.writes w.index ++ [.checkQuota allocated]) =
        (copy.rows w.index >>= fun rows =>
          (Write.checkQuota allocated).apply (copy.withRows w.index (d.writeTo rows))) := by
      intro copy
      rw [Write.applyAll_append, Draft.applyAll_writes]
      cases copy.rows w.index with
      | error e => rfl
      | ok rows => exact Write.applyAll_singleton
    cases d.discards with
    | false => exact hquota _
    | true =>
        rw [if_pos rfl, List.singleton_append, Write.applyAll_cons]
        dsimp only [Write.apply]
        rw [ok_bind, hquota, Database.rows_withoutTable, ok_bind, Database.withRows_withoutTable]
        rfl
  rw [hwrites]
  cases hnew : w.isNew with
  | false => exact hrest
  | true =>
      rw [if_pos rfl, List.singleton_append, Write.applyAll_cons]
      dsimp only [Write.apply]
      rw [Bool.true_and]
      split
      · rfl
      · exact hrest

/-- **A commit is a transaction.** What a writer publishes is what its transaction leaves. -/
theorem Database.publish_eq_applyAll :
    db.publish w allocated = (w.settled >>= fun d => Write.applyAll db (w.writes d allocated)) := by
  unfold Database.publish Writer.settled
  by_cases hchanged : w.isChanged = true
  · simp only [hchanged, if_true, Writer.applyAll_writes]
    cases w.draft.reconnected with
    | error e => rfl
    | ok d =>
        rw [ok_bind, ok_bind]
        cases d.discards <;> rfl
  · simp only [hchanged, Bool.false_eq_true, if_false, pure_bind, Writer.applyAll_writes]
    cases w.draft.discards <;> rfl

/-- To publish is the same whether the index is held or not. -/
theorem Database.publish_release :
    (db.release index).publish w allocated = (db.publish w allocated).map fun db' => db'.release index := by
  rw [publish_eq_applyAll, publish_eq_applyAll]
  cases w.settled with
  | error e => rfl
  | ok d =>
      rw [ok_bind, ok_bind]
      unfold release
      rw [Write.applyAll_withWriting]
      cases happly : Write.applyAll db (w.writes d allocated) with
      | error e => rfl
      | ok copy =>
          dsimp only [Except.map]
          rw [Write.writing_of_applyAll happly]

/-- A commit publishes while the writer has its index, and then the index is free. -/
theorem Database.commit_eq_publish : db.commit w allocated =
    match db.publish w allocated with
    | .ok db' => (.ok (), db'.release w.index)
    | .error e => (.error e, db.release w.index) := by
  unfold Database.commit
  dsimp only
  rw [publish_release]
  cases db.publish w allocated <;> rfl

/-- **A commit is a transaction**, done while the writer has its index; then the index is free, whatever came of
    the transaction. If the draft does not settle there is none. -/
theorem Database.commit_eq_transact : db.commit w allocated =
    match w.settled with
    | .error e => (.error e, db.release w.index)
    | .ok d => ((db.transact (w.writes d allocated)).1,
        (db.transact (w.writes d allocated)).2.release w.index) := by
  rw [commit_eq_publish, publish_eq_applyAll]
  cases w.settled with
  | error e => rfl
  | ok d =>
      rw [ok_bind]
      dsimp only [Database.transact]
      cases Write.applyAll db (w.writes d allocated) <;> rfl

/-- An index that is taken and given back was free before. -/
theorem Database.release_hold (hfree : ¬db.writing.contains index = true) :
    (db.hold index).release index = db := by
  have hback : (db.writing.insert index).erase index = db.writing := by
    refine Std.ExtTreeSet.ext_mem fun other => ?_
    rw [Std.ExtTreeSet.mem_erase, Std.ExtTreeSet.mem_insert, Ne, Std.LawfulEqCmp.compare_eq_iff_eq]
    constructor
    · rintro ⟨hne, heq | hother⟩
      · exact absurd heq hne
      · exact hother
    · intro hother
      refine ⟨?_, Or.inr hother⟩
      rintro rfl
      exact hfree (Std.ExtTreeSet.mem_iff_contains.mp hother)
  unfold hold release
  dsimp only
  rw [hback]

/-- **Removing an index is a transaction**, done while the index is held for it. -/
theorem Database.dropIndex_eq_transact : db.dropIndex index =
    if db.writing.contains index then .error (.writerBusy index)
    else (Write.applyAll (db.hold index) (removal index)).map fun copy => copy.release index := by
  unfold Database.dropIndex
  split
  · rfl
  · rename_i hfree
    have hthere : (db.hold index).contains index = db.contains index := rfl
    unfold removal
    rw [Write.applyAll_cons]
    dsimp only [Write.apply]
    rw [hthere]
    cases db.contains index with
    | false => rfl
    | true =>
        rw [if_pos rfl, ok_bind, Write.applyAll_singleton]
        have hback : (db.writing.insert index).erase index = db.writing :=
          congrArg Database.writing (release_hold hfree)
        dsimp only [Write.apply, Except.map, Database.withoutTable, Database.hold, Database.release]
        rw [hback]
        rfl

theorem Database.commit_error_iff {e : Error} :
    (db.commit w allocated).1 = .error e ↔ db.publish w allocated = .error e := by
  rw [commit_eq_publish]
  cases db.publish w allocated <;> simp

/-- **Why a commit fails.** Its draft does not settle, or its transaction stops at some step. -/
theorem Database.commit_eq_error {e : Error} : (db.commit w allocated).1 = .error e ↔
    w.settled = .error e ∨ ∃ d, w.settled = .ok d ∧ Write.Stops db (w.writes d allocated) e := by
  rw [commit_eq_transact]
  cases w.settled with
  | error e' => simp
  | ok d =>
      simp only [reduceCtorEq, false_or, Except.ok.injEq, exists_eq_left', ← Write.applyAll_eq_error,
        Database.transact]
      cases Write.applyAll db (w.writes d allocated) <;> simp

/-- A commit that fails leaves the tables alone, and its index is free. -/
theorem Database.commit_of_error {e : Error} (h : (db.commit w allocated).1 = .error e) :
    (db.commit w allocated).2 = db.release w.index := by
  rw [commit_eq_transact]
  rcases commit_eq_error.mp h with hsettled | ⟨d, hsettled, hstops⟩
  · rw [hsettled]
  · rw [hsettled]
    dsimp only [Database.transact]
    rw [Write.applyAll_eq_error.mpr hstops]

/-- **What a commit that goes through has written.** One index has another description and other rows. If it was
    not there, room was left for it. -/
theorem Database.publish_eq_ok {db' : Database} (h : db.publish w allocated = .ok db') :
    (w.isNew = true → w.index ∉ db.metadata → db.metadata.size < db.config.maxIndexes.toNat) ∧
      ∃ d rows, w.settled = .ok d ∧ (if d.discards then .ok ∅ else db.rows w.index) = .ok rows ∧
        db' = db.withIndex w.index d.head (d.writeTo rows) := by
  rw [publish_eq_applyAll, bind_eq_ok] at h
  obtain ⟨d, hsettled, h⟩ := h
  rw [Writer.applyAll_writes] at h
  split at h
  · cases h
  · rename_i hroom
    rw [bind_eq_ok] at h
    obtain ⟨rows, hrows, h⟩ := h
    dsimp only [Write.apply] at h
    split at h
    · cases h
    · refine ⟨fun hnew hout => ?_, d, rows, hsettled, hrows, (Except.ok.inj h).symm⟩
      have hcontains : db.contains w.index = false :=
        Bool.eq_false_iff.mpr fun hc => hout (Std.ExtTreeMap.mem_iff_contains.mp hc)
      rw [hnew, hcontains] at hroom
      simpa using hroom

end Calls

/-! ## Registered writers -/

section Sessions

variable {s : Session} {distances : Metric → Ranking} {c : Call}

/-- **What changes the tables.** A commit that goes through writes one index, which its writer held; the removal of
    an index takes one that nobody held. No other call changes the tables. -/
theorem Session.tables_step (s : Session) (distances : Metric → Ranking) (c : Call) :
    (s.step distances c).2.db.config = s.db.config ∧
    (((s.step distances c).2.db.metadata = s.db.metadata ∧ (s.step distances c).2.db.nodes = s.db.nodes) ∨
    (∃ handle allocated w head rows, c = .commit handle allocated ∧ s.writers[handle]? = some w ∧
      (w.isNew = true → w.index ∉ s.db.metadata → s.db.metadata.size < s.db.config.maxIndexes.toNat) ∧
      (s.step distances c).2.db = (s.db.release w.index).withIndex w.index head rows) ∨
    ∃ index, c = .dropIndex index ∧ index ∉ s.db.writing ∧ index ∈ s.db.metadata ∧ (s.step distances c).2.db =
      { s.db with metadata := s.db.metadata.erase index, nodes := s.db.nodes.erase index }) := by
  have hmoves := s.step_moves distances c
  generalize (s.step distances c).1 = answer, (s.step distances c).2 = s' at hmoves ⊢
  cases hmoves with
  | refuses | fails | changes | aborts | shows | closes => exact ⟨rfl, Or.inl ⟨rfl, rfl⟩⟩
  | opens hunused hopen =>
      obtain ⟨_, rfl, _⟩ := Database.openWriter_eq_ok hopen
      exact ⟨rfl, Or.inl ⟨rfl, rfl⟩⟩
  | @commits handle w allocated hw =>
      dsimp only [Database.commit]
      cases hpublish : (s.db.release w.index).publish w allocated with
      | error e => exact ⟨rfl, Or.inl ⟨rfl, rfl⟩⟩
      | ok db =>
          obtain ⟨hroom, d, rows, _, _, rfl⟩ := Database.publish_eq_ok hpublish
          exact ⟨rfl, Or.inr (Or.inl ⟨handle, allocated, w, d.head, _, rfl, hw, hroom, rfl⟩)⟩
  | @drops index db hdrop =>
      obtain ⟨hfree, hthere, rfl⟩ := Database.dropIndex_eq_ok hdrop
      exact ⟨rfl, Or.inr (Or.inr ⟨index, rfl, hfree, hthere, rfl⟩)⟩

/-- The indexes that are held are those of the writers, and the index of a writer that found it there is there. -/
structure Session.Registered (s : Session) : Prop where
  holders : Holders s.db.writing s.writers
  known : ∀ (handle : Handle) (w : Writer), s.writers[handle]? = some w → w.isNew = false →
    w.index ∈ s.db.metadata

theorem Session.Registered.isNew_of_not_mem (h : s.Registered) {handle : Handle} {w : Writer}
    (hw : s.writers[handle]? = some w) (hout : w.index ∉ s.db.metadata) : w.isNew = true := by
  cases hnew : w.isNew with
  | true => rfl
  | false => exact absurd (h.known handle w hw hnew) hout

/-- The indexes that are held stay those of the writers. -/
theorem Session.holders_step (h : Holders s.db.writing s.writers) (distances : Metric → Ranking) (c : Call) :
    Holders (s.step distances c).2.db.writing (s.step distances c).2.writers := by
  have hmoves := s.step_moves distances c
  generalize (s.step distances c).1 = answer, (s.step distances c).2 = s' at hmoves ⊢
  cases hmoves with
  | refuses | fails | shows | closes => exact h
  | opens hunused hopen =>
      obtain ⟨hfree, rfl, _, _, _, _, _, _, rfl⟩ := Database.openWriter_eq_ok hopen
      exact h.insert (heldBy_eq_none hunused) rfl hfree
  | changes change hw => exact h.replace hw rfl
  | @commits handle w allocated hw =>
      dsimp only [Database.commit]
      cases hpublish : (s.db.release w.index).publish w allocated with
      | error e => exact h.erase hw
      | ok db =>
          obtain ⟨_, d, rows, _, _, rfl⟩ := Database.publish_eq_ok hpublish
          exact h.erase hw
  | aborts hw => exact h.erase hw
  | drops hdrop =>
      obtain ⟨_, _, rfl⟩ := Database.dropIndex_eq_ok hdrop
      exact h

/-- A held index stays there. -/
theorem Session.mem_step {index : IndexId} (hheld : index ∈ s.db.writing)
    (hthere : index ∈ s.db.metadata) : index ∈ (s.step distances c).2.db.metadata := by
  obtain ⟨_, ⟨hsame, _⟩ | ⟨_, _, w, _, _, _, _, _, hdb⟩ | ⟨other, _, hfree, _, hdb⟩⟩ :=
    s.tables_step distances c
  · rw [hsame]
    exact hthere
  · rw [hdb]
    exact mem_insert_key.mpr (Or.inr hthere)
  · rw [hdb]
    refine mem_erase_key.mpr ⟨?_, hthere⟩
    rintro rfl
    exact hfree hheld

/-- **Every call keeps the writers registered**, whatever it answers. -/
theorem Session.Registered.step (h : s.Registered) (distances : Metric → Ranking) (c : Call) :
    (s.step distances c).2.Registered := by
  have hold : ∀ (handle : Handle) (w : Writer), s.writers[handle]? = some w → w.isNew = false →
      w.index ∈ (s.step distances c).2.db.metadata := fun handle w hw hnew =>
    Session.mem_step ((h.holders.mem_iff w.index).mpr ⟨handle, heldBy_eq hw⟩) (h.known handle w hw hnew)
  refine ⟨Session.holders_step h.holders distances c, fun handle w hw hnew => ?_⟩
  rcases Session.writers_step hw with hsame | ⟨index, _, _, _, _, opened, _, rfl, hopen, rfl⟩ |
    ⟨change, old, _, hsame, rfl⟩
  · exact hold handle w hsame hnew
  · obtain ⟨_, _, head, isNew, rows, _, hhead, _, rfl⟩ := Database.openWriter_eq_ok hopen
    obtain rfl : isNew = false := hnew
    -- opening a writer leaves the tables alone
    obtain ⟨_, ⟨hmetadata, _⟩ | ⟨_, _, _, _, _, hc, _⟩ | ⟨_, hc, _⟩⟩ := s.tables_step distances _
    · rcases Database.writerHead_eq_ok hhead with ⟨_, hcontra, _⟩ | ⟨row, hrow, _⟩
      · cases hcontra
      · rw [hmetadata]
        exact mem_iff_exists.mpr ⟨row, hrow⟩
    · cases hc
    · cases hc
  · exact hold handle old hsame hnew

/-- **The limit holds step by step.** A call does not raise the number of indexes above the limit. -/
theorem Session.Registered.size_step (h : s.Registered) (distances : Metric → Ranking) (c : Call) :
    (s.step distances c).2.db.metadata.size ≤ max s.db.config.maxIndexes.toNat s.db.metadata.size := by
  obtain ⟨_, ⟨hsame, _⟩ | ⟨handle, _, w, _, _, _, hw, hroom, hdb⟩ | ⟨index, _, _, _, hdb⟩⟩ :=
    s.tables_step distances c
  · rw [hsame]
    exact Nat.le_max_right _ _
  · rw [hdb]
    dsimp only [Database.withIndex, Database.release]
    rw [Std.ExtTreeMap.size_insert]
    split
    · exact Nat.le_max_right _ _
    · rename_i hthere
      rw [← Std.ExtTreeMap.mem_iff_contains] at hthere
      exact Nat.le_trans (hroom (h.isNew_of_not_mem hw hthere) hthere) (Nat.le_max_left _ _)
  · rw [hdb]
    exact Nat.le_trans Std.ExtTreeMap.size_erase_le (Nat.le_max_right _ _)

/-- The session after some calls. -/
def Session.after (distances : Metric → Ranking) (s : Session) (calls : List Call) : Session :=
  calls.foldl (fun s c => (s.step distances c).2) s

/-- The session of a database just opened. -/
def Database.session (db : Database) : Session := ⟨db, ∅, ∅⟩

theorem Session.Sound.after (h : s.Sound) (distances : Metric → Ranking) (calls : List Call) :
    (s.after distances calls).Sound := by
  induction calls generalizing s with
  | nil => exact h
  | cons c calls ih => exact ih (h.step distances c)

/-- **The limit holds.** After any calls the number of indexes is at most the limit, or what it was before. -/
theorem Session.Registered.after (h : s.Registered) (distances : Metric → Ranking) (calls : List Call) :
    (s.after distances calls).Registered ∧ (s.after distances calls).db.config = s.db.config ∧
      (s.after distances calls).db.metadata.size ≤ max s.db.config.maxIndexes.toNat s.db.metadata.size := by
  induction calls generalizing s with
  | nil => exact ⟨h, rfl, Nat.le_max_right _ _⟩
  | cons c calls ih =>
      obtain ⟨hregistered, hconfig, hsize⟩ := ih (h.step distances c)
      have hkeeps := (s.tables_step distances c).1
      have hstep := h.size_step distances c
      rw [hkeeps] at hconfig hsize
      refine ⟨hregistered, hconfig, Nat.le_trans hsize ?_⟩
      omega

/-- A database just opened has no writers. -/
theorem Database.registered_session {db : Database} (hfree : db.writing = ∅) : db.session.Registered := by
  refine ⟨?_, fun handle w hw => ?_⟩
  · unfold session
    dsimp only
    rw [hfree]
    exact holders_empty
  · simp [session] at hw

end Sessions

/-! ## Result -/

section Results

variable {distances : Metric → Ranking} {config : Config} {store : Store} {db : Database} {s : Session}

theorem Session.commit_answer {handle : Handle} {w : Writer} (hw : s.writers[handle]? = some w)
    (allocated : UInt64) :
    (s.commit handle allocated).1 = .done (s.db.commit w allocated).1 ∧
      (s.commit handle allocated).2.db = (s.db.commit w allocated).2 := by
  unfold Session.commit
  rw [hw]
  exact ⟨rfl, rfl⟩

/-- On a file without damage a commit meets the limit in one case. -/
theorem Session.Registered.commit_limit (h : s.Registered) (hsound : s.Sound) {handle : Handle} {w : Writer}
    (hw : s.writers[handle]? = some w) (allocated : UInt64) (index : IndexId) (most : UInt32) :
    (s.db.commit w allocated).1 = .error (.indexLimitReached index most) ↔
      (index = w.index ∧ most = s.db.config.maxIndexes) ∧
        w.index ∉ s.db.metadata ∧ s.db.config.maxIndexes.toNat ≤ s.db.metadata.size := by
  obtain ⟨_, d, _, hsettles⟩ := (hsound.writers handle w hw).settles
  -- the writer counts its index as new, since nobody else could have removed it
  have hfull : (w.isNew && !s.db.contains w.index &&
      s.db.config.maxIndexes.toNat ≤ s.db.metadata.size) = true ↔
      w.index ∉ s.db.metadata ∧ s.db.config.maxIndexes.toNat ≤ s.db.metadata.size := by
    have hcontains : s.db.contains w.index = true ↔ w.index ∈ s.db.metadata :=
      Std.ExtTreeMap.mem_iff_contains.symm
    rw [Bool.and_eq_true, Bool.and_eq_true, Bool.not_eq_true', ← Bool.not_eq_true, hcontains, decide_eq_true_eq]
    constructor
    · rintro ⟨⟨_, hout⟩, hsize⟩
      exact ⟨hout, hsize⟩
    · rintro ⟨hout, hsize⟩
      exact ⟨⟨h.isNew_of_not_mem hw hout, hout⟩, hsize⟩
  rw [Database.commit_error_iff, hsettles.publish_eq]
  by_cases hlimit : w.index ∉ s.db.metadata ∧ s.db.config.maxIndexes.toNat ≤ s.db.metadata.size
  · rw [if_pos (hfull.mpr hlimit), and_iff_left hlimit, Except.error.injEq, Error.indexLimitReached.injEq,
      eq_comm, @eq_comm _ _ most]
  · rw [if_neg (mt hfull.mp hlimit), iff_false_right fun hcontra => hlimit hcontra.2]
    split
    · simp
    · simp

/-- **A commit or a removal that fails changes nothing, and the limit on indexes holds.**

    - In any state, with any writers, and whatever size of the file the storage reports, a commit fails exactly if its
      draft does not settle or its transaction stops at some step, whatever the steps before have written. Then every
      description and every table is as it was, and the index of the writer is free. A removal that fails leaves
      everything as it was.
    - A file is opened, whatever rows it has, and any calls are made. If the file has no damage, a commit meets the
      limit exactly if its index is not there and no room is left. There are never more indexes than the limit
      allows, or than there were when the file was opened. -/
theorem commits_atomic_bounded (distances : Metric → Ranking) :
    (∀ (s : Session) (handle : Handle) (allocated : UInt64) (w : Writer) (e : Error), s.writers[handle]? = some w →
      ((s.commit handle allocated).1 = .done (.error e) ↔
        w.settled = .error e ∨ ∃ d, w.settled = .ok d ∧ Write.Stops s.db (w.writes d allocated) e) ∧
      ((s.commit handle allocated).1 = .done (.error e) →
        (s.commit handle allocated).2.db.metadata = s.db.metadata ∧
          (s.commit handle allocated).2.db.nodes = s.db.nodes ∧
          w.index ∉ (s.commit handle allocated).2.db.writing)) ∧
    (∀ (s : Session) (index : IndexId) (e : Error), (s.dropIndex index).1 = .done (.error e) →
      (s.dropIndex index).2 = s) ∧
    ∀ (config : Config) (store : Store) (db : Database) (calls : List Call) (s : Session),
      Database.openFile config (.store store) = .ok db → db.session.after distances calls = s →
      (Tables db.metadata db.nodes → ∀ (handle : Handle) (w : Writer), s.writers[handle]? = some w →
        ∀ (allocated : UInt64) (index : IndexId) (most : UInt32),
          (s.commit handle allocated).1 = .done (.error (.indexLimitReached index most)) ↔
            (index = w.index ∧ most = config.maxIndexes) ∧
              w.index ∉ s.db.metadata ∧ config.maxIndexes.toNat ≤ s.db.metadata.size) ∧
      s.db.metadata.size ≤ max config.maxIndexes.toNat db.metadata.size := by
  refine ⟨fun s handle allocated w e hw => ?_, fun s index e he => ?_, ?_⟩
  · obtain ⟨hanswer, hdb⟩ := Session.commit_answer hw allocated
    rw [hanswer, hdb, Answer.done.injEq]
    refine ⟨Database.commit_eq_error, fun he => ?_⟩
    rw [Database.commit_of_error he]
    refine ⟨rfl, rfl, fun hc => ?_⟩
    rw [Database.release, Std.ExtTreeSet.mem_erase] at hc
    exact hc.1 Std.ReflCmp.compare_self
  · unfold Session.dropIndex at he ⊢
    cases hdrop : s.db.dropIndex index with
    | error e' => rfl
    | ok db =>
        rw [hdrop] at he
        cases he
  · intro config store db calls s hopen hs
    obtain ⟨_, metadata, _, _, rfl⟩ := Database.openFile_eq_ok hopen
    have hopened : (Database.session ⟨config, metadata, store.nodes, ∅⟩).Registered :=
      Database.registered_session rfl
    obtain ⟨hregistered, hconfig, hsize⟩ := hopened.after distances calls
    rw [hs] at hregistered hconfig hsize
    refine ⟨fun htables handle w hw allocated index most => ?_, hsize⟩
    have hsound : s.Sound := hs ▸ (htables.session rfl).after distances calls
    rw [(Session.commit_answer hw allocated).1, Answer.done.injEq, hregistered.commit_limit hsound hw, hconfig]
    rfl

/-- A database with room for one index. -/
def oneIndex : Database := ⟨⟨1, 1000000, none, ⟨2, 2, 1, ⟨0x3ff0000000000000⟩, 1⟩⟩, ∅, ∅, ∅⟩

/-- Two writers of new indexes are opened, and the first commits. -/
def twoWriters : List Call :=
  [.openWriter 0 7 1 .euclidean .default (.ofSeed 0),
    .openWriter 1 8 1 .euclidean .default (.ofSeed 0),
    .change 0 (.add 1 [⟨0x3f800000⟩]),
    .commit 0 8192]

theorem twoWriters_shows : ((oneIndex.session.after Metric.rank twoWriters).writers[(1 : Handle)]?.any fun w =>
      w.index == 8 && !(oneIndex.session.after Metric.rank twoWriters).db.contains 8) = true ∧
    (oneIndex.session.after Metric.rank twoWriters).db.metadata.size = 1 := by
  decide +kernel

/-- The second writer comes too late. -/
theorem commits_atomic_bounded_twoWriters : ∃ (s : Session) (w : Writer),
    oneIndex.session.after Metric.rank twoWriters = s ∧ s.writers[(1 : Handle)]? = some w ∧
      (s.commit 1 8192).1 = .done (.error (.indexLimitReached w.index 1)) ∧
      (s.commit 1 8192).2.db.metadata = s.db.metadata ∧ (s.commit 1 8192).2.db.nodes = s.db.nodes ∧
      w.index ∉ (s.commit 1 8192).2.db.writing ∧ s.db.metadata.size ≤ 1 := by
  obtain ⟨hwriter, hsize⟩ := twoWriters_shows
  obtain ⟨w, hw, hshows⟩ := (Option.any_eq_true _ _).mp hwriter
  rw [Bool.and_eq_true, beq_iff_eq, Bool.not_eq_true'] at hshows
  obtain ⟨hcommit, _, hopened⟩ := commits_atomic_bounded Metric.rank
  obtain ⟨hlimit, hbound⟩ := hopened oneIndex.config .empty oneIndex twoWriters _ rfl rfl
  have hout : w.index ∉ (oneIndex.session.after Metric.rank twoWriters).db.metadata := by
    rw [hshows.1, Std.ExtTreeMap.mem_iff_contains]
    exact Bool.eq_false_iff.mp hshows.2
  have hanswer := (hlimit tables_empty 1 w hw 8192 w.index 1).mpr ⟨⟨rfl, rfl⟩, hout, Nat.le_of_eq hsize.symm⟩
  obtain ⟨hmetadata, hnodes, hfree⟩ := (hcommit _ 1 8192 w _ hw).2 hanswer
  exact ⟨_, w, rfl, hw, hanswer, hmetadata, hnodes, hfree, hbound⟩

end Results

end VectorIndex
