import VectorIndex.Proofs.Search
import VectorIndex.Proofs.Transactions
import Mathlib.Logic.Function.Basic

/-!
# `VectorIndex.Proofs.Parties` — many parties at one database

Any number of parties work on one open database at the same time. Each makes one call after another, and a call is
several steps, between which the others go on: a writer is opened by taking its index, and then by reading what is
committed; a commit is a transaction, and then the index is given back, and so is the removal of an index. What a
step does to the database at once is what the database guarantees: a transaction happens at once, a reader sees
one state of the tables, and the set of held indexes is behind a lock.

`Phase.step` is a step of one party, and `Shared.step` a step of one of many. A party that makes its steps without
interruption does what the library does (`Shared.call_openWriter`, `Shared.call_commit`, `Shared.call_abort`,
`Shared.call_dropIndex`). A program that has several writers or searchers at a time counts as several parties.

## Contents
- **Parties.** `WriterRequest`, `Database.start`, `Phase`, `Action`, `Reply`, `Phase.step`; `Entry.Opens` and
  `Entry.Shows`, what a writer and a searcher are when they are opened.
- **Systems.** `Shared`, `Shared.step`, `Shared.run`.
- **Calls without interruption.** `Shared.call`, and what the calls come to.
-/

namespace VectorIndex

/-! ## Parties -/

/-- What a writer is asked for with. -/
structure WriterRequest where
  index : IndexId
  dimension : Nat
  metric : Metric
  options : WriterOptions
  /-- Generator of the levels, if the options have no seed. -/
  entropy : Random.Generator

/-- What the tables hold of one index. -/
structure Entry where
  row : Option Bytes
  table : Option (Table Rows)

/-- What is committed of an index. -/
def Database.entry (db : Database) (index : IndexId) : Entry := ⟨db.metadata[index]?, db.nodes[index]?⟩

/-- The writer over what is committed, for a party that has the index. -/
def Database.start (db : Database) (r : WriterRequest) : Except Error Writer := do
  let (head, isNew) ← db.writerHead r.index r.dimension r.metric r.options.params
  let rows ← db.rows r.index
  return ⟨r.index, isNew, Draft.ofRows head rows (r.options.generator r.entropy)⟩

/-- The rows of an entry; there are none without a node table. -/
def Entry.Holds (entry : Entry) (rows : Rows) : Prop :=
  entry.table = some (.rows rows) ∨ entry.table = none ∧ rows = ∅

/-- The writer that a request opens on an entry: without changes, over the rows of the entry, and with its
    description. If the entry has none, the writer has a new one. -/
structure Entry.Opens (entry : Entry) (params : Params) (r : WriterRequest) (w : Writer) : Prop where
  index : w.index = r.index
  rows : entry.Holds w.draft.stored
  head : (entry.row = none ∧ w.isNew = true ∧
      w.draft.head = Metadata.fresh r.dimension r.metric (r.options.params.getD params)) ∨
    ∃ row, entry.row = some row ∧ w.isNew = false ∧ Metadata.decode row = .ok w.draft.head ∧
      w.draft.head.dimension.toNat = r.dimension ∧ w.draft.head.metric = r.metric
  unaltered : ¬w.draft.Altered
  node : ∀ id, w.draft.node id = w.draft.stored.node id
  backlinks : w.draft.backlinks = none
  rank : w.draft.rank = w.draft.head.metric.rank
  generator : w.draft.generator = r.options.generator r.entropy

/-- The searcher over an entry: it has the description and the rows of the entry. -/
structure Entry.Shows (entry : Entry) (index : IndexId) (x : Searcher) : Prop where
  index : x.index = index
  head : ∃ row, entry.row = some row ∧ Metadata.decode row = .ok x.head
  rows : entry.Holds x.rows

section Starts

variable {db : Database} {index : IndexId} {rows : Rows} {r : WriterRequest} {w : Writer} {x : Searcher}

theorem Database.rows_iff_holds : db.rows index = .ok rows ↔ (db.entry index).Holds rows := Database.rows_eq_ok

/-- **A writer starts from what is committed.** -/
theorem Database.opens_of_start (h : db.start r = .ok w) : (db.entry r.index).Opens db.config.params r w := by
  unfold start at h
  rw [bind_eq_ok] at h
  obtain ⟨⟨head, isNew⟩, hhead, h⟩ := h
  dsimp only at h
  rw [bind_eq_ok] at h
  obtain ⟨rows, hrows, h⟩ := h
  obtain rfl := Except.ok.inj h
  exact {
    index := rfl
    rows := rows_iff_holds.mp hrows
    head := (writerHead_eq_ok hhead).imp_left fun ⟨hnone, hnew, _, hfresh⟩ => ⟨hnone, hnew, hfresh⟩
    unaltered := by simp [Draft.Altered, Draft.ofRows]
    node := fun id => by simp [Draft.node, Draft.ofRows]
    backlinks := rfl
    rank := rfl
    generator := rfl }

/-- **A searcher shows what is committed.** -/
theorem Database.shows_of_searcher (h : db.searcher index = .ok x) : (db.entry index).Shows index x := by
  obtain ⟨hindex, hhead, hrows⟩ := searcher_eq_ok.mp h
  exact ⟨hindex, head_eq_some.mp hhead, rows_iff_holds.mp hrows⟩

end Starts

/-- Opening a writer is taking the index and starting. -/
theorem Database.openWriter_eq_start {db : Database} (r : WriterRequest) :
    db.openWriter r.index r.dimension r.metric r.options r.entropy =
      if r.dimension = 0 then .answered (.error (.invalidParameter .dimension))
      else if db.writing.contains r.index then
        match r.options.acquire with
        | .failFast => .answered (.error (.writerBusy r.index))
        | .block => .waiting
      else .answered ((db.start r).map fun w => (w, db.hold r.index)) := by
  unfold openWriter start
  cases db.writerHead r.index r.dimension r.metric r.options.params with
  | error e => rfl
  | ok found => cases db.rows r.index <;> rfl

/-- Where a party stands. -/
inductive Phase where
  | idle
  /-- It waits for an index that is held. -/
  | waiting (request : WriterRequest)
  /-- It has the index, and has not read the tables yet. -/
  | opening (request : WriterRequest)
  /-- It has a writer, which was opened on `base`. -/
  | writing (base : Entry) (writer : Writer)
  /-- It has the index for a removal. -/
  | removing (index : IndexId)
  /-- Its call is decided, and it still has the index. -/
  | closing (index : IndexId) (result : Except Error Unit)
  | reading (searcher : Searcher)

/-- A step of a party. -/
inductive Action where
  /-- It asks for a writer. -/
  | openWriter (request : WriterRequest)
  /-- It wakes up, and asks again. -/
  | retry
  /-- It reads the tables, and has its writer. -/
  | start
  | change (change : Change)
  /-- The transaction of a commit, during which the storage reports `allocated` bytes of the file. -/
  | commit (allocated : UInt64)
  | abort
  /-- It asks for an index to remove. -/
  | dropIndex (index : IndexId)
  /-- The transaction of a removal. -/
  | remove
  /-- It gives the index back, and its call returns. -/
  | release
  | openSearcher (index : IndexId)
  | search (query : Embedding) (k ef : Nat) (filter : Option IdSet)
  | closeSearcher

/-- What a party hears after a step. -/
inductive Reply where
  /-- The call goes on. -/
  | pending
  /-- The call waits for another party. -/
  | waiting
  | answered (result : Except Error Unit)
  | found (result : Except Error (List Neighbor))
  /-- The party cannot do this now. -/
  | refused

/-- The index that a party has, for itself alone. -/
def Phase.held : Phase → Option IndexId
  | .opening r => some r.index
  | .writing _ w => some w.index
  | .removing index => some index
  | .closing index _ => some index
  | _ => none

/-- One step of a party. -/
def Phase.step (db : Database) : Phase → Action → Reply × Database × Phase
  | .idle, .openWriter r =>
      if r.dimension = 0 then (.answered (.error (.invalidParameter .dimension)), db, .idle)
      else if db.writing.contains r.index then
        match r.options.acquire with
        | .failFast => (.answered (.error (.writerBusy r.index)), db, .idle)
        | .block => (.waiting, db, .waiting r)
      else (.pending, db.hold r.index, .opening r)
  | .waiting r, .retry =>
      if db.writing.contains r.index then (.waiting, db, .waiting r)
      else (.pending, db.hold r.index, .opening r)
  | .opening r, .start =>
      match db.start r with
      | .ok w => (.answered (.ok ()), db, .writing (db.entry r.index) w)
      | .error e => (.pending, db, .closing r.index (.error e))
  | .writing base w, .change c =>
      let (result, w') := w.run c.edit
      (.answered result, db, .writing base w')
  | .writing _ w, .commit allocated =>
      match db.publish w allocated with
      | .ok db' => (.pending, db', .closing w.index (.ok ()))
      | .error e => (.pending, db, .closing w.index (.error e))
  | .writing _ w, .abort => (.pending, db, .closing w.index (.ok ()))
  | .idle, .dropIndex index =>
      if db.writing.contains index then (.answered (.error (.writerBusy index)), db, .idle)
      else (.pending, db.hold index, .removing index)
  | .removing index, .remove =>
      match Write.applyAll db (removal index) with
      | .ok db' => (.pending, db', .closing index (.ok ()))
      | .error e => (.pending, db, .closing index (.error e))
  | .closing index result, .release => (.answered result, db.release index, .idle)
  | .idle, .openSearcher index =>
      match db.searcher index with
      | .ok x => (.answered (.ok ()), db, .reading x)
      | .error e => (.answered (.error e), db, .idle)
  | .reading x, .search query k ef filter => (.found (x.ask query k ef filter), db, .reading x)
  | .reading _, .closeSearcher => (.answered (.ok ()), db, .idle)
  | phase, _ => (.refused, db, phase)

/-! ## Systems -/

section Systems

variable {π : Type} [DecidableEq π]

/-- A database and the parties that work on it. -/
structure Shared (π : Type) where
  db : Database
  phase : π → Phase

namespace Shared

/-- A database that nobody works on. -/
def quiet (db : Database) : Shared π := ⟨db, fun _ => .idle⟩

/-- The system after a party has moved to another phase, and the database has changed. -/
def put (s : Shared π) (db : Database) (p : π) (phase : Phase) : Shared π :=
  ⟨db, Function.update s.phase p phase⟩

/-- One step of one party. -/
def step (s : Shared π) (p : π) (a : Action) : Reply × Shared π :=
  let (reply, db, phase) := (s.phase p).step s.db a
  (reply, s.put db p phase)

/-- The system after some steps of any of the parties. -/
def run (s : Shared π) (steps : List (π × Action)) : Shared π :=
  steps.foldl (fun s (p, a) => (s.step p a).2) s

end Shared

/-! ## Calls without interruption -/

namespace Shared

/-- A party takes steps until its call has an answer, or has to wait. -/
def call (s : Shared π) (p : π) : List Action → Reply × Shared π
  | [] => (.pending, s)
  | a :: actions =>
      match s.step p a with
      | (.pending, s') => s'.call p actions
      | other => other

variable {s : Shared π} {p : π} {phase phase' : Phase} {db db' : Database} {a : Action}

@[simp] theorem db_put : (s.put db p phase).db = db := rfl

@[simp] theorem phase_put : (s.put db p phase).phase p = phase := by
  unfold put
  dsimp only
  rw [Function.update_self]

@[simp] theorem put_put : (s.put db p phase).put db' p phase' = s.put db' p phase' := by
  unfold put
  rw [Function.update_idem]

theorem put_eq_self (h : s.phase p = phase) : s.put s.db p phase = s := by
  unfold put
  rw [← h, Function.update_eq_self]

/-- What a step does is decided by the database and by where the party stands. -/
theorem step_eq (h : s.phase p = phase) : s.step p a =
    ((phase.step s.db a).1, s.put (phase.step s.db a).2.1 p (phase.step s.db a).2.2) := by
  unfold step
  rw [h]

/-- The call is over after a step that is not pending. -/
theorem call_of_step {actions : List Action} {reply : Reply} {s' : Shared π}
    (hstep : s.step p a = (reply, s')) (hreply : reply ≠ .pending) : s.call p (a :: actions) = (reply, s') := by
  unfold call
  rw [hstep]
  cases reply with
  | pending => exact absurd rfl hreply
  | waiting | answered result | found result | refused => rfl

theorem call_of_pending {actions : List Action} {s' : Shared π} (hstep : s.step p a = (.pending, s')) :
    s.call p (a :: actions) = s'.call p actions := by
  rw [call, hstep]

/-- The party gives its index back, and its call returns. -/
theorem call_release {index : IndexId} {result : Except Error Unit} (h : s.phase p = .closing index result) :
    s.call p [.release] = (.answered result, s.put (s.db.release index) p .idle) :=
  call_of_step (step_eq h) nofun

/-- A writer is opened in two steps; if the second fails, the index is given back in a third. -/
theorem call_openWriter (hidle : s.phase p = .idle) (r : WriterRequest) :
    s.call p [.openWriter r, .start, .release] =
      match s.db.openWriter r.index r.dimension r.metric r.options r.entropy with
      | .waiting => (.waiting, s.put s.db p (.waiting r))
      | .answered (.error e) => (.answered (.error e), s)
      | .answered (.ok (w, db)) => (.answered (.ok ()), s.put db p (.writing (s.db.entry r.index) w)) := by
  have hask := step_eq (a := .openWriter r) hidle
  rw [Database.openWriter_eq_start]
  dsimp only [Phase.step] at hask
  by_cases hdim : r.dimension = 0
  · rw [if_pos hdim] at hask ⊢
    dsimp only at hask ⊢
    rw [put_eq_self hidle] at hask
    exact call_of_step hask nofun
  · rw [if_neg hdim] at hask ⊢
    by_cases hheld : s.db.writing.contains r.index = true
    · rw [if_pos hheld] at hask ⊢
      cases hacquire : r.options.acquire with
      | failFast =>
          rw [hacquire] at hask
          dsimp only at hask
          rw [put_eq_self hidle] at hask
          exact call_of_step hask nofun
      | block =>
          rw [hacquire] at hask
          exact call_of_step hask nofun
    · rw [if_neg hheld] at hask ⊢
      rw [call_of_pending hask]
      -- the party has the index now, and the tables are what they were
      have hhas : (s.put (s.db.hold r.index) p (.opening r)).phase p = .opening r := phase_put
      have hread := step_eq (a := .start) hhas
      have hsame : (s.db.hold r.index).start r = s.db.start r := rfl
      dsimp only [Phase.step] at hread
      rw [db_put, hsame] at hread
      cases hstart : s.db.start r with
      | ok w =>
          rw [hstart] at hread
          dsimp only at hread
          rw [put_put] at hread
          exact call_of_step hread nofun
      | error e =>
          rw [hstart] at hread
          dsimp only at hread
          rw [call_of_pending hread, call_release phase_put, db_put, put_put, put_put,
            Database.release_hold hheld, put_eq_self hidle]
          rfl

/-- A commit is two steps. -/
theorem call_commit {base : Entry} {w : Writer} (h : s.phase p = .writing base w) (allocated : UInt64) :
    s.call p [.commit allocated, .release] =
      (.answered (s.db.commit w allocated).1, s.put (s.db.commit w allocated).2 p .idle) := by
  have hwrite := step_eq (a := .commit allocated) h
  dsimp only [Phase.step] at hwrite
  rw [Database.commit_eq_publish]
  cases hpublish : s.db.publish w allocated with
  | ok db =>
      rw [hpublish] at hwrite
      dsimp only at hwrite
      rw [call_of_pending hwrite, call_release phase_put, db_put, put_put]
  | error e =>
      rw [hpublish] at hwrite
      dsimp only at hwrite
      rw [call_of_pending hwrite, call_release phase_put, db_put, put_put]

/-- So is giving up a writer. -/
theorem call_abort {base : Entry} {w : Writer} (h : s.phase p = .writing base w) :
    s.call p [.abort, .release] = (.answered (.ok ()), s.put (s.db.release w.index) p .idle) := by
  have hclose := step_eq (a := .abort) h
  dsimp only [Phase.step] at hclose
  rw [call_of_pending hclose, call_release phase_put, db_put, put_put]

/-- An index is removed in three steps. -/
theorem call_dropIndex (hidle : s.phase p = .idle) (index : IndexId) :
    s.call p [.dropIndex index, .remove, .release] =
      match s.db.dropIndex index with
      | .error e => (.answered (.error e), s)
      | .ok db => (.answered (.ok ()), s.put db p .idle) := by
  have hask := step_eq (a := .dropIndex index) hidle
  rw [Database.dropIndex_eq_transact]
  dsimp only [Phase.step] at hask
  by_cases hheld : s.db.writing.contains index = true
  · rw [if_pos hheld] at hask ⊢
    dsimp only at hask
    rw [put_eq_self hidle] at hask
    exact call_of_step hask nofun
  · rw [if_neg hheld] at hask ⊢
    rw [call_of_pending hask]
    have hhas : (s.put (s.db.hold index) p (.removing index)).phase p = .removing index := phase_put
    have hwrite := step_eq (a := .remove) hhas
    dsimp only [Phase.step] at hwrite
    rw [db_put] at hwrite
    cases happly : Write.applyAll (s.db.hold index) (removal index) with
    | ok db =>
        rw [happly] at hwrite
        dsimp only at hwrite
        rw [call_of_pending hwrite, call_release phase_put, db_put, put_put, put_put]
        rfl
    | error e =>
        rw [happly] at hwrite
        dsimp only at hwrite
        rw [call_of_pending hwrite, call_release phase_put, db_put, put_put, put_put,
          Database.release_hold hheld, put_eq_self hidle]
        rfl

end Shared

end Systems

end VectorIndex
