import VectorIndex.Proofs.Commit

/-!
# `VectorIndex.Proofs.Session` — runs of the library

A program opens a file, has any number of writers and searchers at a time under handles of its own, and closes
the file again. A `World` is the file between two steps, `World.step` is one step, and `World.run` is what is
left of an empty file after a list of steps. A step that is refused leaves everything as it was.

What the graphs look like depends on the distances, but what is proved of runs does not: the ranking that
belongs to a metric is a parameter. At `Metric.rank` a session does exactly what the library does
(`Writer.rankedBy_rank`).

## Contents
- **Sessions.** `Session`, `Call`, `Session.step`.
- **Files.** `World`, `Step`, `World.run`.
- **What is read.** `Database.head_eq_some`, `Database.rows_eq_ok`, `Database.searcher_eq_ok`.
- **Opened files and writers.** `Database.openFile_eq_ok`, `Database.openWriter_eq_ok`, `Database.writerHead_eq_ok`,
  `Database.dropIndex_eq_ok`.
- **What a call does.** `Session.Moves`, `Session.step_moves`, `Session.writers_step`; `World.opened_step`, where an
  open file comes from.
-/

namespace VectorIndex

/-! ## Sessions -/

/-- A name that a program gives to a writer or searcher. -/
abbrev Handle := Nat

/-- An open database with its writers and searchers. -/
structure Session where
  db : Database
  writers : Std.ExtTreeMap Handle Writer
  searchers : Std.ExtTreeMap Handle Searcher

/-- A call of the library. -/
inductive Call where
  | openWriter (handle : Handle) (index : IndexId) (dimension : Nat) (metric : Metric)
      (options : WriterOptions) (entropy : Random.Generator)
  | change (handle : Handle) (change : Change)
  /-- The storage reports `allocated` bytes of the file. -/
  | commit (handle : Handle) (allocated : UInt64)
  | abort (handle : Handle)
  | openSearcher (handle : Handle) (index : IndexId)
  | closeSearcher (handle : Handle)
  | dropIndex (index : IndexId)

/-- The answer to a call. -/
inductive Answer where
  | done (result : Except Error Unit)
  /-- The call waits for another writer. -/
  | waiting
  /-- The handle is in use, or not in use. -/
  | badHandle

/-- The writer, with other distances. -/
def Writer.rankedBy (w : Writer) (distances : Metric → Ranking) : Writer :=
  { w with draft := w.draft.rankedBy (distances w.draft.head.metric) }

namespace Session

variable (distances : Metric → Ranking) (s : Session)

def openWriter (handle : Handle) (index : IndexId) (dimension : Nat) (metric : Metric)
    (options : WriterOptions) (entropy : Random.Generator) : Answer × Session :=
  if s.writers.contains handle then (.badHandle, s)
  else
    match s.db.openWriter index dimension metric options entropy with
    | .waiting => (.waiting, s)
    | .answered (.error e) => (.done (.error e), s)
    | .answered (.ok (w, db)) =>
        (.done (.ok ()), { s with db := db, writers := s.writers.insert handle (w.rankedBy distances) })

def change (handle : Handle) (c : Change) : Answer × Session :=
  match s.writers[handle]? with
  | none => (.badHandle, s)
  | some w =>
      let (result, w') := w.run c.edit
      (.done result, { s with writers := s.writers.insert handle w' })

def commit (handle : Handle) (allocated : UInt64) : Answer × Session :=
  match s.writers[handle]? with
  | none => (.badHandle, s)
  | some w =>
      let (result, db) := s.db.commit w allocated
      (.done result, { s with db := db, writers := s.writers.erase handle })

def abort (handle : Handle) : Answer × Session :=
  match s.writers[handle]? with
  | none => (.badHandle, s)
  | some w => (.done (.ok ()), { s with db := s.db.release w.index, writers := s.writers.erase handle })

def openSearcher (handle : Handle) (index : IndexId) : Answer × Session :=
  if s.searchers.contains handle then (.badHandle, s)
  else
    match s.db.searcher index with
    | .error e => (.done (.error e), s)
    | .ok x => (.done (.ok ()), { s with searchers := s.searchers.insert handle x })

def dropIndex (index : IndexId) : Answer × Session :=
  match s.db.dropIndex index with
  | .error e => (.done (.error e), s)
  | .ok db => (.done (.ok ()), { s with db := db })

/-- One call. -/
def step : Call → Answer × Session
  | .openWriter handle index dimension metric options entropy =>
      s.openWriter distances handle index dimension metric options entropy
  | .change handle c => s.change handle c
  | .commit handle allocated => s.commit handle allocated
  | .abort handle => s.abort handle
  | .openSearcher handle index => s.openSearcher handle index
  | .closeSearcher handle => (.done (.ok ()), { s with searchers := s.searchers.erase handle })
  | .dropIndex index => s.dropIndex index

end Session

/-! ## Files -/

/-- A file that nobody has open, or that a program has open. -/
inductive World where
  | closed (store : Store)
  | opened (session : Session)

/-- A step of a program. -/
inductive Step where
  | openFile (config : Config)
  | closeFile
  | call (c : Call)

namespace World

/-- One step. A file is opened once at a time, and calls are made while it is open. -/
def step (distances : Metric → Ranking) : World → Step → World
  | .closed store, .openFile config =>
      match Database.openFile config (.store store) with
      | .error _ => .closed store
      | .ok db => .opened ⟨db, ∅, ∅⟩
  | .opened s, .closeFile => .closed s.db.close
  | .opened s, .call c => .opened (s.step distances c).2
  | world, _ => world

/-- What is left of an empty file after the steps. -/
def run (distances : Metric → Ranking) (steps : List Step) : World :=
  steps.foldl (step distances) (.closed Store.empty)

end World

/-! ## What is read -/

section Reads

variable {db : Database} {index : IndexId}

/-- An index is described if its row can be read. -/
theorem Database.head_eq_some {head : Metadata} : db.head index = .ok (some head) ↔
    ∃ row, db.metadata[index]? = some row ∧ Metadata.decode row = .ok head := by
  unfold Database.head
  cases db.metadata[index]? with
  | none => simp
  | some row =>
      simp only [Option.some.injEq, exists_eq_left']
      cases Metadata.decode row <;> simp [Except.mapError, Except.map]

theorem Database.head_eq_none : db.head index = .ok none ↔ db.metadata[index]? = none := by
  unfold Database.head
  cases db.metadata[index]? with
  | none => simp
  | some row =>
      dsimp only
      cases Metadata.decode row <;> simp [Except.mapError, Except.map]

/-- The rows are those of the node table; there are none without it. -/
theorem Database.rows_eq_ok {rows : Rows} : db.rows index = .ok rows ↔
    db.nodes[index]? = some (.rows rows) ∨ db.nodes[index]? = none ∧ rows = ∅ := by
  unfold Database.rows
  cases db.nodes[index]? with
  | none => simp [eq_comm]
  | some table => cases table <;> simp

/-- A searcher has the description and the rows of its index. -/
theorem Database.searcher_eq_ok {x : Searcher} : db.searcher index = .ok x ↔
    x.index = index ∧ db.head index = .ok (some x.head) ∧ db.rows index = .ok x.rows := by
  unfold Database.searcher
  constructor
  · intro h
    rw [bind_eq_ok] at h
    obtain ⟨_ | head, hhead, h⟩ := h
    · cases h
    · rw [bind_eq_ok] at h
      obtain ⟨rows, hrows, h⟩ := h
      obtain rfl := Except.ok.inj h
      exact ⟨rfl, hhead, hrows⟩
  · rintro ⟨rfl, hhead, hrows⟩
    rw [hhead, ok_bind]
    dsimp only
    rw [hrows]
    rfl

end Reads

/-! ## Opened files and writers -/

/-- **What opening a file gives.** The parameters are valid, every description can be read, and the database
    holds the tables of the file. -/
theorem Database.openFile_eq_ok {config : Config} {store : Store} {db : Database}
    (h : openFile config (.store store) = .ok db) :
    config.params.check = .ok () ∧ ∃ metadata, store.metadata = .rows metadata ∧
      checkRows metadata.toList = .ok () ∧ db = ⟨config, metadata, store.nodes, ∅⟩ := by
  unfold openFile at h
  rw [bind_eq_ok] at h
  obtain ⟨_, hcheck, h⟩ := h
  dsimp only at h
  cases hmetadata : store.metadata with
  | foreign =>
      rw [hmetadata] at h
      cases h
  | rows metadata =>
      rw [hmetadata] at h
      dsimp only at h
      rw [bind_eq_ok] at h
      obtain ⟨_, hrows, h⟩ := h
      exact ⟨hcheck, metadata, rfl, hrows, (Except.ok.inj h).symm⟩

/-- **What a writer starts from.** No other writer holds the index, and the draft is that of the committed
    rows. -/
theorem Database.openWriter_eq_ok {db db' : Database} {index : IndexId} {dimension : Nat} {metric : Metric}
    {options : WriterOptions} {entropy : Random.Generator} {w : Writer}
    (h : db.openWriter index dimension metric options entropy = .answered (.ok (w, db'))) :
    index ∉ db.writing ∧ db' = { db with writing := db.writing.insert index } ∧
      ∃ head isNew rows generator, db.writerHead index dimension metric options.params = .ok (head, isNew) ∧
        db.rows index = .ok rows ∧ w = ⟨index, isNew, Draft.ofRows head rows generator⟩ := by
  unfold openWriter at h
  by_cases hdim : dimension = 0
  · rw [if_pos hdim] at h
    cases h
  · rw [if_neg hdim] at h
    by_cases hheld : db.writing.contains index = true
    · rw [if_pos hheld] at h
      split at h <;> cases h
    · rw [if_neg hheld, Request.answered.injEq, bind_eq_ok] at h
      obtain ⟨⟨head, isNew⟩, hhead, h⟩ := h
      dsimp only at h
      rw [bind_eq_ok] at h
      obtain ⟨rows, hrows, h⟩ := h
      obtain ⟨rfl, rfl⟩ := Prod.mk.inj (Except.ok.inj h)
      exact ⟨fun hc => hheld (Std.ExtTreeSet.mem_iff_contains.mp hc), rfl, head, isNew, rows, _, hhead,
        hrows, rfl⟩

/-- **What a writer's description is.** That of a committed index of the shape asked for, or a new one, and then its
    parameters are valid. -/
theorem Database.writerHead_eq_ok {db : Database} {index : IndexId} {dimension : Nat} {metric : Metric}
    {params : Option Params} {head : Metadata} {isNew : Bool}
    (h : db.writerHead index dimension metric params = .ok (head, isNew)) :
    (db.metadata[index]? = none ∧ isNew = true ∧ (params.getD db.config.params).Valid ∧
      head = Metadata.fresh dimension metric (params.getD db.config.params)) ∨
    ∃ row, db.metadata[index]? = some row ∧ isNew = false ∧ Metadata.decode row = .ok head ∧
      head.dimension.toNat = dimension ∧ head.metric = metric := by
  unfold writerHead at h
  rw [bind_eq_ok] at h
  obtain ⟨_ | found, hfound, h⟩ := h
  · dsimp only at h
    rw [bind_eq_ok] at h
    obtain ⟨_, hcheck, heq⟩ := h
    obtain ⟨rfl, rfl⟩ := Prod.mk.inj (Except.ok.inj heq)
    exact Or.inl ⟨head_eq_none.mp hfound, rfl, Params.check_eq_ok.mp hcheck, rfl⟩
  · obtain ⟨row, hrow, hdecode⟩ := head_eq_some.mp hfound
    dsimp only at h
    split at h
    · cases h
    · rename_i hdimension
      split at h
      · cases h
      · rename_i hmetric
        obtain ⟨rfl, rfl⟩ := Prod.mk.inj (Except.ok.inj h)
        exact Or.inr ⟨row, hrow, rfl, hdecode, Classical.not_not.mp hdimension, Classical.not_not.mp hmetric⟩

/-- What the removal of an index has done. -/
theorem Database.dropIndex_eq_ok {db db' : Database} {index : IndexId} (h : db.dropIndex index = .ok db') :
    index ∉ db.writing ∧ index ∈ db.metadata ∧
      db' = { db with metadata := db.metadata.erase index, nodes := db.nodes.erase index } := by
  unfold Database.dropIndex at h
  split at h
  · cases h
  · rename_i hfree
    split at h
    · cases h
    · rename_i hthere
      rw [Bool.not_eq_true', Bool.not_eq_false] at hthere
      exact ⟨fun hc => hfree (Std.ExtTreeSet.mem_iff_contains.mp hc), Std.ExtTreeMap.mem_iff_contains.mpr hthere,
        (Except.ok.inj h).symm⟩

/-- The library ranks by the metric of the index. -/
theorem Writer.rankedBy_rank {db db' : Database} {index : IndexId} {dimension : Nat} {metric : Metric}
    {options : WriterOptions} {entropy : Random.Generator} {w : Writer}
    (h : db.openWriter index dimension metric options entropy = .answered (.ok (w, db'))) :
    w.rankedBy Metric.rank = w := by
  obtain ⟨_, _, head, isNew, rows, generator, _, _, rfl⟩ := Database.openWriter_eq_ok h
  rfl

/-! ## What a call does -/

/-- **What a call does to a session.** A call that is refused or fails leaves it as it was, except that a commit ends
    its writer in any case, and a rejected change has been run on its writer. -/
inductive Session.Moves (distances : Metric → Ranking) (s : Session) : Call → Answer → Session → Prop where
  | refuses {c : Call} {answer : Answer} (hanswer : answer = .waiting ∨ answer = .badHandle) :
      Moves distances s c answer s
  | fails {c : Call} (e : Error) (hcommit : ∀ handle allocated, c ≠ .commit handle allocated) :
      Moves distances s c (.done (.error e)) s
  | opens {handle : Handle} {index : IndexId} {dimension : Nat} {metric : Metric} {options : WriterOptions}
      {entropy : Random.Generator} {w : Writer} {db : Database} (hunused : ¬s.writers.contains handle = true)
      (hopen : s.db.openWriter index dimension metric options entropy = .answered (.ok (w, db))) :
      Moves distances s (.openWriter handle index dimension metric options entropy) (.done (.ok ()))
        { s with db := db, writers := s.writers.insert handle (w.rankedBy distances) }
  | changes {handle : Handle} {w : Writer} (change : Change) (hw : s.writers[handle]? = some w) :
      Moves distances s (.change handle change) (.done (w.run change.edit).1)
        { s with writers := s.writers.insert handle (w.run change.edit).2 }
  | commits {handle : Handle} {w : Writer} (allocated : UInt64) (hw : s.writers[handle]? = some w) :
      Moves distances s (.commit handle allocated) (.done (s.db.commit w allocated).1)
        { s with db := (s.db.commit w allocated).2, writers := s.writers.erase handle }
  | aborts {handle : Handle} {w : Writer} (hw : s.writers[handle]? = some w) :
      Moves distances s (.abort handle) (.done (.ok ()))
        { s with db := s.db.release w.index, writers := s.writers.erase handle }
  | shows {handle : Handle} {index : IndexId} {x : Searcher} (hx : s.db.searcher index = .ok x) :
      Moves distances s (.openSearcher handle index) (.done (.ok ()))
        { s with searchers := s.searchers.insert handle x }
  | closes (handle : Handle) :
      Moves distances s (.closeSearcher handle) (.done (.ok ())) { s with searchers := s.searchers.erase handle }
  | drops {index : IndexId} {db : Database} (hdrop : s.db.dropIndex index = .ok db) :
      Moves distances s (.dropIndex index) (.done (.ok ())) { s with db := db }

section Calls

variable {s : Session} {distances : Metric → Ranking} {c : Call} {other : Handle} {x : Writer}

theorem Session.step_moves (s : Session) (distances : Metric → Ranking) (c : Call) :
    s.Moves distances c (s.step distances c).1 (s.step distances c).2 := by
  cases c with
  | openWriter handle index dimension metric options entropy =>
      dsimp only [step, Session.openWriter]
      split
      · exact .refuses (Or.inr rfl)
      · rename_i hunused
        split
        · exact .refuses (Or.inl rfl)
        · exact .fails _ fun _ _ => Call.noConfusion
        · rename_i w db hopen
          exact .opens hunused hopen
  | change handle change =>
      dsimp only [step, Session.change]
      split
      · exact .refuses (Or.inr rfl)
      · rename_i w hw
        exact .changes change hw
  | commit handle allocated =>
      dsimp only [step, Session.commit]
      split
      · exact .refuses (Or.inr rfl)
      · rename_i w hw
        exact .commits allocated hw
  | abort handle =>
      dsimp only [step, Session.abort]
      split
      · exact .refuses (Or.inr rfl)
      · rename_i w hw
        exact .aborts hw
  | openSearcher handle index =>
      dsimp only [step, Session.openSearcher]
      split
      · exact .refuses (Or.inr rfl)
      · split
        · exact .fails _ fun _ _ => Call.noConfusion
        · rename_i x hx
          exact .shows hx
  | closeSearcher handle => exact .closes handle
  | dropIndex index =>
      dsimp only [step, Session.dropIndex]
      split
      · exact .fails _ fun _ _ => Call.noConfusion
      · rename_i db hdrop
        exact .drops hdrop

/-- **Where a writer comes from.** A writer that is open after a call was so before, or the call opened it, or
    it is the writer that the call changed. -/
theorem Session.writers_step (h : (s.step distances c).2.writers[other]? = some x) :
    s.writers[other]? = some x ∨
    (∃ index dimension metric options entropy w db,
      c = .openWriter other index dimension metric options entropy ∧
      s.db.openWriter index dimension metric options entropy = .answered (.ok (w, db)) ∧
      x = w.rankedBy distances) ∨
    ∃ change w, c = .change other change ∧ s.writers[other]? = some w ∧ x = (w.run change.edit).2 := by
  have hmoves := s.step_moves distances c
  generalize (s.step distances c).1 = answer, (s.step distances c).2 = s' at hmoves h
  cases hmoves with
  | refuses | fails | shows | closes | drops => exact Or.inl h
  | commits allocated hw => exact Or.inl (getElem?_of_erase h)
  | aborts hw => exact Or.inl (getElem?_of_erase h)
  | @opens handle index dimension metric options entropy w db hunused hopen =>
      dsimp only at h
      rw [getElem?_insert_id] at h
      split at h
      · rename_i heq
        subst heq
        exact Or.inr (Or.inl ⟨index, dimension, metric, options, entropy, w, db, rfl, hopen, (Option.some.inj h).symm⟩)
      · exact Or.inl h
  | @changes handle w change hw =>
      dsimp only at h
      rw [getElem?_insert_id] at h
      split at h
      · rename_i heq
        subst heq
        exact Or.inr (Or.inr ⟨change, w, rfl, hw, (Option.some.inj h).symm⟩)
      · exact Or.inl h

/-- **Where a session comes from.** The step opened the file, or left a session as it was, or made a call. -/
theorem World.opened_step {world : World} {step : Step} (h : world.step distances step = .opened s) :
    (∃ db, s = ⟨db, ∅, ∅⟩) ∨ world = .opened s ∨
    ∃ before c, world = .opened before ∧ step = .call c ∧ s = (before.step distances c).2 := by
  cases world with
  | closed store =>
      cases step with
      | openFile config =>
          unfold World.step at h
          dsimp only at h
          split at h
          · cases h
          · rename_i db _
            exact Or.inl ⟨db, (World.opened.inj h).symm⟩
      | closeFile => cases h
      | call c => cases h
  | opened before =>
      cases step with
      | openFile config => exact Or.inr (Or.inl h)
      | closeFile => cases h
      | call c => exact Or.inr (Or.inr ⟨before, c, rfl, rfl, (World.opened.inj h).symm⟩)

end Calls

end VectorIndex
