import VectorIndex.Proofs.Parties

/-!
# `VectorIndex.Proofs.Locality` — what a step of a party does, and what it looks at

`Phase.Moves` says once what one step can do: take an index that is free, open a writer over what is committed, write
to an index that the party has, give it back. Everything that holds of many parties is proved from these cases.

A step is about one index (`Phase.target`). It leaves the others alone (`Phase.Moves.alikeAt`), and does not look at
them either (`Phase.step_local`). A commit is the exception: it counts the indexes of the file, and the storage tells
it the bytes of the file. So `Phase.Cramped` sets commits apart for which there is no room; of the others it does not
matter what the storage reports (`Action.reporting`).

## Contents
- **What a step does.** `Phase.Moves`, `Phase.step_moves`, and what changes the tables, `Phase.entry_step`.
- **What a step looks at.** `Database.AlikeAt`, `Phase.Cramped`, `Phase.step_local`.
-/

namespace VectorIndex

/-! ## What a step does -/

/-- The index that a step is about. -/
def Phase.target : Phase → Action → Option IndexId
  | .idle, .openWriter r => some r.index
  | .idle, .dropIndex index => some index
  | .idle, .openSearcher index => some index
  | .waiting r, _ => some r.index
  | phase, _ => phase.held

/-- What a step about an index can do to the database and to the party that takes it. -/
inductive Phase.Moves (db : Database) (target : Option IndexId) : Phase → Database → Phase → Prop where
  | rests (phase : Phase) : Moves db target phase db phase
  /-- It goes on without an index. -/
  | turns {phase phase' : Phase} : phase.held = none → phase'.held = none → Moves db target phase db phase'
  /-- It takes an index that is free, for a writer or for a removal. -/
  | takes {phase phase' : Phase} {index : IndexId} : target = some index → phase.held = none →
      index ∉ db.writing → ((∃ r, phase' = .opening r ∧ r.index = index) ∨ phase' = .removing index) →
      Moves db target phase (db.hold index) phase'
  /-- It has a writer now, over what is committed. -/
  | starts {r : WriterRequest} {w : Writer} : (db.entry r.index).Opens db.config.params r w →
      Moves db target (.opening r) db (.writing (db.entry r.index) w)
  | changes {base : Entry} {w : Writer} (c : Change) :
      Moves db target (.writing base w) db (.writing base (w.run c.edit).2)
  /-- Its call is decided, and has written to its index at most. -/
  | closes {phase : Phase} {index : IndexId} {db' : Database} {result : Except Error Unit} :
      target = some index → phase.held = some index → db'.config = db.config → db'.writing = db.writing →
      (∀ other, other ≠ index → db'.entry other = db.entry other) →
      Moves db target phase db' (.closing index result)
  | releases {index : IndexId} {result : Except Error Unit} : target = some index →
      Moves db target (.closing index result) (db.release index) .idle

/-- Two databases hold the same of one index. -/
structure Database.AlikeAt (db db' : Database) (index : IndexId) : Prop where
  entry : db.entry index = db'.entry index
  held : index ∈ db.writing ↔ index ∈ db'.writing

section Moves

variable {db db' : Database} {target : Option IndexId} {phase phase' : Phase} {index : IndexId} {w : Writer}
  {allocated : UInt64}

@[simp] theorem Writer.index_run (w : Writer) (edit : Edit Unit) : (w.run edit).2.index = w.index := rfl

/-- A commit writes its own index only, and takes or frees none. -/
theorem Database.entry_of_publish (h : db.publish w allocated = .ok db') : db'.config = db.config ∧
    db'.writing = db.writing ∧ ∀ other, other ≠ w.index → db'.entry other = db.entry other := by
  obtain ⟨_, d, rows, _, _, rfl⟩ := Database.publish_eq_ok h
  refine ⟨rfl, rfl, fun other hne => ?_⟩
  unfold Database.entry Database.withIndex
  dsimp only
  rw [getElem?_insert_id, getElem?_insert_id, if_neg hne.symm, if_neg hne.symm]

/-- So does a removal. -/
theorem Database.entry_of_removal (h : Write.applyAll db (removal index) = .ok db') : db'.config = db.config ∧
    db'.writing = db.writing ∧ ∀ other, other ≠ index → db'.entry other = db.entry other := by
  unfold removal at h
  rw [Write.applyAll_cons, bind_eq_ok] at h
  obtain ⟨copy, htake, h⟩ := h
  rw [Write.applyAll_singleton] at h
  dsimp only [Write.apply] at htake h
  obtain rfl := Except.ok.inj h
  split at htake
  · obtain rfl := Except.ok.inj htake
    refine ⟨rfl, rfl, fun other hne => ?_⟩
    unfold Database.entry Database.withoutTable
    dsimp only
    rw [getElem?_erase_id, getElem?_erase_id, if_neg hne.symm, if_neg hne.symm]
  · cases htake

/-- **A step does one of these.** -/
theorem Phase.step_moves (db : Database) (phase : Phase) (a : Action) :
    Moves db (phase.target a) phase (phase.step db a).2.1 (phase.step db a).2.2 := by
  have hout : ∀ {i : IndexId}, ¬db.writing.contains i = true → i ∉ db.writing := fun hfree hc =>
    hfree (Std.ExtTreeSet.mem_iff_contains.mp hc)
  unfold Phase.step
  split
  -- a writer is asked for
  · split
    · exact .rests _
    · split
      · split
        · exact .rests _
        · exact .turns rfl rfl
      · rename_i r _ hfree
        exact .takes rfl rfl (hout hfree) (Or.inl ⟨r, rfl, rfl⟩)
  · split
    · exact .rests _
    · rename_i r hfree
      exact .takes rfl rfl (hout hfree) (Or.inl ⟨r, rfl, rfl⟩)
  · split
    · rename_i w hstart
      exact .starts (Database.opens_of_start hstart)
    · exact .closes rfl rfl rfl rfl fun _ _ => rfl
  -- the writer works, and is closed
  · exact .changes _
  · split
    · rename_i db' hpublish
      obtain ⟨hconfig, hwriting, hentry⟩ := Database.entry_of_publish hpublish
      exact .closes rfl rfl hconfig hwriting hentry
    · exact .closes rfl rfl rfl rfl fun _ _ => rfl
  · exact .closes rfl rfl rfl rfl fun _ _ => rfl
  -- an index is removed
  · split
    · exact .rests _
    · rename_i hfree
      exact .takes rfl rfl (hout hfree) (Or.inr rfl)
  · split
    · rename_i db' hremove
      obtain ⟨hconfig, hwriting, hentry⟩ := Database.entry_of_removal hremove
      exact .closes rfl rfl hconfig hwriting hentry
    · exact .closes rfl rfl rfl rfl fun _ _ => rfl
  · exact .releases rfl
  -- a searcher
  · split
    · exact .turns rfl rfl
    · exact .rests _
  · exact .rests _
  · exact .turns rfl rfl
  · exact .rests _

theorem Phase.Moves.config_eq (h : Moves db target phase db' phase') : db'.config = db.config := by
  cases h with
  | rests | turns | takes | starts | changes | releases => rfl
  | closes _ _ hconfig => exact hconfig

/-- A step leaves what is committed of an index alone that the party does not have. -/
theorem Phase.Moves.entry_eq (h : Moves db target phase db' phase') (hindex : phase.held ≠ some index) :
    db'.entry index = db.entry index := by
  cases h with
  | rests | turns | takes | starts | changes | releases => rfl
  | closes _ hheld _ _ hentry =>
      refine hentry index ?_
      rintro rfl
      exact hindex hheld

/-- A step leaves an index alone that it is not about. -/
theorem Phase.Moves.alikeAt (h : Moves db target phase db' phase') (hindex : target ≠ some index) :
    db'.AlikeAt db index := by
  cases h with
  | rests | turns | starts | changes => exact ⟨rfl, Iff.rfl⟩
  | takes htarget =>
      refine ⟨rfl, ?_⟩
      rw [Database.hold, Std.ExtTreeSet.mem_insert, Std.LawfulEqCmp.compare_eq_iff_eq]
      refine or_iff_right ?_
      rintro rfl
      exact hindex htarget
  | closes htarget _ _ hwriting hentry =>
      refine ⟨hentry index ?_, by rw [hwriting]⟩
      rintro rfl
      exact hindex htarget
  | releases htarget =>
      refine ⟨rfl, ?_⟩
      rw [Database.release, Std.ExtTreeSet.mem_erase, Ne, Std.LawfulEqCmp.compare_eq_iff_eq]
      refine and_iff_right ?_
      rintro rfl
      exact hindex htarget

/-- **What changes the tables.** What is committed of an index is changed by a commit of its writer and by its
    removal, and by no other step. -/
theorem Phase.entry_step {a : Action} (h : (phase.step db a).2.1.entry index ≠ db.entry index) :
    (∃ allocated base w, a = .commit allocated ∧ phase = .writing base w ∧ w.index = index) ∨
      a = .remove ∧ phase = .removing index := by
  have hheld : phase.held = some index := by
    by_contra hc
    exact h ((step_moves db phase a).entry_eq hc)
  cases phase with
  | idle | waiting | reading => cases hheld
  | opening r =>
      refine absurd ?_ h
      cases a with
      | start =>
          dsimp only [step]
          split <;> rfl
      | _ => rfl
  | writing base w =>
      cases a with
      | commit allocated => exact Or.inl ⟨allocated, base, w, rfl, rfl, Option.some.inj hheld⟩
      | _ => exact absurd rfl h
  | removing own =>
      obtain rfl := Option.some.inj hheld
      cases a with
      | remove => exact Or.inr ⟨rfl, rfl⟩
      | _ => exact absurd rfl h
  | closing own result =>
      refine absurd ?_ h
      cases a <;> rfl

/-- An open searcher stays open until it is closed. -/
theorem Phase.step_reading {x : Searcher} {a : Action} (ha : a ≠ .closeSearcher) (db : Database) :
    ((Phase.reading x).step db a).2.2 = .reading x := by
  cases a with
  | closeSearcher => exact absurd rfl ha
  | openWriter | retry | start | change | commit | abort | dropIndex | remove | release | openSearcher |
    search => rfl

end Moves

/-! ## What a step looks at -/

/-- The index or the file has no room: the answer depends on all indexes of the file. -/
def Error.IsLimit : Error → Prop
  | .indexLimitReached _ _ => True
  | .storage (.full _ _) => True
  | _ => False

/-- The step is a commit, for which the limit on indexes or the quota leaves no room. -/
def Phase.Cramped (db : Database) (phase : Phase) (a : Action) : Prop :=
  ∃ allocated base w e, a = .commit allocated ∧ phase = .writing base w ∧ db.publish w allocated = .error e ∧
    e.IsLimit

/-- The same step, if the storage reports so many bytes. -/
def Action.reporting (allocated : UInt64) : Action → Action
  | .commit _ => .commit allocated
  | a => a

section Local

variable {db db' : Database} {index : IndexId} {phase : Phase} {a : Action} {w : Writer}
  {allocated allocated' : UInt64}

theorem Action.reporting_of_ne (h : ∀ m, a ≠ .commit m) : a.reporting allocated = a := by
  cases a with
  | commit m => exact absurd rfl (h m)
  | _ => rfl

@[simp] theorem Phase.target_reporting : phase.target (a.reporting allocated) = phase.target a := by
  cases a <;> cases phase <;> rfl

theorem Database.AlikeAt.metadata (h : db.AlikeAt db' index) : db.metadata[index]? = db'.metadata[index]? :=
  congrArg Entry.row h.entry

theorem Database.AlikeAt.nodes (h : db.AlikeAt db' index) : db.nodes[index]? = db'.nodes[index]? :=
  congrArg Entry.table h.entry

theorem Database.AlikeAt.symm (h : db.AlikeAt db' index) : db'.AlikeAt db index := ⟨h.entry.symm, h.held.symm⟩

theorem Database.AlikeAt.trans {db'' : Database} (h : db.AlikeAt db' index) (h' : db'.AlikeAt db'' index) :
    db.AlikeAt db'' index := ⟨h.entry.trans h'.entry, h.held.trans h'.held⟩

/-- Databases that hold the same of every index are the same. -/
theorem Database.eq_of_alikeAt (hconfig : db.config = db'.config) (h : ∀ index, db.AlikeAt db' index) : db = db' := by
  have hmetadata : db.metadata = db'.metadata := Std.ExtTreeMap.ext_getElem? fun index => (h index).metadata
  have hnodes : db.nodes = db'.nodes := Std.ExtTreeMap.ext_getElem? fun index => (h index).nodes
  have hwriting : db.writing = db'.writing := Std.ExtTreeSet.ext_mem fun index => (h index).held
  cases db
  cases db'
  simp only [Database.mk.injEq]
  exact ⟨hconfig, hmetadata, hnodes, hwriting⟩

theorem Database.AlikeAt.head (h : db.AlikeAt db' index) : db.head index = db'.head index := by
  unfold Database.head
  rw [h.metadata]

theorem Database.AlikeAt.rows (h : db.AlikeAt db' index) : db.rows index = db'.rows index := by
  unfold Database.rows
  rw [h.nodes]

theorem Database.AlikeAt.contains (h : db.AlikeAt db' index) : db.contains index = db'.contains index := by
  unfold Database.contains
  rw [Std.ExtTreeMap.contains_eq_isSome_getElem?, h.metadata, Std.ExtTreeMap.contains_eq_isSome_getElem?]

theorem Database.AlikeAt.busy (h : db.AlikeAt db' index) :
    db.writing.contains index = db'.writing.contains index := by
  rw [Bool.eq_iff_iff, ← Std.ExtTreeSet.mem_iff_contains, ← Std.ExtTreeSet.mem_iff_contains, h.held]

theorem Database.AlikeAt.searcher (h : db.AlikeAt db' index) : db.searcher index = db'.searcher index := by
  unfold Database.searcher
  rw [h.head, h.rows]

theorem Database.AlikeAt.start {r : WriterRequest} (h : db.AlikeAt db' r.index) (hconfig : db.config = db'.config) :
    db.start r = db'.start r := by
  unfold Database.start Database.writerHead
  rw [h.head, h.rows, hconfig]

theorem Database.AlikeAt.hold (h : db.AlikeAt db' index) : (db.hold index).AlikeAt (db'.hold index) index := by
  refine ⟨h.entry, ?_⟩
  unfold Database.hold
  simp

theorem Database.AlikeAt.release (h : db.AlikeAt db' index) :
    (db.release index).AlikeAt (db'.release index) index := by
  refine ⟨h.entry, ?_⟩
  unfold Database.release
  simp

theorem Database.AlikeAt.withIndex (h : db.AlikeAt db' index) (head : Metadata) (rows : Rows) :
    (db.withIndex index head rows).AlikeAt (db'.withIndex index head rows) index := by
  refine ⟨?_, h.held⟩
  unfold Database.entry Database.withIndex
  simp only [getElem?_insert_id, if_true]

/-- If there is room, what a commit comes to depends on the draft and the rows. -/
theorem Database.publish_of_room (hroom : ∀ e, db.publish w allocated = .error e → ¬e.IsLimit) :
    db.publish w allocated = (w.settled >>= fun d => (if d.discards then .ok ∅ else db.rows w.index).map fun rows =>
      db.withIndex w.index d.head (d.writeTo rows)) := by
  rw [publish_eq_applyAll] at hroom ⊢
  cases hsettled : w.settled with
  | error e => rfl
  | ok d =>
      rw [hsettled, ok_bind, Writer.applyAll_writes] at hroom
      rw [ok_bind, ok_bind, Writer.applyAll_writes]
      split at hroom
      · exact absurd trivial (hroom _ rfl)
      · rename_i hlimit
        rw [if_neg hlimit]
        cases hrows : (if d.discards then .ok ∅ else db.rows w.index : Except Error Rows) with
        | error e => rfl
        | ok rows =>
            rw [hrows, ok_bind] at hroom
            rw [ok_bind]
            dsimp only [Write.apply] at hroom ⊢
            split at hroom
            · exact absurd trivial (hroom _ rfl)
            · rename_i hquota
              rw [if_neg hquota]
              rfl

/-- If there is room in both, a commit comes to the same, whatever bytes the storage reports. -/
theorem Database.AlikeAt.publish (h : db.AlikeAt db' w.index)
    (hroom : ∀ e, db.publish w allocated = .error e → ¬e.IsLimit)
    (hroom' : ∀ e, db'.publish w allocated' = .error e → ¬e.IsLimit) :
    (∃ e, db.publish w allocated = .error e ∧ db'.publish w allocated' = .error e) ∨
      ∃ out out', db.publish w allocated = .ok out ∧ db'.publish w allocated' = .ok out' ∧
        out.AlikeAt out' w.index := by
  rw [publish_of_room hroom, publish_of_room hroom', h.rows]
  cases w.settled with
  | error e => exact Or.inl ⟨e, rfl, rfl⟩
  | ok d =>
      rw [ok_bind, ok_bind]
      cases (if d.discards then .ok ∅ else db'.rows w.index : Except Error Rows) with
      | error e => exact Or.inl ⟨e, rfl, rfl⟩
      | ok rows => exact Or.inr ⟨_, _, rfl, rfl, h.withIndex d.head (d.writeTo rows)⟩

/-- A removal comes to the same. -/
theorem Database.AlikeAt.remove (h : db.AlikeAt db' index) :
    (∃ e, Write.applyAll db (removal index) = .error e ∧ Write.applyAll db' (removal index) = .error e) ∨
      ∃ out out', Write.applyAll db (removal index) = .ok out ∧ Write.applyAll db' (removal index) = .ok out' ∧
        out.AlikeAt out' index := by
  unfold removal
  rw [Write.applyAll_cons, Write.applyAll_cons]
  dsimp only [Write.apply]
  rw [h.contains]
  split
  · refine Or.inr ⟨_, _, rfl, rfl, ?_, h.held⟩
    unfold Database.entry Database.withoutTable
    simp only [getElem?_erase_id, if_true]
  · exact Or.inl ⟨_, rfl, rfl⟩

/-- A commit looks at its own index only, if it has room. -/
theorem Phase.commit_local
    (h : ∀ index, phase.target (.commit allocated) = some index → db.AlikeAt db' index)
    (hroom : ¬phase.Cramped db (.commit allocated)) (hroom' : ¬phase.Cramped db' (.commit allocated')) :
    (phase.step db (.commit allocated)).1 = (phase.step db' (.commit allocated')).1 ∧
      (phase.step db (.commit allocated)).2.2 = (phase.step db' (.commit allocated')).2.2 ∧
      ∀ index, phase.target (.commit allocated) = some index →
        (phase.step db (.commit allocated)).2.1.AlikeAt (phase.step db' (.commit allocated')).2.1 index := by
  cases phase with
  | writing base w =>
      have hat := (h w.index rfl).publish (fun e he hlimit => hroom ⟨_, base, w, e, rfl, rfl, he, hlimit⟩)
        fun e he hlimit => hroom' ⟨_, base, w, e, rfl, rfl, he, hlimit⟩
      dsimp only [step]
      rcases hat with ⟨e, he, he'⟩ | ⟨out, out', hout, hout', halike⟩
      · rw [he, he']
        exact ⟨rfl, rfl, h⟩
      · rw [hout, hout']
        refine ⟨rfl, rfl, fun index hindex => ?_⟩
        obtain rfl := Option.some.inj hindex
        exact halike
  | _ => exact ⟨rfl, rfl, h⟩

/-- **A step looks at its own index only**, unless it is a commit without room. -/
theorem Phase.step_local (hconfig : db.config = db'.config)
    (h : ∀ index, phase.target a = some index → db.AlikeAt db' index)
    (hroom : ¬phase.Cramped db a) (hroom' : ¬phase.Cramped db' (a.reporting allocated)) :
    (phase.step db a).1 = (phase.step db' (a.reporting allocated)).1 ∧
      (phase.step db a).2.2 = (phase.step db' (a.reporting allocated)).2.2 ∧
      ∀ index, phase.target a = some index →
        (phase.step db a).2.1.AlikeAt (phase.step db' (a.reporting allocated)).2.1 index := by
  by_cases hcommit : ∃ m, a = .commit m
  · obtain ⟨m, rfl⟩ := hcommit
    exact commit_local h hroom hroom'
  rw [Action.reporting_of_ne fun m hm => hcommit ⟨m, hm⟩]
  unfold Phase.step
  split
  -- a writer is asked for
  · rename_i r
    rw [(h r.index rfl).busy]
    split
    · exact ⟨rfl, rfl, h⟩
    · split
      · split <;> exact ⟨rfl, rfl, h⟩
      · refine ⟨rfl, rfl, fun index hindex => ?_⟩
        obtain rfl := Option.some.inj hindex
        exact (h r.index rfl).hold
  · rename_i r
    rw [(h r.index rfl).busy]
    split
    · exact ⟨rfl, rfl, h⟩
    · refine ⟨rfl, rfl, fun index hindex => ?_⟩
      obtain rfl := Option.some.inj hindex
      exact (h r.index rfl).hold
  · rename_i r
    rw [(h r.index rfl).start hconfig, (h r.index rfl).entry]
    split <;> exact ⟨rfl, rfl, h⟩
  -- the writer works, and is closed
  · exact ⟨rfl, rfl, h⟩
  · exact absurd ⟨_, rfl⟩ hcommit
  · exact ⟨rfl, rfl, h⟩
  -- an index is removed
  · rename_i index
    rw [(h index rfl).busy]
    split
    · exact ⟨rfl, rfl, h⟩
    · refine ⟨rfl, rfl, fun other hother => ?_⟩
      obtain rfl := Option.some.inj hother
      exact (h index rfl).hold
  · rename_i index
    rcases (h index rfl).remove with ⟨e, he, he'⟩ | ⟨out, out', hout, hout', halike⟩
    · rw [he, he']
      exact ⟨rfl, rfl, h⟩
    · rw [hout, hout']
      refine ⟨rfl, rfl, fun other hother => ?_⟩
      obtain rfl := Option.some.inj hother
      exact halike
  · rename_i index result
    refine ⟨rfl, rfl, fun other hother => ?_⟩
    obtain rfl := Option.some.inj hother
    exact (h index rfl).release
  -- a searcher
  · rename_i index
    rw [(h index rfl).searcher]
    split <;> exact ⟨rfl, rfl, h⟩
  · exact ⟨rfl, rfl, h⟩
  · exact ⟨rfl, rfl, h⟩
  · exact ⟨rfl, rfl, h⟩

end Local

end VectorIndex
