import VectorIndex.Proofs.Locality
import VectorIndex.Proofs.Refusals

/-!
# `VectorIndex.Proofs.Isolation` — parties do not disturb each other

`Shared.Exclusive` is the invariant of every run: the held indexes are those of the parties, each of one party, and
what is committed of an index stays what it was when its writer was opened. It rests on two orders. A party takes its
index before it reads the tables, and gives it back after its transaction.

`Shared.Traced` is the other one: a writer is what was opened on its entry, after the changes that its party made
(`Entry.Leads`). Together they say that no update is lost: a commit writes its party's changes over the rows that the
party has seen (`Shared.Exclusive.step_commit`).

From them follows what a party can rely on (`Shared.Isolated`, `Shared.run_isolated`): nobody disturbs it at its index,
its writer starts from what the party before it left, its searcher answers from one state, and steps at two indexes
can be exchanged. `Shared.isolation_exceptions` shows where that ends.

## Contents
- **Exclusion.** `Shared.Exclusive`, kept by every step.
- **Writers and their entries.** `Entry.Leads`, `Shared.Traced`, `Shared.Exclusive.step_commit`; `Shared.run_changes`.
- **From one party to the next.** `Shared.NeverFreed`, `Shared.Offers`.
- **Searchers.** `Shared.run_reading`.
- **Two parties at two indexes.** `Shared.steps_commute`.
- **Result.** `Shared.Isolated`, `Shared.run_isolated`, `Shared.isolation_exceptions`.
-/

namespace VectorIndex

/-! ## Exclusion -/

section Systems

variable {π : Type} [DecidableEq π]

/-- The index that a party has. -/
def Shared.held (s : Shared π) (p : π) : Option IndexId := (s.phase p).held

/-- The indexes that are held are those of the parties, each is held by one, and what is committed of an index stays
    what it was when its writer was opened. -/
structure Shared.Exclusive (s : Shared π) : Prop extends Owned s.db.writing s.held where
  current : ∀ {p : π} {base : Entry} {w : Writer}, s.phase p = .writing base w → s.db.entry w.index = base

namespace Shared

variable {s : Shared π} {p q : π} {phase : Phase} {db : Database} {index : IndexId}

theorem phase_put_of_ne (h : q ≠ p) : (s.put db p phase).phase q = s.phase q := by
  unfold put
  dsimp only
  rw [Function.update_of_ne h]

omit [DecidableEq π] in
theorem held_of_phase (h : s.phase p = phase) : s.held p = phase.held := congrArg Phase.held h

theorem held_put : (s.put db p phase).held p = phase.held := held_of_phase phase_put

theorem held_put_of_ne (h : q ≠ p) : (s.put db p phase).held q = s.held q := held_of_phase (phase_put_of_ne h)

/-- What the others' writers were opened on stays, if what is committed of their indexes does. -/
theorem Exclusive.current_put (h : s.Exclusive)
    (hentry : ∀ index, s.held p ≠ some index → db.entry index = s.db.entry index)
    (hbase : ∀ base w, phase = .writing base w → db.entry w.index = base) {q : π} {base : Entry} {w : Writer}
    (hq : (s.put db p phase).phase q = .writing base w) : db.entry w.index = base := by
  by_cases hqp : q = p
  · rw [hqp, phase_put] at hq
    exact hbase base w hq
  · rw [phase_put_of_ne hqp] at hq
    rw [hentry w.index, h.current hq]
    intro hp
    exact hqp (h.unique (held_of_phase hq) hp)

/-- A party moves on with what it has. -/
theorem Exclusive.keep (h : s.Exclusive) (p : π) (db : Database) (phase : Phase)
    (hheld : phase.held = s.held p) (hwriting : db.writing = s.db.writing)
    (hentry : ∀ index, s.held p ≠ some index → db.entry index = s.db.entry index)
    (hbase : ∀ base w, phase = .writing base w → db.entry w.index = base) : (s.put db p phase).Exclusive := by
  have hsame : (s.put db p phase).held = s.held := by
    funext q
    by_cases hqp : q = p
    · rw [hqp, held_put, hheld]
    · rw [held_put_of_ne hqp]
  refine ⟨?_, h.current_put hentry hbase⟩
  rw [db_put, hwriting, hsame]
  exact h.toOwned

/-- A party takes a free index. -/
theorem Exclusive.take (h : s.Exclusive) (hnone : s.held p = none) (hfree : index ∉ s.db.writing)
    (hheld : phase.held = some index) (hnew : ∀ base w, phase ≠ .writing base w) :
    (s.put (s.db.hold index) p phase).Exclusive := by
  refine ⟨?_, h.current_put (fun _ _ => rfl) fun base w hw => absurd hw (hnew base w)⟩
  exact h.toOwned.take hnone hfree (held_put.trans hheld) fun q hne => held_put_of_ne hne

/-- A party gives its index back. -/
theorem Exclusive.release (h : s.Exclusive) (hheld : s.held p = some index) :
    (s.put (s.db.release index) p .idle).Exclusive := by
  refine ⟨?_, h.current_put (fun _ _ => rfl) fun base w hw => by cases hw⟩
  exact h.toOwned.release hheld held_put fun q hne => held_put_of_ne hne

/-- What a step of a party is. -/
theorem step_moves (s : Shared π) (p : π) (a : Action) : ∃ db phase, (s.step p a).2 = s.put db p phase ∧
    Phase.Moves s.db ((s.phase p).target a) (s.phase p) db phase :=
  ⟨_, _, congrArg Prod.snd (step_eq rfl), Phase.step_moves s.db (s.phase p) a⟩

/-- **Every step keeps the exclusion.** -/
theorem Exclusive.step (h : s.Exclusive) (p : π) (a : Action) : (s.step p a).2.Exclusive := by
  obtain ⟨db, phase, hstep, hmoves⟩ := s.step_moves p a
  rw [hstep]
  have hkeep := h.keep p db phase
  unfold Shared.held at hkeep
  generalize (s.phase p).target a = target at hmoves
  generalize hbefore : s.phase p = before at hmoves hkeep
  cases hmoves with
  | rests =>
      exact hkeep rfl rfl (fun _ _ => rfl) fun base w hw => h.current (hbefore.trans hw)
  | turns hnone hnone' =>
      refine hkeep (hnone'.trans hnone.symm) rfl (fun _ _ => rfl) fun base w hw => ?_
      rw [hw] at hnone'
      cases hnone'
  | takes _ hnone hfree hnew =>
      rw [← hbefore] at hnone
      rcases hnew with ⟨r, rfl, rfl⟩ | rfl
      · exact h.take hnone hfree rfl fun _ _ hw => by cases hw
      · exact h.take hnone hfree rfl fun _ _ hw => by cases hw
  | starts hopens =>
      refine hkeep (congrArg some hopens.index) rfl (fun _ _ => rfl) fun base w hw => ?_
      obtain ⟨rfl, rfl⟩ := Phase.writing.inj hw
      rw [hopens.index]
  | changes c =>
      refine hkeep rfl rfl (fun _ _ => rfl) fun base w hw => ?_
      obtain ⟨rfl, rfl⟩ := Phase.writing.inj hw
      rw [Writer.index_run]
      exact h.current hbefore
  | closes _ hheld _ hwriting hentry =>
      refine hkeep hheld.symm hwriting (fun other hother => ?_) fun _ _ hw => by cases hw
      refine hentry other ?_
      rintro rfl
      exact hother hheld
  | releases => exact h.release (held_of_phase hbefore)

omit [DecidableEq π] in
theorem exclusive_quiet (hfree : db.writing = ∅) : (quiet db : Shared π).Exclusive := by
  refine ⟨?_, fun ha => by cases ha⟩
  unfold quiet
  dsimp only
  rw [hfree]
  exact owned_empty fun _ => rfl

/-- What each step keeps holds after every run. -/
theorem run_induction {P : Shared π → Prop} (hstep : ∀ s p a, P s → P (s.step p a).2) (h : P s)
    (steps : List (π × Action)) : P (s.run steps) := by
  induction steps generalizing s with
  | nil => exact h
  | cons entry steps ih => exact ih (hstep s entry.1 entry.2 h)

theorem Exclusive.run (h : s.Exclusive) (steps : List (π × Action)) : (s.run steps).Exclusive :=
  run_induction (fun _ p a h => h.step p a) h steps

theorem phase_step_of_ne {a : Action} (h : q ≠ p) : (s.step p a).2.phase q = s.phase q := phase_put_of_ne h

/-- **Nobody disturbs a party at its index.** Whatever the others do, it stands where it stood, and what is committed
    of its index stays what it was. -/
theorem Exclusive.run_others (h : s.Exclusive) (hheld : s.held p = some index)
    (steps : List (π × Action)) (hothers : ∀ step ∈ steps, step.1 ≠ p) :
    (s.run steps).phase p = s.phase p ∧ (s.run steps).db.entry index = s.db.entry index := by
  induction steps generalizing s with
  | nil => exact ⟨rfl, rfl⟩
  | cons step steps ih =>
      obtain ⟨q, a⟩ := step
      have hq : q ≠ p := hothers (q, a) List.mem_cons_self
      have hphase : (s.step q a).2.phase p = s.phase p := phase_step_of_ne hq.symm
      have hentry : (s.step q a).2.db.entry index = s.db.entry index := by
        obtain ⟨db, phase, hstep, hmoves⟩ := s.step_moves q a
        rw [hstep]
        exact hmoves.entry_eq fun hc => hq (h.unique hc hheld)
      obtain ⟨hphase', hentry'⟩ := ih (h.step q a) ((held_of_phase hphase).trans hheld) fun step hstep =>
        hothers step (List.mem_cons_of_mem _ hstep)
      exact ⟨hphase'.trans hphase, hentry'.trans hentry⟩

end Shared

/-! ## Writers and their entries -/

/-- The writer is one that was opened on the entry, after some changes. -/
def Entry.Leads (entry : Entry) (params : Params) (w : Writer) : Prop :=
  ∃ (r : WriterRequest) (opened : Writer) (changes : List Change), entry.Opens params r opened ∧
    (opened.runAll changes).2 = w

/-- The writer of the party, if it has one, comes from the entry it was opened on. -/
def Phase.Traced (params : Params) (phase : Phase) : Prop :=
  ∀ base w, phase = .writing base w → base.Leads params w

/-- So does every writer. New indexes get `params`, unless a request says otherwise. -/
structure Shared.Traced (params : Params) (s : Shared π) : Prop where
  params_eq : s.db.config.params = params
  phase : ∀ p, (s.phase p).Traced params

section Entries

variable {entry base : Entry} {params : Params} {r : WriterRequest} {w : Writer} {db db' : Database}
  {target : Option IndexId} {phase phase' : Phase}

theorem Entry.Opens.leads (h : entry.Opens params r w) : entry.Leads params w := ⟨r, w, [], h, rfl⟩

theorem Entry.Leads.run (h : entry.Leads params w) (c : Change) : entry.Leads params (w.run c.edit).2 := by
  obtain ⟨r, opened, changes, hopens, rfl⟩ := h
  exact ⟨r, opened, changes ++ [c], hopens, Writer.runAll_append opened changes [c]⟩

/-- The rows of the entry could be read. -/
theorem Entry.Leads.holds (h : entry.Leads params w) : ∃ rows, entry.Holds rows := by
  obtain ⟨r, opened, _, hopens, _⟩ := h
  exact ⟨_, hopens.rows⟩

theorem Phase.traced_of_not_writing (h : ∀ base w, phase ≠ .writing base w) : phase.Traced params :=
  fun base w hw => absurd hw (h base w)

/-- What one step does to a writer: it is opened, or changed by one change more. -/
theorem Phase.Moves.traced (h : Moves db target phase db' phase') (ht : phase.Traced db.config.params) :
    phase'.Traced db.config.params := by
  cases h with
  | rests => exact ht
  | turns _ hnone =>
      refine traced_of_not_writing fun base w hw => ?_
      rw [hw] at hnone
      cases hnone
  | takes _ _ _ hnew =>
      refine traced_of_not_writing ?_
      rintro base w rfl
      rcases hnew with ⟨_, hw, _⟩ | hw <;> cases hw
  | starts hopens =>
      rintro base w hw
      obtain ⟨rfl, rfl⟩ := Phase.writing.inj hw
      exact hopens.leads
  | changes c =>
      rintro base w hw
      obtain ⟨rfl, rfl⟩ := Phase.writing.inj hw
      exact (ht _ _ rfl).run c
  | closes | releases => exact traced_of_not_writing fun _ _ hw => by cases hw

end Entries

namespace Shared

variable {s : Shared π} {p q : π} {phase : Phase} {db : Database} {index : IndexId} {params : Params}

/-- **Every step keeps the trace of every writer.** -/
theorem Traced.step (h : s.Traced params) (p : π) (a : Action) : (s.step p a).2.Traced params := by
  obtain ⟨db, phase, hstep, hmoves⟩ := s.step_moves p a
  rw [hstep]
  obtain ⟨rfl, hphase⟩ := h
  refine ⟨congrArg Config.params hmoves.config_eq, fun q => ?_⟩
  by_cases hqp : q = p
  · rw [hqp, phase_put]
    exact hmoves.traced (hphase p)
  · rw [phase_put_of_ne hqp]
    exact hphase q

omit [DecidableEq π] in
theorem traced_quiet (db : Database) : (quiet db : Shared π).Traced db.config.params :=
  ⟨rfl, fun _ => Phase.traced_of_not_writing fun _ _ hw => by cases hw⟩

theorem Traced.run (h : s.Traced params) (steps : List (π × Action)) : (s.run steps).Traced params :=
  run_induction (fun _ p a h => h.step p a) h steps

/-- **No update is lost.** A commit fails and leaves the tables alone, or the index has the rows that its writer was
    opened on, with what the writer changed. -/
theorem Exclusive.step_commit (h : s.Exclusive) (ht : s.Traced params) {base : Entry} {w : Writer}
    (hw : s.phase p = .writing base w) (allocated : UInt64) :
    (∃ e, s.step p (.commit allocated) = (.pending, s.put s.db p (.closing w.index (.error e)))) ∨
    ∃ d rows, w.settled = .ok d ∧ base.Holds rows ∧ s.step p (.commit allocated) =
      (.pending, s.put (s.db.withIndex w.index d.head (d.writeTo (if d.discards then ∅ else rows))) p
        (.closing w.index (.ok ()))) := by
  rw [step_eq hw]
  dsimp only [Phase.step]
  cases hpublish : s.db.publish w allocated with
  | error e => exact Or.inl ⟨e, rfl⟩
  | ok db =>
      obtain ⟨_, d, rows, hsettled, hrows, rfl⟩ := Database.publish_eq_ok hpublish
      refine Or.inr ⟨d, ?_⟩
      cases hdiscards : d.discards with
      | false =>
          rw [hdiscards] at hrows
          have hholds := Database.rows_iff_holds.mp hrows
          rw [h.current hw] at hholds
          exact ⟨rows, hsettled, hholds, rfl⟩
      | true =>
          -- the writer was cleared, and the rows it was opened on do not count
          rw [hdiscards] at hrows
          obtain ⟨seen, hseen⟩ := (ht.phase p base w hw).holds
          obtain rfl := Except.ok.inj hrows
          exact ⟨seen, hsettled, hseen, rfl⟩

/-- The change that a step makes, if it is a step of the party. -/
def changeOf (p : π) : π × Action → Option Change
  | (q, .change c) => if q = p then some c else none
  | _ => none

/-- **A writer shows the changes of its party, and no others.** -/
theorem run_changes {base : Entry} {w : Writer} (hw : s.phase p = .writing base w)
    (steps : List (π × Action)) (hchanges : ∀ step ∈ steps, step.1 = p → ∃ c, step.2 = .change c) :
    (s.run steps).phase p = .writing base (w.runAll (steps.filterMap (changeOf p))).2 := by
  induction steps generalizing s w with
  | nil => exact hw
  | cons step steps ih =>
      obtain ⟨q, a⟩ := step
      have hlater : ∀ step ∈ steps, step.1 = p → ∃ c, step.2 = .change c := fun step hstep =>
        hchanges step (List.mem_cons_of_mem _ hstep)
      by_cases hq : q = p
      · -- one change more
        subst hq
        obtain ⟨c, rfl⟩ := hchanges (q, a) List.mem_cons_self rfl
        have hstep : (s.step q (.change c)).2.phase q = .writing base (w.run c.edit).2 := by
          rw [step_eq hw, phase_put]
          rfl
        have hsome : changeOf q (q, .change c) = some c := if_pos rfl
        rw [List.filterMap_cons_some hsome]
        exact ih hstep hlater
      · -- whatever another party does, this one stands where it stood
        have hnone : changeOf p (q, a) = none := by
          unfold changeOf
          split
          · rename_i heq
            obtain ⟨rfl, rfl⟩ := Prod.mk.inj heq
            exact if_neg hq
          · rfl
        rw [List.filterMap_cons_none hnone]
        exact ih ((phase_step_of_ne fun heq => hq heq.symm).trans hw) hlater

/-! ## From one party to the next -/

/-- The step frees the index. -/
def Frees (index : IndexId) (s : Shared π) (p : π) (a : Action) : Prop :=
  index ∈ s.db.writing ∧ index ∉ (s.step p a).2.db.writing

/-- No step of the run frees the index. -/
def NeverFreed (index : IndexId) : Shared π → List (π × Action) → Prop
  | _, [] => True
  | s, (p, a) :: steps => ¬Frees index s p a ∧ NeverFreed index (s.step p a).2 steps

/-- Who takes the index next finds the entry there, and has its writer opened on it. -/
structure Offers (entry : Entry) (index : IndexId) (s : Shared π) : Prop where
  free : index ∉ s.db.writing → s.db.entry index = entry
  opening : ∀ {p : π} {r : WriterRequest}, s.phase p = .opening r → r.index = index → s.db.entry index = entry
  opened : ∀ {p : π} {base : Entry} {w : Writer}, s.phase p = .writing base w → w.index = index → base = entry

variable {entry : Entry}

/-- A party moves on; what counts is where it stands now, and what it may have written. -/
theorem Offers.put (h : Offers entry index s) (p : π) (db : Database) (phase : Phase)
    (hfree : index ∉ db.writing → db.entry index = entry)
    (hopening : ∀ q r, s.phase q = .opening r → r.index = index → q ≠ p → db.entry index = s.db.entry index)
    (hopening' : ∀ r, phase = .opening r → r.index = index → db.entry index = entry)
    (hopened' : ∀ base w, phase = .writing base w → w.index = index → base = entry) :
    Offers entry index (s.put db p phase) := by
  refine ⟨hfree, fun {q r} hq hr => ?_, fun {q base w} hq hw => ?_⟩
  · by_cases hqp : q = p
    · rw [hqp, phase_put] at hq
      exact hopening' r hq hr
    · rw [phase_put_of_ne hqp] at hq
      exact (hopening q r hq hr hqp).trans (h.opening hq hr)
  · by_cases hqp : q = p
    · rw [hqp, phase_put] at hq
      exact hopened' base w hq hw
    · rw [phase_put_of_ne hqp] at hq
      exact h.opened hq hw

theorem Offers.step (h : Offers entry index s) (hs : s.Exclusive) (a : Action) (hnever : ¬Frees index s p a) :
    Offers entry index (s.step p a).2 := by
  obtain ⟨db, phase, hstep, hmoves⟩ := s.step_moves p a
  unfold Frees at hnever
  rw [hstep] at hnever ⊢
  have hput := h.put p db phase
  generalize (s.phase p).target a = target at hmoves
  generalize hbefore : s.phase p = before at hmoves
  cases hmoves with
  | rests =>
      exact hput h.free (fun _ _ _ _ _ => rfl) (fun r hr => h.opening (hbefore.trans hr))
        fun base w hw => h.opened (hbefore.trans hw)
  | turns _ hnone =>
      refine hput h.free (fun _ _ _ _ _ => rfl) (fun r hr => ?_) fun base w hw => ?_
      · rw [hr] at hnone
        cases hnone
      · rw [hw] at hnone
        cases hnone
  | @takes _ _ taken _ _ hfree hnew =>
      -- the party takes the index itself, or another one
      have hsame : index ∉ (s.db.hold taken).writing → index ∉ s.db.writing := fun hout hin =>
        hout (Std.ExtTreeSet.mem_insert.mpr (Or.inr hin))
      refine hput (fun hout => h.free (hsame hout)) (fun _ _ _ _ _ => rfl) (fun r hr hindex => ?_) ?_
      · rcases hnew with ⟨r', hr', htaken⟩ | hr'
        · obtain rfl := Phase.opening.inj (hr'.symm.trans hr)
          rw [← htaken, hindex] at hfree
          exact h.free hfree
        · rw [hr'] at hr
          cases hr
      · rintro base w rfl
        rcases hnew with ⟨_, hw, _⟩ | hw <;> cases hw
  | @starts r _ hopens =>
      refine hput h.free (fun _ _ _ _ _ => rfl) (fun _ hr => by cases hr) fun base w hw hw' => ?_
      obtain ⟨rfl, rfl⟩ := Phase.writing.inj hw
      have hr : r.index = index := hopens.index.symm.trans hw'
      rw [hr]
      exact h.opening hbefore hr
  | changes c =>
      refine hput h.free (fun _ _ _ _ _ => rfl) (fun _ hr => by cases hr) fun base w hw hw' => ?_
      obtain ⟨rfl, rfl⟩ := Phase.writing.inj hw
      exact h.opened hbefore hw'
  | @closes _ own _ _ _ hheld _ hwriting hentry =>
      have hmine : s.held p = some own := (held_of_phase hbefore).trans hheld
      refine hput (fun hout => ?_) (fun q r hq hr hne => ?_) (fun _ hr => by cases hr) fun _ _ hw => by cases hw
      · rw [hwriting] at hout
        rw [hentry index, h.free hout]
        rintro rfl
        exact hout ((hs.mem_iff index).mpr ⟨p, hmine⟩)
      · refine hentry index ?_
        rintro rfl
        exact hne (hs.unique ((held_of_phase hq).trans (congrArg some hr)) hmine)
  | @releases own _ _ =>
      have hmine : s.held p = some own := held_of_phase hbefore
      have hne : own ≠ index := by
        rintro rfl
        refine hnever ⟨(hs.mem_iff own).mpr ⟨p, hmine⟩, ?_⟩
        rw [db_put, Database.release, Std.ExtTreeSet.mem_erase]
        exact fun hc => hc.1 Std.ReflCmp.compare_self
      refine hput (fun hout => h.free fun hin => hout ?_) (fun _ _ _ _ _ => rfl) (fun _ hr => by cases hr)
        fun _ _ hw => by cases hw
      rw [Database.release, Std.ExtTreeSet.mem_erase, Ne, Std.LawfulEqCmp.compare_eq_iff_eq]
      exact ⟨hne, hin⟩

/-- **A writer starts from what the party before it left.** From a moment at which the index is free, up to the next
    one at which it is freed, whoever has a writer for it has it over what was committed at that moment. -/
theorem Exclusive.opened_of_neverFreed (h : s.Exclusive) (hfree : index ∉ s.db.writing) (steps : List (π × Action))
    (hnever : NeverFreed index s steps) {base : Entry} {w : Writer} (hw : (s.run steps).phase p = .writing base w)
    (hindex : w.index = index) : base = s.db.entry index := by
  have hstart : Offers (s.db.entry index) index s := by
    refine ⟨fun _ => rfl, fun {q r} hq hr => rfl, fun {q base w} hq hw => ?_⟩
    exact absurd ((h.mem_iff index).mpr ⟨q, (held_of_phase hq).trans (congrArg some hw)⟩) hfree
  have hall : ∀ (steps : List (π × Action)) (t : Shared π), t.Exclusive → Offers (s.db.entry index) index t →
      NeverFreed index t steps → Offers (s.db.entry index) index (t.run steps) := by
    intro steps
    induction steps with
    | nil => exact fun _ _ hoffers _ => hoffers
    | cons step steps ih =>
        intro t ht hoffers hnever
        exact ih _ (ht.step step.1 step.2) (hoffers.step ht step.2 hnever.1) hnever.2
  exact (hall steps s h hstart hnever).opened hw hindex

/-! ## Searchers -/

/-- A searcher stays open until its party closes it. -/
theorem run_reading {x : Searcher} (h : s.phase p = .reading x) (steps : List (π × Action))
    (hopen : (p, Action.closeSearcher) ∉ steps) : (s.run steps).phase p = .reading x := by
  induction steps generalizing s with
  | nil => exact h
  | cons step steps ih =>
      obtain ⟨q, a⟩ := step
      rw [List.mem_cons, not_or] at hopen
      refine ih ?_ hopen.2
      by_cases hq : p = q
      · subst hq
        dsimp only
        rw [step_eq h, phase_put]
        refine Phase.step_reading ?_ s.db
        rintro rfl
        exact hopen.1 rfl
      · exact (phase_put_of_ne hq).trans h

/-! ## Two parties at two indexes -/

/-- The index that a step of a party is about. -/
def target (s : Shared π) (p : π) (a : Action) : Option IndexId := (s.phase p).target a

/-- The step is a commit for which there is no room. -/
def Cramped (s : Shared π) (p : π) (a : Action) : Prop := (s.phase p).Cramped s.db a

section Commute

variable {t : Shared π} {a b : Action} {m n : UInt64}

/-- A step leaves the other indexes alone, and how the database was opened. -/
theorem step_elsewhere (h : s.target p a ≠ some index) : (s.step p a).2.db.AlikeAt s.db index := by
  obtain ⟨db, phase, hstep, hmoves⟩ := s.step_moves p a
  rw [hstep]
  exact hmoves.alikeAt h

theorem config_step : (s.step p a).2.db.config = s.db.config := by
  obtain ⟨db, phase, hstep, hmoves⟩ := s.step_moves p a
  rw [hstep]
  exact hmoves.config_eq

/-- A party that stands in the same place before the same index takes the same step. -/
theorem step_alike (hphase : t.phase p = s.phase p) (hconfig : s.db.config = t.db.config)
    (h : ∀ index, s.target p a = some index → s.db.AlikeAt t.db index)
    (hroom : ¬s.Cramped p a) (hroom' : ¬t.Cramped p (a.reporting m)) :
    (s.step p a).1 = (t.step p (a.reporting m)).1 ∧
      (s.step p a).2.phase p = (t.step p (a.reporting m)).2.phase p ∧
      ∀ index, s.target p a = some index →
        (s.step p a).2.db.AlikeAt (t.step p (a.reporting m)).2.db index := by
  unfold Cramped at hroom'
  rw [hphase] at hroom'
  obtain ⟨hreply, hafter, halike⟩ := Phase.step_local hconfig h hroom hroom'
  rw [step_eq rfl, step_eq hphase, phase_put, phase_put]
  exact ⟨hreply, hafter, halike⟩

/-- What the first of two parties does, and leaves of each index that the second step is not about, does not depend
    on whether the second went before. -/
theorem step_after (hne : p ≠ q) (hindex : ∀ index, s.target p a = some index → s.target q b ≠ some index)
    (hroom : ¬s.Cramped p a) (hroom' : ¬(s.step q b).2.Cramped p (a.reporting m)) :
    (s.step p a).1 = ((s.step q b).2.step p (a.reporting m)).1 ∧
    ((s.step p a).2.step q (b.reporting n)).2.phase p = ((s.step q b).2.step p (a.reporting m)).2.phase p ∧
    ∀ index, s.target q b ≠ some index →
      ((s.step p a).2.step q (b.reporting n)).2.db.AlikeAt ((s.step q b).2.step p (a.reporting m)).2.db index := by
  have hstand : (s.step q b).2.phase p = s.phase p := phase_step_of_ne hne
  have hstand' : (s.step p a).2.phase q = s.phase q := phase_step_of_ne hne.symm
  obtain ⟨hreply, hafter, halike⟩ := step_alike hstand config_step.symm
    (fun index hp => (step_elsewhere (hindex index hp)).symm) hroom hroom'
  refine ⟨hreply, (phase_step_of_ne hne).trans hafter, fun index hq => ?_⟩
  have hlast : ((s.step p a).2.step q (b.reporting n)).2.db.AlikeAt (s.step p a).2.db index := by
    refine step_elsewhere ?_
    unfold target
    rw [Phase.target_reporting, hstand']
    exact hq
  by_cases hp : s.target p a = some index
  · exact hlast.trans (halike index hp)
  · -- neither step is about the index
    have hp' : (s.step q b).2.target p (a.reporting m) ≠ some index := by
      unfold target
      rw [Phase.target_reporting, hstand]
      exact hp
    exact (hlast.trans (step_elsewhere hp)).trans ((step_elsewhere hq).symm.trans (step_elsewhere hp').symm)

/-- **Steps of two parties at two indexes commute**, if neither is a commit without room. The storage may report other
    bytes to a commit that comes second than to one that comes first. -/
theorem steps_commute (hne : p ≠ q) (hindex : ∀ index, s.target p a = some index → s.target q b ≠ some index)
    (hp : ¬s.Cramped p a) (hp' : ¬(s.step q b).2.Cramped p (a.reporting m))
    (hq : ¬s.Cramped q b) (hq' : ¬(s.step p a).2.Cramped q (b.reporting n)) :
    (s.step p a).1 = ((s.step q b).2.step p (a.reporting m)).1 ∧
      (s.step q b).1 = ((s.step p a).2.step q (b.reporting n)).1 ∧
      ((s.step p a).2.step q (b.reporting n)).2 = ((s.step q b).2.step p (a.reporting m)).2 := by
  have hindex' : ∀ index, s.target q b = some index → s.target p a ≠ some index := fun index hb ha =>
    hindex index ha hb
  obtain ⟨hreply, hphase, halike⟩ := step_after hne hindex hp hp'
  obtain ⟨hreply', hphase', halike'⟩ := step_after hne.symm hindex' hq hq'
  have hdb : ((s.step p a).2.step q (b.reporting n)).2.db = ((s.step q b).2.step p (a.reporting m)).2.db := by
    refine Database.eq_of_alikeAt ?_ fun index => ?_
    · rw [config_step, config_step, config_step, config_step]
    · by_cases hb : s.target q b = some index
      · exact (halike' index (hindex' index hb)).symm
      · exact halike index hb
  have hphases : ((s.step p a).2.step q (b.reporting n)).2.phase =
      ((s.step q b).2.step p (a.reporting m)).2.phase := by
    funext r
    by_cases hrp : r = p
    · rw [hrp, hphase]
    · by_cases hrq : r = q
      · rw [hrq, hphase']
      · rw [phase_step_of_ne hrq, phase_step_of_ne hrp, phase_step_of_ne hrp, phase_step_of_ne hrq]
  refine ⟨hreply, hreply', ?_⟩
  calc ((s.step p a).2.step q (b.reporting n)).2
      = ⟨((s.step p a).2.step q (b.reporting n)).2.db, ((s.step p a).2.step q (b.reporting n)).2.phase⟩ := rfl
    _ = ⟨((s.step q b).2.step p (a.reporting m)).2.db, ((s.step q b).2.step p (a.reporting m)).2.phase⟩ := by
        rw [hdb, hphases]

end Commute

/-! ## Result -/

/-- What the parties can rely on. -/
structure Isolated (s : Shared π) : Prop where
  /-- Held are the indexes that the parties have, with a writer or with a call under way. -/
  mem_iff : ∀ index, index ∈ s.db.writing ↔ ∃ p, s.held p = some index
  unique : ∀ (p q : π) (index : IndexId), s.held p = some index → s.held q = some index → p = q
  /-- A request for a held index fails at once, and changes nothing. -/
  busy : ∀ (p : π) (r : WriterRequest), s.phase p = .idle → r.dimension ≠ 0 → r.options.acquire = .failFast →
    r.index ∈ s.db.writing → s.step p (.openWriter r) = (.answered (.error (.writerBusy r.index)), s)
  /-- So does a removal. -/
  busyRemoval : ∀ (p : π) (index : IndexId), s.phase p = .idle → index ∈ s.db.writing →
    s.step p (.dropIndex index) = (.answered (.error (.writerBusy index)), s)
  /-- A request that may wait does so, as often as it wakes up while the index is held. -/
  blocked : ∀ (p : π) (r : WriterRequest), r.dimension ≠ 0 → r.options.acquire = .block → r.index ∈ s.db.writing →
    (s.phase p = .idle → s.step p (.openWriter r) = (.waiting, s.put s.db p (.waiting r))) ∧
    (s.phase p = .waiting r → s.step p .retry = (.waiting, s))
  /-- A free index goes to the party that asks for it, or wakes up for it. -/
  taken : ∀ (p : π) (r : WriterRequest), r.dimension ≠ 0 → r.index ∉ s.db.writing →
    (s.phase p = .idle → s.step p (.openWriter r) = (.pending, s.put (s.db.hold r.index) p (.opening r))) ∧
    (s.phase p = .waiting r → s.step p .retry = (.pending, s.put (s.db.hold r.index) p (.opening r)))
  /-- If a writer cannot be opened, its index is given back with nothing changed, whatever the others do
      meanwhile. -/
  failed : ∀ (p : π) (r : WriterRequest) (e : Error), s.phase p = .opening r → s.db.start r = .error e →
    ∀ others : List (π × Action), (∀ step ∈ others, step.1 ≠ p) →
      (((s.step p .start).2.run others).step p .release).1 = .answered (.error e) ∧
      r.index ∉ (((s.step p .start).2.run others).step p .release).2.db.writing ∧
      (((s.step p .start).2.run others).step p .release).2.db.entry r.index = s.db.entry r.index
  /-- Who has an index and can read its tables gets a writer over what is committed. -/
  opens : ∀ (p : π) (r : WriterRequest), s.phase p = .opening r → ∀ w, s.db.start r = .ok w →
    s.step p .start = (.answered (.ok ()), s.put s.db p (.writing (s.db.entry r.index) w)) ∧
      (s.db.entry r.index).Opens s.db.config.params r w
  /-- What is committed of an index is what its writer was opened on, and the writer has come from there. -/
  current : ∀ (p : π) (base : Entry) (w : Writer), s.phase p = .writing base w →
    s.db.entry w.index = base ∧ base.Leads s.db.config.params w
  /-- Whatever the others do, a writer shows what it showed, and the changes of its party. -/
  changed : ∀ (p : π) (base : Entry) (w : Writer), s.phase p = .writing base w → ∀ later : List (π × Action),
    (∀ step ∈ later, step.1 = p → ∃ c, step.2 = .change c) →
      (s.run later).phase p = .writing base (w.runAll (later.filterMap (changeOf p))).2
  /-- A commit fails and leaves the tables alone, or the index has the rows that its writer was opened on, with what
      the writer changed. -/
  committed : ∀ (p : π) (base : Entry) (w : Writer) (allocated : UInt64), s.phase p = .writing base w →
    (∃ e, s.step p (.commit allocated) = (.pending, s.put s.db p (.closing w.index (.error e)))) ∨
    ∃ d rows, w.settled = .ok d ∧ base.Holds rows ∧ s.step p (.commit allocated) =
      (.pending, s.put (s.db.withIndex w.index d.head (d.writeTo (if d.discards then ∅ else rows))) p
        (.closing w.index (.ok ())))
  /-- Only a commit of its writer and its removal change what is committed of an index. -/
  written : ∀ (p : π) (a : Action) (index : IndexId), (s.step p a).2.db.entry index ≠ s.db.entry index →
    (∃ allocated base w, a = .commit allocated ∧ s.phase p = .writing base w ∧ w.index = index) ∨
      a = .remove ∧ s.phase p = .removing index
  /-- The others leave a party alone, and what is committed of the index it has. -/
  undisturbed : ∀ (p : π) (index : IndexId), s.held p = some index →
    ∀ others : List (π × Action), (∀ step ∈ others, step.1 ≠ p) →
      (s.run others).phase p = s.phase p ∧ (s.run others).db.entry index = s.db.entry index
  /-- Who has the next writer of a free index has it over what is committed now. -/
  handedOver : ∀ index, index ∉ s.db.writing → ∀ later : List (π × Action), NeverFreed index s later →
    ∀ (p : π) (base : Entry) (w : Writer), (s.run later).phase p = .writing base w → w.index = index →
      base = s.db.entry index ∧ base.Leads s.db.config.params w
  /-- A step leaves every index alone that it is not about. -/
  elsewhere : ∀ (p : π) (a : Action) (index : IndexId), s.target p a ≠ some index →
    (s.step p a).2.db.AlikeAt s.db index
  /-- Steps of two parties at two indexes can be exchanged, the limit on indexes and the quota aside, whatever the
      storage reports to the one that comes second. -/
  commute : ∀ (p q : π) (a b : Action) (m n : UInt64), p ≠ q →
    (∀ index, s.target p a = some index → s.target q b ≠ some index) →
    ¬s.Cramped p a → ¬(s.step q b).2.Cramped p (a.reporting m) →
    ¬s.Cramped q b → ¬(s.step p a).2.Cramped q (b.reporting n) →
      (s.step p a).1 = ((s.step q b).2.step p (a.reporting m)).1 ∧
      (s.step q b).1 = ((s.step p a).2.step q (b.reporting n)).1 ∧
      ((s.step p a).2.step q (b.reporting n)).2 = ((s.step q b).2.step p (a.reporting m)).2
  /-- A searcher is opened on what is committed. -/
  snapshot : ∀ (p : π) (index : IndexId) (x : Searcher), s.phase p = .idle → s.db.searcher index = .ok x →
    s.step p (.openSearcher index) = (.answered (.ok ()), s.put s.db p (.reading x)) ∧
      (s.db.entry index).Shows index x
  /-- An open searcher answers from its snapshot until it is closed. -/
  searcher : ∀ (p : π) (x : Searcher), s.phase p = .reading x → ∀ later : List (π × Action),
    (p, Action.closeSearcher) ∉ later → ∀ (query : Embedding) (k ef : Nat) (filter : Option IdSet),
      ((s.run later).step p (.search query k ef filter)).1 = .found (x.ask query k ef filter)

/-- A party that can read its tables has a writer over them. -/
theorem step_start {r : WriterRequest} {w : Writer} (hphase : s.phase p = .opening r) (hstart : s.db.start r = .ok w) :
    s.step p .start = (.answered (.ok ()), s.put s.db p (.writing (s.db.entry r.index) w)) := by
  rw [step_eq hphase]
  dsimp only [Phase.step]
  rw [hstart]

theorem Exclusive.failed (h : s.Exclusive) {r : WriterRequest} {e : Error} (hphase : s.phase p = .opening r)
    (hstart : s.db.start r = .error e) (others : List (π × Action)) (hothers : ∀ step ∈ others, step.1 ≠ p) :
    (((s.step p .start).2.run others).step p .release).1 = .answered (.error e) ∧
      r.index ∉ (((s.step p .start).2.run others).step p .release).2.db.writing ∧
      (((s.step p .start).2.run others).step p .release).2.db.entry r.index = s.db.entry r.index := by
  have hstep : (s.step p .start).2 = s.put s.db p (.closing r.index (.error e)) := by
    rw [step_eq hphase]
    dsimp only [Phase.step]
    rw [hstart]
  have hclosing : (s.step p .start).2.phase p = .closing r.index (.error e) := by rw [hstep, phase_put]
  have hheld : (s.step p .start).2.held p = some r.index := held_of_phase hclosing
  obtain ⟨hstay, hentry⟩ := (h.step p .start).run_others hheld others hothers
  rw [step_eq (hstay.trans hclosing)]
  refine ⟨rfl, ?_, ?_⟩
  · rw [db_put]
    unfold Phase.step Database.release
    simp
  · rw [hstep] at hentry ⊢
    exact hentry

/-- A party that asks for a held index hears so at once, or waits. -/
theorem step_openWriter_of_held {r : WriterRequest} (hidle : s.phase p = .idle) (hdim : r.dimension ≠ 0)
    (hheld : r.index ∈ s.db.writing) : s.step p (.openWriter r) =
      match r.options.acquire with
      | .failFast => (.answered (.error (.writerBusy r.index)), s)
      | .block => (.waiting, s.put s.db p (.waiting r)) := by
  rw [step_eq hidle]
  dsimp only [Phase.step]
  rw [if_neg hdim, if_pos (Std.ExtTreeSet.mem_iff_contains.mp hheld)]
  cases r.options.acquire with
  | failFast =>
      dsimp only
      rw [put_eq_self hidle]
  | block => rfl

theorem step_retry_of_held {r : WriterRequest} (hwaits : s.phase p = .waiting r) (hheld : r.index ∈ s.db.writing) :
    s.step p .retry = (.waiting, s) := by
  rw [step_eq hwaits]
  dsimp only [Phase.step]
  rw [if_pos (Std.ExtTreeSet.mem_iff_contains.mp hheld), put_eq_self hwaits]

/-- A party that finds the index free takes it. -/
theorem step_of_free {r : WriterRequest} (hdim : r.dimension ≠ 0) (hfree : r.index ∉ s.db.writing) :
    (s.phase p = .idle → s.step p (.openWriter r) = (.pending, s.put (s.db.hold r.index) p (.opening r))) ∧
    (s.phase p = .waiting r → s.step p .retry = (.pending, s.put (s.db.hold r.index) p (.opening r))) := by
  have hout : ¬s.db.writing.contains r.index = true := fun hc => hfree (Std.ExtTreeSet.mem_iff_contains.mpr hc)
  constructor
  · intro hidle
    rw [step_eq hidle]
    dsimp only [Phase.step]
    rw [if_neg hdim, if_neg hout]
  · intro hwaits
    rw [step_eq hwaits]
    dsimp only [Phase.step]
    rw [if_neg hout]

theorem step_dropIndex_of_held (hidle : s.phase p = .idle) (hheld : index ∈ s.db.writing) :
    s.step p (.dropIndex index) = (.answered (.error (.writerBusy index)), s) := by
  rw [step_eq hidle]
  dsimp only [Phase.step]
  rw [if_pos (Std.ExtTreeSet.mem_iff_contains.mp hheld), put_eq_self hidle]

theorem step_openSearcher {x : Searcher} (hidle : s.phase p = .idle) (hx : s.db.searcher index = .ok x) :
    s.step p (.openSearcher index) = (.answered (.ok ()), s.put s.db p (.reading x)) := by
  rw [step_eq hidle]
  dsimp only [Phase.step]
  rw [hx]

/-- **Parties do not disturb each other.** A file is opened, whatever it holds, and any number of parties work on the
    database, their steps interleaved in any order. -/
theorem run_isolated {config : Config} {store : Store} (hopen : Database.openFile config (.store store) = .ok db)
    (steps : List (π × Action)) : ((quiet db).run steps).Isolated := by
  obtain ⟨_, metadata, _, _, rfl⟩ := Database.openFile_eq_ok hopen
  have h : ((quiet ⟨config, metadata, store.nodes, ∅⟩ : Shared π).run steps).Exclusive :=
    (exclusive_quiet rfl).run steps
  have htraced : ((quiet ⟨config, metadata, store.nodes, ∅⟩ : Shared π).run steps).Traced config.params :=
    (traced_quiet ⟨config, metadata, store.nodes, ∅⟩).run steps
  generalize (quiet ⟨config, metadata, store.nodes, ∅⟩ : Shared π).run steps = s at h htraced
  rw [← htraced.params_eq] at htraced
  exact {
    mem_iff := h.mem_iff
    unique := fun _ _ _ hp hq => h.unique hp hq
    busy := fun p r hidle hdim hacquire hheld => by rw [step_openWriter_of_held hidle hdim hheld, hacquire]
    busyRemoval := fun p index hidle hheld => step_dropIndex_of_held hidle hheld
    blocked := fun p r hdim hacquire hheld =>
      ⟨fun hidle => by rw [step_openWriter_of_held hidle hdim hheld, hacquire],
        fun hwaits => step_retry_of_held hwaits hheld⟩
    taken := fun p r hdim hfree => step_of_free hdim hfree
    failed := fun p r e hphase hstart others hothers => h.failed hphase hstart others hothers
    opens := fun p r hphase w hstart => ⟨step_start hphase hstart, Database.opens_of_start hstart⟩
    current := fun p base w hw => ⟨h.current hw, htraced.phase p base w hw⟩
    changed := fun p base w hw later hchanges => run_changes hw later hchanges
    committed := fun p base w allocated hw => h.step_commit htraced hw allocated
    written := fun p a index hne => Phase.entry_step hne
    undisturbed := fun _ _ hheld others hothers => h.run_others hheld others hothers
    handedOver := fun index hfree later hnever p base w hw hindex =>
      ⟨h.opened_of_neverFreed hfree later hnever hw hindex, (htraced.run later).phase p base w hw⟩
    elsewhere := fun _ _ _ htarget => step_elsewhere htarget
    commute := fun _ _ _ _ _ _ hne hindex hp hp' hq hq' => steps_commute hne hindex hp hp' hq hq'
    snapshot := fun p index x hidle hx => ⟨step_openSearcher hidle hx, Database.shows_of_searcher hx⟩
    searcher := fun p x hx later hopen query k ef filter => by
      rw [step_eq (run_reading hx later hopen)]
      rfl }

/-! ## Runs -/

/-- A database without indexes, with room for four. -/
def fourIndexes (quota : UInt64) : Database := ⟨⟨4, quota, none, ⟨2, 2, 1, ⟨0x3ff0000000000000⟩, 1⟩⟩, ∅, ∅, ∅⟩

/-- A request for a writer with a fixed seed. -/
def request (index : IndexId) (dimension : Nat) (acquire : Acquire) : WriterRequest :=
  ⟨index, dimension, .euclidean, ⟨acquire, none, some 0⟩, .ofSeed 0⟩

/-- A party waits for an index, until another has committed an item and given the index back. -/
def handover : List (Nat × Action) :=
  [(0, .openWriter (request 7 1 .failFast)), (0, .start), (1, .openWriter (request 7 1 .block)),
    (0, .change (.add 1 [⟨0x3f800000⟩])), (0, .commit 8192), (1, .retry), (0, .release)]

/-- The writer of a party, and what it was opened on. -/
def writer (s : Shared π) (p : π) : Option (Entry × Writer) :=
  match s.phase p with
  | .writing base w => some (base, w)
  | _ => none

omit [DecidableEq π] in
theorem writer_eq_some {base : Entry} {w : Writer} : s.writer p = some (base, w) ↔ s.phase p = .writing base w := by
  unfold writer
  cases s.phase p <;> simp

theorem handover_shows : (((quiet (fourIndexes 1000000)).run handover).run [(1, .retry), (1, .start)]).writer 1 |>.any
    fun (_, w) => w.index == 7 && w.draft.head.size == 1 := by
  decide +kernel

/-- The one that waited has its writer over the item of the other. -/
theorem run_isolated_handover : ∃ (s : Shared Nat) (base : Entry) (w : Writer),
    (quiet (fourIndexes 1000000)).run handover = s ∧ 7 ∉ s.db.writing ∧
      (s.run [(1, .retry), (1, .start)]).phase 1 = .writing base w ∧ w.draft.head.size = 1 ∧
      base = s.db.entry 7 ∧ base.Leads s.db.config.params w := by
  obtain ⟨⟨base, w⟩, hw, hshows⟩ := (Option.any_eq_true _ _).mp handover_shows
  rw [Bool.and_eq_true, beq_iff_eq, beq_iff_eq] at hshows
  have hopen : Database.openFile (fourIndexes 1000000).config (.store .empty) = .ok (fourIndexes 1000000) := rfl
  have hfree : 7 ∉ ((quiet (fourIndexes 1000000)).run handover : Shared Nat).db.writing := by decide +kernel
  have hnever : NeverFreed 7 ((quiet (fourIndexes 1000000)).run handover) [(1, .retry), (1, .start)] := by
    refine ⟨?_, ?_, trivial⟩
    · unfold Frees
      decide +kernel
    · unfold Frees
      decide +kernel
  refine ⟨_, base, w, rfl, hfree, writer_eq_some.mp hw, hshows.2, ?_⟩
  exact (run_isolated hopen handover).handedOver 7 hfree _ hnever 1 base w (writer_eq_some.mp hw) hshows.1

/-- Two parties have writers of new indexes. -/
def twoWriters : List (Nat × Action) :=
  [(1, .openWriter (request 7 1 .failFast)), (1, .start), (2, .openWriter (request 8 1 .failFast)), (2, .start)]

/-- What the call of a party came to, if that is decided: the error, or none. -/
def outcome (s : Shared π) (p : π) : Option (IndexId × Option Error) :=
  match s.phase p with
  | .closing index (.ok _) => some (index, none)
  | .closing index (.error e) => some (index, some e)
  | _ => none

/-- **Where the isolation ends.** An index can be held without a writer, while it is removed. A request that makes no
    sense is not told that the index is held. And of two commits at two indexes, each of which would just fill the
    quota, the second may find that the first has grown the file by a page. -/
theorem isolation_exceptions :
    (∃ s : Shared Nat, (quiet (fourIndexes 8192)).run [(0, .dropIndex 7)] = s ∧ 7 ∈ s.db.writing ∧
      ∀ p base w, s.phase p ≠ .writing base w) ∧
    (∃ s : Shared Nat, (quiet (fourIndexes 8192)).run [(0, .openWriter (request 7 1 .failFast)), (0, .start)] = s ∧
      s.phase 1 = .idle ∧ 7 ∈ s.db.writing ∧
      (s.step 1 (.openWriter (request 7 0 .failFast))).1 = .answered (.error (.invalidParameter .dimension))) ∧
    ∃ s : Shared Nat, (quiet (fourIndexes 1048576)).run twoWriters = s ∧
      (s.step 1 (.commit 1048576)).2.outcome 1 = some (7, none) ∧
      (s.step 2 (.commit 1048576)).2.outcome 2 = some (8, none) ∧
      ((s.step 2 (.commit 1048576)).2.step 1 (.commit 1052672)).2.outcome 1 =
        some (7, some (.storage (.full 1052672 1048576))) ∧
      ((s.step 1 (.commit 1048576)).2.step 2 (.commit 1052672)).2.outcome 2 =
        some (8, some (.storage (.full 1052672 1048576))) := by
  refine ⟨⟨_, rfl, ?_, fun p base w => ?_⟩, ⟨_, rfl, rfl, ?_, rfl⟩, ⟨_, rfl, ?_⟩⟩
  · decide +kernel
  · by_cases hp : p = 0
    · subst hp
      exact fun hc => by cases hc
    · have hidle : ((quiet (fourIndexes 8192) : Shared Nat).step 0 (.dropIndex 7)).2.phase p = .idle :=
        phase_step_of_ne hp
      exact fun hc => by cases hidle.symm.trans hc
  · decide +kernel
  · decide +kernel

end Shared

end Systems

end VectorIndex
