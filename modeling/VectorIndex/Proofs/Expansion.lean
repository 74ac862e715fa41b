import VectorIndex.Graph.Descent
import VectorIndex.Proofs.LiveNodes

/-!
# `VectorIndex.Proofs.Expansion` — the run of a beam search

On a graph that shows a map of nodes following a link cannot fail, so the steps of a beam search are functions
of its state. The loop takes the nearest item off the frontier and follows its links, until it halts.
`BeamSearch.Runs` says the same as a relation that also lists the items expanded; there is a run from every
state, and the loop answers what it ends with (`BeamSearch.advance_eq_ok_iff`).

The frontier stays in order and without repetition, and an item joins it only when it is first seen; so no item
is expanded twice (`BeamSearch.Runs.nodup`).

## Contents
- **Pure steps.** `BeamSearch.follow` and `BeamSearch.expand`; `follow_split` and `follow_cases`, what following
  a link can do; what is seen afterwards.
- **Runs.** `BeamSearch.Halts`, `BeamSearch.Runs`.
- **Rules.** `exists_runs`, `advance_eq_ok_iff`; `Runs.keeps`, what every expansion keeps holds at the end;
  `start_keeps`, what holds of nothing and is kept by each entry holds at the start.
- **The frontier.** `BeamSearch.Tidy`, `Runs.nodup`.
-/

namespace VectorIndex

/-- The search has seen `id`. -/
def Beam.see (b : Beam) (id : ItemId) : Beam := { b with visited := b.visited.insert id }

namespace BeamSearch

variable (s : BeamSearch) (nodes : IdMap Node)

/-! ## Pure steps -/

/-- Follows a link on a graph that shows `nodes`. -/
def follow (b : Beam) (id : ItemId) : Beam :=
  if b.visited.contains id then b
  else
    match scoreOf s.graph.rank nodes s.query id with
    | none => b.see id
    | some n => if s.accepts (b.see id) n then s.push (b.see id) n else b.see id

/-- Follows the links of the item `c` taken off the frontier. -/
def expand (b : Beam) (c : Neighbor) (rest : List Neighbor) : Beam :=
  match nodes[c.id]? with
  | none => { b with frontier := rest }
  | some node => (node.linksAt s.layer).foldl (s.follow nodes) { b with frontier := rest }

variable {s nodes}

theorem visit_eq (hs : s.graph.Shows nodes) (b : Beam) (id : ItemId) :
    s.visit b id = .ok (s.follow nodes b id) := by
  unfold visit follow
  by_cases h : b.visited.contains id = true
  · rw [if_pos h, if_pos h]
  · rw [if_neg h, if_neg h, hs.score, ok_bind]
    cases scoreOf s.graph.rank nodes s.query id <;> rfl

theorem visitAll_eq (hs : s.graph.Shows nodes) (b : Beam) (ids : List ItemId) :
    s.visitAll b ids = .ok (ids.foldl (s.follow nodes) b) := by
  induction ids generalizing b with
  | nil => rfl
  | cons id ids ih =>
      unfold visitAll
      rw [visit_eq hs, ok_bind, ih]
      rfl

theorem follow_of_visited {b : Beam} {id : ItemId} (h : id ∈ b.visited) : s.follow nodes b id = b := by
  unfold follow
  rw [if_pos (Std.ExtTreeSet.mem_iff_contains.mp h)]

theorem follow_of_not_mem {b : Beam} {id : ItemId} (hnew : id ∉ b.visited) (hout : id ∉ nodes) :
    s.follow nodes b id = b.see id := by
  unfold follow
  rw [if_neg fun h => hnew (Std.ExtTreeSet.mem_iff_contains.mpr h)]
  cases hscore : scoreOf s.graph.rank nodes s.query id with
  | none => rfl
  | some n =>
      obtain ⟨rfl, hn⟩ := scoreOf_eq_some_iff.mp hscore
      exact absurd hn.mem hout

theorem follow_of_scored {b : Beam} {n : Neighbor} (hnew : n.id ∉ b.visited)
    (hn : Scored s.graph.rank nodes s.query n) :
    s.follow nodes b n.id = if s.accepts b n then s.push (b.see n.id) n else b.see n.id := by
  unfold follow
  rw [if_neg fun h => hnew (Std.ExtTreeSet.mem_iff_contains.mpr h),
    show scoreOf s.graph.rank nodes s.query n.id = some n from hn]
  rfl

variable (s nodes) in
/-- **What following a link can do.** Nothing, when the target was seen; mark it, when it does not resolve; else
    mark it, and push it if it is accepted. -/
theorem follow_split (b : Beam) (id : ItemId) :
    (id ∈ b.visited ∧ s.follow nodes b id = b) ∨
    (id ∉ b.visited ∧ id ∉ nodes ∧ s.follow nodes b id = b.see id) ∨
    (id ∉ b.visited ∧ ∃ n, n.id = id ∧ Scored s.graph.rank nodes s.query n ∧
      s.follow nodes b id = if s.accepts b n then s.push (b.see id) n else b.see id) := by
  by_cases hseen : id ∈ b.visited
  · exact Or.inl ⟨hseen, follow_of_visited hseen⟩
  · right
    by_cases hlive : id ∈ nodes
    · obtain ⟨n, rfl, hn⟩ := exists_scored_of_mem s.graph.rank s.query hlive
      exact Or.inr ⟨hseen, n, rfl, hn, follow_of_scored hseen hn⟩
    · exact Or.inl ⟨hseen, hlive, follow_of_not_mem hseen hlive⟩

variable (s nodes) in
/-- Without the decision: following a link does nothing, marks the target, or marks it and pushes it. Only a full
    shortlist turns a live item away. -/
theorem follow_cases (b : Beam) (id : ItemId) :
    (id ∈ b.visited ∧ s.follow nodes b id = b) ∨
    (id ∉ b.visited ∧ s.follow nodes b id = b.see id ∧ (id ∈ nodes → s.width ≤ b.shortlist.length)) ∨
    (id ∉ b.visited ∧ ∃ n, n.id = id ∧ Scored s.graph.rank nodes s.query n ∧
      s.follow nodes b id = s.push (b.see id) n) := by
  rcases follow_split s nodes b id with hseen | ⟨hnew, hout, heq⟩ | ⟨hnew, n, hid, hn, heq⟩
  · exact Or.inl hseen
  · exact Or.inr (Or.inl ⟨hnew, heq, fun hlive => absurd hlive hout⟩)
  · right
    by_cases haccept : s.accepts b n = true
    · rw [if_pos haccept] at heq
      exact Or.inr ⟨hnew, n, hid, hn, heq⟩
    · rw [if_neg haccept] at heq
      refine Or.inl ⟨hnew, heq, fun _ => ?_⟩
      simp only [accepts, Bool.or_eq_true, not_or] at haccept
      exact Nat.le_of_not_lt fun hlt => haccept.1 (decide_eq_true hlt)

theorem mem_visited_follow {b : Beam} {id other : ItemId} :
    other ∈ (s.follow nodes b id).visited ↔ id = other ∨ other ∈ b.visited := by
  rcases follow_cases s nodes b id with ⟨hseen, heq⟩ | ⟨_, heq, _⟩ | ⟨_, n, _, _, heq⟩
  · rw [heq]
    exact ⟨Or.inr, fun h => h.elim (fun hid => hid ▸ hseen) fun hold => hold⟩
  · rw [heq]
    exact mem_insert_id
  · rw [heq]
    exact mem_insert_id

/-- Afterwards the targets are seen. -/
theorem mem_visited_followAll {b : Beam} {ids : List ItemId} {other : ItemId} :
    other ∈ (ids.foldl (s.follow nodes) b).visited ↔ other ∈ ids ∨ other ∈ b.visited := by
  induction ids generalizing b with
  | nil => exact ⟨Or.inr, fun h => h.resolve_left List.not_mem_nil⟩
  | cons id ids ih => rw [List.foldl_cons, ih, mem_visited_follow, List.mem_cons, or_left_comm, or_assoc, eq_comm]

theorem visited_expand_mono {b : Beam} {c : Neighbor} {rest : List Neighbor} {id : ItemId}
    (h : id ∈ b.visited) : id ∈ (s.expand nodes b c rest).visited := by
  unfold BeamSearch.expand
  split
  · exact h
  · exact mem_visited_followAll.mpr (Or.inr h)

/-- At the start the entries are seen. -/
theorem mem_visited_start {entries : List Neighbor} {n : Neighbor} (h : n ∈ entries) :
    n.id ∈ (s.start entries).visited := by
  have henter : ∀ (es : List Neighbor) (b : Beam), n.id ∈ b.visited ∨ n ∈ es →
      n.id ∈ (es.foldl s.enter b).visited := by
    intro es
    induction es with
    | nil => exact fun b hn => hn.resolve_right List.not_mem_nil
    | cons m es ih =>
        intro b hn
        rw [List.foldl_cons]
        apply ih
        rw [List.mem_cons] at hn
        unfold enter
        by_cases hseen : b.visited.contains m.id = true
        · rw [if_pos hseen]
          rcases hn with hold | rfl | hmem
          · exact Or.inl hold
          · exact Or.inl (Std.ExtTreeSet.mem_iff_contains.mpr hseen)
          · exact Or.inr hmem
        · rw [if_neg hseen]
          rcases hn with hold | rfl | hmem
          · exact Or.inl (mem_insert_id.mpr (Or.inr hold))
          · exact Or.inl (mem_insert_id.mpr (Or.inl rfl))
          · exact Or.inr hmem
  exact henter entries Beam.empty (Or.inr h)

/-! ## Runs -/

/-- Nothing is left to expand, or the nearest item left finishes the search. -/
def Halts (s : BeamSearch) (b : Beam) : Prop :=
  ∀ c rest, b.frontier = c :: rest → s.isFinished b c = true

/-- The loop goes from the first state to the last and expands the listed items in their order. An item that
    does not resolve is only taken off the frontier. -/
inductive Runs (s : BeamSearch) : Beam → List ItemId → Beam → Prop
  | halt {b : Beam} (h : s.Halts b) : Runs s b [] b
  | skip {b last : Beam} {c : Neighbor} {rest : List Neighbor} {ids : List ItemId}
      (hfrontier : b.frontier = c :: rest) (hmore : s.isFinished b c = false)
      (hnode : s.graph.node c.id = .ok none) (hrun : Runs s { b with frontier := rest } ids last) :
      Runs s b ids last
  | expand {b next last : Beam} {c : Neighbor} {rest : List Neighbor} {node : Node} {ids : List ItemId}
      (hfrontier : b.frontier = c :: rest) (hmore : s.isFinished b c = false)
      (hnode : s.graph.node c.id = .ok (some node))
      (hvisit : s.visitAll { b with frontier := rest } (node.linksAt s.layer) = .ok next)
      (hrun : Runs s next ids last) : Runs s b (c.id :: ids) last

/-- Taking an item off the frontier leaves less to do. -/
theorem remaining_pop_lt {b : Beam} {c : Neighbor} {rest : List Neighbor} (h : b.frontier = c :: rest) :
    ({ b with frontier := rest } : Beam).remaining < b.remaining := by
  simp only [Beam.remaining, h, List.length_cons]
  omega

/-- One round of the loop. -/
theorem advance_cons {b : Beam} {c : Neighbor} {rest : List Neighbor} (hfrontier : b.frontier = c :: rest)
    (hmore : s.isFinished b c = false) :
    s.advance b =
      match s.graph.node c.id with
      | .error e => .error e
      | .ok none => s.advance { b with frontier := rest }
      | .ok (some node) => s.visitAll { b with frontier := rest } (node.linksAt s.layer) >>= s.advance := by
  rw [advance]
  split
  · rename_i hempty
    rw [hempty] at hfrontier
    cases hfrontier
  · rename_i c' rest' hfrontier'
    rw [hfrontier] at hfrontier'
    obtain ⟨rfl, rfl⟩ := List.cons.inj hfrontier'
    rw [if_neg (by rw [hmore]; exact Bool.false_ne_true)]
    cases s.graph.node c.id with
    | error e => rfl
    | ok found =>
        cases found with
        | none => rfl
        | some node =>
            dsimp only
            split
            · rename_i e herror
              rw [herror]
              rfl
            · rename_i next hvisit
              rw [hvisit]
              rfl

theorem Runs.advance_eq {b last : Beam} {ids : List ItemId} (h : s.Runs b ids last) :
    s.advance b = .ok last.shortlist := by
  induction h with
  | @halt b hhalt =>
      unfold advance
      split
      · rfl
      · rename_i c rest hfrontier
        rw [if_pos (hhalt c rest hfrontier)]
  | skip hfrontier hmore hnode _ ih =>
      rw [advance_cons hfrontier hmore, hnode]
      exact ih
  | expand hfrontier hmore hnode hvisit _ ih =>
      rw [advance_cons hfrontier hmore, hnode, ← ih]
      dsimp only
      rw [hvisit]
      rfl

theorem Runs.halts {b last : Beam} {ids : List ItemId} (h : s.Runs b ids last) : s.Halts last := by
  induction h with
  | halt hhalt => exact hhalt
  | skip _ _ _ _ ih => exact ih
  | expand _ _ _ _ _ ih => exact ih

/-! ## Rules -/

/-- **From every state there is a run**: every round leaves less to do. -/
theorem exists_runs (hs : s.graph.Shows nodes) (b : Beam) : ∃ ids last, s.Runs b ids last := by
  induction hn : b.remaining using Nat.strongRecOn generalizing b with
  | ind n ih =>
      subst hn
      by_cases hhalt : s.Halts b
      · exact ⟨[], b, .halt hhalt⟩
      · obtain ⟨c, hc⟩ := Classical.not_forall.mp hhalt
        obtain ⟨rest, hrest⟩ := Classical.not_forall.mp hc
        obtain ⟨hfrontier, hfinished⟩ := Classical.not_imp.mp hrest
        have hmore := eq_false_of_ne_true hfinished
        have hpop := remaining_pop_lt hfrontier
        cases hnode : nodes[c.id]? with
        | none =>
            obtain ⟨ids, last, hrun⟩ := ih _ hpop _ rfl
            exact ⟨ids, last, .skip hfrontier hmore ((hs c.id).trans (congrArg Except.ok hnode)) hrun⟩
        | some node =>
            have hvisit := visitAll_eq hs { b with frontier := rest } (node.linksAt s.layer)
            obtain ⟨ids, last, hrun⟩ := ih _ (Nat.lt_of_le_of_lt (visitAll_remaining_le hvisit) hpop) _ rfl
            exact ⟨c.id :: ids, last,
              .expand hfrontier hmore ((hs c.id).trans (congrArg Except.ok hnode)) hvisit hrun⟩

/-- **The loop answers what its run ends with.** -/
theorem advance_eq_ok_iff (hs : s.graph.Shows nodes) {b : Beam} {found : List Neighbor} :
    s.advance b = .ok found ↔ ∃ ids last, s.Runs b ids last ∧ last.shortlist = found := by
  constructor
  · intro h
    obtain ⟨ids, last, hrun⟩ := exists_runs hs b
    exact ⟨ids, last, hrun, Except.ok.inj (hrun.advance_eq.symm.trans h)⟩
  · rintro ⟨ids, last, hrun, rfl⟩
    exact hrun.advance_eq

/-- **Induction over a run** on a graph that shows `nodes`: each round is an expansion. -/
theorem Runs.induction_on (hs : s.graph.Shows nodes) {motive : Beam → List ItemId → Beam → Prop}
    (halt : ∀ b, s.Halts b → motive b [] b)
    (round : ∀ b c rest ids ids' last, b.frontier = c :: rest → s.isFinished b c = false →
      motive (s.expand nodes b c rest) ids last → ids' = c.id :: ids ∨ c.id ∉ nodes ∧ ids' = ids →
      motive b ids' last)
    {b last : Beam} {ids : List ItemId} (h : s.Runs b ids last) : motive b ids last := by
  induction h with
  | halt hhalt => exact halt _ hhalt
  | @skip b last c rest ids hfrontier hmore hnode _ ih =>
      have hnone : nodes[c.id]? = none := Except.ok.inj ((hs c.id).symm.trans hnode)
      have hexpand : s.expand nodes b c rest = { b with frontier := rest } := by
        unfold BeamSearch.expand
        rw [hnone]
      exact round b c rest ids ids last hfrontier hmore (hexpand ▸ ih) (Or.inr ⟨not_mem_iff.mpr hnone, rfl⟩)
  | @expand b next last c rest node ids hfrontier hmore hnode hvisit _ ih =>
      have hsome : nodes[c.id]? = some node := Except.ok.inj ((hs c.id).symm.trans hnode)
      have hexpand : s.expand nodes b c rest = next := by
        rw [visitAll_eq hs, Except.ok.injEq] at hvisit
        unfold BeamSearch.expand
        rw [hsome]
        exact hvisit
      exact round b c rest ids _ last hfrontier hmore (hexpand ▸ ih) (Or.inl rfl)

/-- One more round at the front of a run. -/
theorem Runs.round (hs : s.graph.Shows nodes) {b last : Beam} {c : Neighbor} {rest : List Neighbor}
    {ids : List ItemId} (hfrontier : b.frontier = c :: rest) (hmore : s.isFinished b c = false)
    (hlive : c.id ∈ nodes) (h : s.Runs (s.expand nodes b c rest) ids last) : s.Runs b (c.id :: ids) last := by
  obtain ⟨node, hnode⟩ := mem_iff_exists.mp hlive
  refine .expand hfrontier hmore ((hs c.id).trans (congrArg Except.ok hnode)) (visitAll_eq hs _ _) ?_
  unfold BeamSearch.expand at h
  rw [hnode] at h
  exact h

/-- What every expansion keeps holds at the end. -/
theorem Runs.keeps (hs : s.graph.Shows nodes) {I : Beam → Prop}
    (hstep : ∀ b c rest, I b → b.frontier = c :: rest → I (s.expand nodes b c rest))
    {b last : Beam} {ids : List ItemId} (h : s.Runs b ids last) (hb : I b) : I last := by
  refine Runs.induction_on hs (motive := fun b _ last => I b → I last) ?_ ?_ h hb
  · intro b _ hb
    exact hb
  · intro b c rest ids ids' last hfrontier _ ih _ hb
    exact ih (hstep b c rest hb hfrontier)

/-- What was seen stays seen. -/
theorem Runs.visited_mono (hs : s.graph.Shows nodes) {b last : Beam} {ids : List ItemId}
    (h : s.Runs b ids last) {id : ItemId} (hid : id ∈ b.visited) : id ∈ last.visited :=
  h.keeps hs (I := fun b => id ∈ b.visited) (fun _ _ _ hseen _ => visited_expand_mono hseen) hid

/-- What holds of nothing, and is kept by each new entry, holds at the start. -/
theorem start_keeps {I : Beam → Prop} {entries : List Neighbor} (hempty : I Beam.empty)
    (hpush : ∀ b, ∀ n ∈ entries, I b → n.id ∉ b.visited → I (s.push (b.see n.id) n)) :
    I (s.start entries) := by
  have henter : ∀ (es : List Neighbor) (b : Beam), (∀ n ∈ es, n ∈ entries) → I b → I (es.foldl s.enter b) := by
    intro es
    induction es with
    | nil => exact fun b _ hb => hb
    | cons n es ih =>
        intro b hes hb
        rw [List.foldl_cons]
        apply ih _ fun m hm => hes m (List.mem_cons_of_mem n hm)
        unfold enter
        by_cases hseen : b.visited.contains n.id = true
        · rw [if_pos hseen]
          exact hb
        · rw [if_neg hseen]
          have hnew : n.id ∉ b.visited := fun h => hseen (Std.ExtTreeSet.mem_iff_contains.mp h)
          exact hpush b n (hes n List.mem_cons_self) hb hnew
  exact henter entries Beam.empty (fun n hn => hn) hempty

/-! ## The frontier -/

/-- The frontier ascends, lists no item twice, and holds visited items only. -/
structure Tidy (b : Beam) : Prop where
  sorted : Neighbor.Sorted b.frontier
  distinct : (b.frontier.map Neighbor.id).Nodup
  visited : ∀ n ∈ b.frontier, n.id ∈ b.visited

variable {b : Beam}

theorem tidy_empty : Tidy Beam.empty where
  sorted := List.Pairwise.nil
  distinct := List.nodup_nil
  visited _ h := absurd h List.not_mem_nil

theorem Tidy.see (h : Tidy b) (id : ItemId) : Tidy (b.see id) where
  sorted := h.sorted
  distinct := h.distinct
  visited n hn := mem_insert_id.mpr (Or.inr (h.visited n hn))

theorem Tidy.push (h : Tidy b) {n : Neighbor} (hnew : n.id ∉ b.visited) : Tidy (s.push (b.see n.id) n) where
  sorted := Neighbor.sortedOn_insertOn h.sorted
  distinct := by
    have hnotin : n.id ∉ b.frontier.map Neighbor.id := by
      intro hmem
      obtain ⟨m, hm, heq⟩ := List.mem_map.mp hmem
      exact hnew (heq ▸ h.visited m hm)
    show ((Neighbor.insertSorted n b.frontier).map Neighbor.id).Nodup
    rw [((Neighbor.insertOn_perm n b.frontier).map Neighbor.id).nodup_iff, List.map_cons]
    exact List.nodup_cons.mpr ⟨hnotin, h.distinct⟩
  visited m hm := by
    rcases Neighbor.mem_insertOn.mp hm with rfl | hm
    · exact mem_insert_id.mpr (Or.inl rfl)
    · exact mem_insert_id.mpr (Or.inr (h.visited m hm))

theorem Tidy.follow (h : Tidy b) (id : ItemId) : Tidy (s.follow nodes b id) := by
  rcases follow_cases s nodes b id with ⟨_, heq⟩ | ⟨_, heq, _⟩ | ⟨hnew, n, rfl, _, heq⟩
  · rw [heq]; exact h
  · rw [heq]; exact h.see id
  · rw [heq]; exact h.push hnew

theorem Tidy.pop (h : Tidy b) {c : Neighbor} {rest : List Neighbor} (hfrontier : b.frontier = c :: rest) :
    Tidy { b with frontier := rest } where
  sorted := (List.pairwise_cons.mp (hfrontier ▸ h.sorted)).2
  distinct := by
    have hdistinct := h.distinct
    rw [hfrontier, List.map_cons] at hdistinct
    exact (List.nodup_cons.mp hdistinct).2
  visited n hn := h.visited n (hfrontier ▸ List.mem_cons_of_mem c hn)

/-- The item to be taken off the frontier comes first. -/
theorem Tidy.head_le (h : Tidy b) {c n : Neighbor} {rest : List Neighbor} (hfrontier : b.frontier = c :: rest)
    (hn : n ∈ b.frontier) : c.le n = true := by
  have hsorted := h.sorted
  rw [hfrontier] at hsorted hn
  rcases List.mem_cons.mp hn with rfl | hn
  · exact Neighbor.le_refl n
  · exact (List.pairwise_cons.mp hsorted).1 n hn

/-- The item taken off the frontier is not in the rest. -/
theorem Tidy.not_mem_rest (h : Tidy b) {c : Neighbor} {rest : List Neighbor}
    (hfrontier : b.frontier = c :: rest) : c.id ∉ rest.map Neighbor.id := by
  have hdistinct := h.distinct
  rw [hfrontier, List.map_cons] at hdistinct
  exact (List.nodup_cons.mp hdistinct).1

theorem Tidy.followAll {ids : List ItemId} (h : Tidy b) : Tidy (ids.foldl (s.follow nodes) b) := by
  induction ids generalizing b with
  | nil => exact h
  | cons id ids ih => exact ih (h.follow id)

theorem Tidy.expand (h : Tidy b) {c : Neighbor} {rest : List Neighbor} (hfrontier : b.frontier = c :: rest) :
    Tidy (s.expand nodes b c rest) := by
  unfold BeamSearch.expand
  split
  · exact h.pop hfrontier
  · exact (h.pop hfrontier).followAll

/-- An item joins the frontier when it is first seen. -/
theorem mem_frontier_followAll {ids : List ItemId} {n : Neighbor}
    (h : n ∈ (ids.foldl (s.follow nodes) b).frontier) : n ∈ b.frontier ∨ n.id ∉ b.visited := by
  induction ids generalizing b with
  | nil => exact Or.inl h
  | cons id ids ih =>
      rcases ih h with hmem | hnew
      · rcases follow_cases s nodes b id with ⟨_, heq⟩ | ⟨_, heq, _⟩ | ⟨hnew, m, rfl, _, heq⟩
        · exact Or.inl (heq ▸ hmem)
        · rw [heq] at hmem
          exact Or.inl hmem
        · rw [heq] at hmem
          rcases Neighbor.mem_insertOn.mp hmem with rfl | hmem
          · exact Or.inr hnew
          · exact Or.inl hmem
      · exact Or.inr fun hseen => hnew (mem_visited_follow.mpr (Or.inr hseen))

theorem mem_frontier_expand {c n : Neighbor} {rest : List Neighbor}
    (h : n ∈ (s.expand nodes b c rest).frontier) : n ∈ rest ∨ n.id ∉ b.visited := by
  unfold BeamSearch.expand at h
  split at h
  · exact Or.inl h
  · exact mem_frontier_followAll h

/-- **No item is expanded twice.** What a run expands is on the frontier or not seen yet. -/
theorem Runs.nodup (hs : s.graph.Shows nodes) {last : Beam} {ids : List ItemId} (h : s.Runs b ids last)
    (hb : Tidy b) : ids.Nodup ∧ ∀ id ∈ ids, id ∈ b.frontier.map Neighbor.id ∨ id ∉ b.visited := by
  refine Runs.induction_on hs (motive := fun b ids _ => Tidy b →
    ids.Nodup ∧ ∀ id ∈ ids, id ∈ b.frontier.map Neighbor.id ∨ id ∉ b.visited) ?_ ?_ h hb
  · intro b _ _
    exact ⟨List.nodup_nil, fun id hid => absurd hid List.not_mem_nil⟩
  · intro b c rest ids ids' last hfrontier _ ih hids hb
    obtain ⟨hnodup, hwhere⟩ := ih (hb.expand hfrontier)
    have hc : c ∈ b.frontier := hfrontier ▸ List.mem_cons_self
    have hfirst := hb.not_mem_rest hfrontier
    -- what is expanded later is in the rest of the frontier, or was not seen when `c` was taken off
    have hlater : ∀ id ∈ ids, id ∈ rest.map Neighbor.id ∨ id ∉ b.visited := by
      intro id hid
      rcases hwhere id hid with hmem | hnew
      · obtain ⟨n, hn, rfl⟩ := List.mem_map.mp hmem
        exact (mem_frontier_expand hn).imp_left List.mem_map_of_mem
      · exact Or.inr fun hseen => hnew (visited_expand_mono hseen)
    have hrest : ∀ id ∈ ids, id ∈ b.frontier.map Neighbor.id ∨ id ∉ b.visited := by
      intro id hid
      rw [hfrontier, List.map_cons]
      exact (hlater id hid).imp_left (List.mem_cons_of_mem c.id)
    rcases hids with rfl | ⟨_, rfl⟩
    · refine ⟨List.nodup_cons.mpr ⟨fun hmem => ?_, hnodup⟩, fun id hid => ?_⟩
      · rcases hlater c.id hmem with hin | hnew
        · exact hfirst hin
        · exact hnew (hb.visited c hc)
      · rcases List.mem_cons.mp hid with rfl | hid
        · exact Or.inl (List.mem_map_of_mem hc)
        · exact hrest id hid
    · exact ⟨hnodup, hrest⟩

end BeamSearch
end VectorIndex
