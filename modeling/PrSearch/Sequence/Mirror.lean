import PrSearch.Sequence.Chain

/-! # Sequential runs over a mirror

The graph answers as `git` does on a mirror of the commit graph: ancestry along all parents, ranges
along first parents. One worker runs at a time, so the tables it finds are those it started from.
-/
namespace PrSearch.Sequence

/-- Every answer the graph gives is the one of a mirror of `g`; any query may fail. -/
structure Mirror (g : Dag Sha) (c : Choice) : Prop where
  resolveHead : ∀ {head}, c.resolveHead = .ok (some head) → head ∈ g
  isAncestor : ∀ {ancestor descendant answer}, c.isAncestor ancestor descendant = .ok answer →
    (answer = true ↔ g.Ancestor ancestor descendant)
  mergeBase : ∀ {a b base}, c.mergeBase a b = .ok base → g.MergeBaseAnswer a b base
  firstParentRevList : ∀ {fromSha toSha list}, c.firstParentRevList fromSha toSha = .ok list →
    list = g.range fromSha toSha
  firstParentCommits : ∀ {fromSha toSha commits},
    c.firstParentCommits fromSha toSha = .ok commits →
    commits.map FirstParentCommit.sha = g.range fromSha toSha

/-- A choice in which the graph answers all queries about its commits. -/
def mirrorChoice (g : Dag Sha) (branches : List String) (head : Option Sha) : Choice where
  repository := some ⟨"active", branches⟩
  resolveHead := .ok head
  isAncestor a b := .ok (decide (g.Ancestor a b))
  mergeBase a b := if a ∈ g then .ok (g.mergeBase a b) else .error (.graph "not_found" a)
  firstParentRevList fromSha toSha := .ok (g.range fromSha toSha)
  firstParentCommits fromSha toSha := .ok ((g.range fromSha toSha).map fun sha => ⟨sha, 0⟩)

variable {g : Dag Sha} {d : Store} {newHead : Sha}

theorem mirrorChoice_mirrors {branches : List String} {head : Option Sha}
    (known : ∀ sha ∈ head, sha ∈ g) :
    Mirror g (mirrorChoice g branches head) where
  resolveHead := by
    intro sha said
    exact known sha (Except.ok.inj said)
  isAncestor := by
    intro ancestor descendant answer said
    rw [← Except.ok.inj said, decide_eq_true_eq]
  mergeBase := by
    intro a b base said
    simp only [mirrorChoice] at said
    split at said
    next member =>
      rw [← Except.ok.inj said]
      exact g.mergeBase_answers member
    next => cases said
  firstParentRevList := by
    intro fromSha toSha list said
    exact (Except.ok.inj said).symm
  firstParentCommits := by
    intro fromSha toSha commits said
    rw [← Except.ok.inj said, List.map_map]
    exact List.map_id _

/-- Nobody else acts: the tables move only by the run itself. -/
def alone (allow : Choice → Prop) : Setting where
  allow := allow
  since := Frozen
  trans := Frozen.trans
  frozen := id

section

variable {α : Type} {allow : Choice → Prop} {T : Store → Store → Prop} {w : Unit}

/-- A triple under nobody's interference is a statement about sequential runs. -/
theorem Does.runs {P : World Unit → Prop} {p : Program α} {Q : α → World Unit → Prop}
    {X : World Unit → Prop} (triple : Does (alone allow) T () P p Q X) {s s' : World Unit}
    {out : Except Fault α} (holds : P s) (ran : (machine Unit allow).Runs () p s out s') :
    Machine.ends Q (fun _ => X) out s' :=
  (triple s holds).runs (Rely.refl _ _) ran

end

/-- A run with one choice for all its calls, found by evaluation, with what is to be checked of its
end. -/
theorem runs_of_choice {α : Type} {allow : Choice → Prop} (c : Choice) (allowed : allow c)
    (p : Program α) (db : Store) (check : Except Fault α → Store → Prop)
    [∀ out db, Decidable (check out db)]
    (checked : ((machine Unit allow).eval () c p (World.initial db)).any
      (fun ended => decide (check ended.1 ended.2.db)) = true) :
    ∃ out s, (machine Unit allow).Runs () p (World.initial db) out s ∧ check out s.db := by
  obtain ⟨out, s, ran, passed⟩ := (machine Unit allow).runs_of_check () c (fun _ _ => allowed) p
    (World.initial db) _ checked
  exact ⟨out, s, ran, of_decide_eq_true passed⟩

theorem initial_idle {allow : Choice → Prop} (db : Store) :
    Idle (alone allow) () [] db (World.initial db) := by
  constructor
  · rfl
  · simp [World.initial]
  · rfl
  · exact Frozen.refl db

/-! ### Canonical tables -/

/-- The tables once a chain has been numbered in the first epoch. -/
def numberedTables (chain : List Sha) : Tables where
  space := some ⟨1, chain.getLast?, chain.length, .ok, none, 0, 0, none⟩
  rows := chain.mapIdx fun i sha => ⟨1, i + 1, sha, none, 0, none⟩
  evidence := []
  intents := []

/-- The first-parent chain of a stored head; a branch without one has the empty chain. -/
def headChain (g : Dag Sha) : Option Sha → List Sha
  | none => []
  | some head => g.firstParents head

/-- The current epoch holds the first-parent chain of the stored head, and is the last one. -/
structure Canonical (g : Dag Sha) (db : Store) : Prop where
  known : ∀ head ∈ db.core.headSha, head ∈ g
  chain : Numbers db.rows db.core.seqEpoch (headChain g db.core.headSha)
  headSeq : db.core.headSeq = (headChain g db.core.headSha).length
  unopened : Unopened db.rows db.core.seqEpoch

theorem canonical_empty (g : Dag Sha) : Canonical g Store.empty where
  known := by rintro head ⟨⟩
  chain := by
    intro mergeSeq sha
    simp [BindsIn, Store.empty, elementAt, headChain, Tables.core]
  headSeq := rfl
  unopened := by
    intro row member
    cases member

theorem Canonical.frozen {d' : Store} (frozen : Frozen d d') (canonical : Canonical g d) :
    Canonical g d' := by
  obtain ⟨known, chain, headSeq, unopened⟩ := canonical
  constructor
  · rw [frozen.core]
    exact known
  · rw [frozen.core, frozen.rows]
    exact chain
  · rw [frozen.core]
    exact headSeq
  · rw [frozen.core, frozen.rows]
    exact unopened

/-- A graph that grows keeps the chains of what it had. -/
theorem Canonical.grow {g' : Dag Sha} (grown : g.Extends g') (canonical : Canonical g d) :
    Canonical g' d := by
  have same : headChain g' d.core.headSha = headChain g d.core.headSha := by
    cases h : d.core.headSha with
    | none => rfl
    | some head => exact grown.firstParents (canonical.known head h)
  constructor
  · intro head stored
    exact grown.mem (canonical.known head stored)
  · rw [same]
    exact canonical.chain
  · rw [same]
    exact canonical.headSeq
  · exact canonical.unopened

/-- No number of the current epoch lies above the head. -/
theorem Canonical.below_head {db : Store} (canonical : Canonical g db) :
    ∀ row ∈ db.rows, row.seqEpoch = db.core.seqEpoch → row.mergeSeq ≤ db.core.headSeq := by
  intro row member epoch
  have bound := (canonical.chain row.mergeSeq row.commitSha).mp ⟨row, member, epoch, rfl, rfl⟩
  have inside := elementAt_bounds bound
  rw [canonical.headSeq]
  omega

/-! ### What the transactions bind, over any tables -/

section

variable {E : Setting} {db db' : Store} {ws : List Write}

/-- An assignment keeps every binding and adds the walked commits above the head. -/
theorem Appended.binds {fromSeq toSeq : Int} (appended : Appended E newHead fromSeq toSeq ws db db')
    (below : ∀ row ∈ db.rows, row.seqEpoch = db.core.seqEpoch → row.mergeSeq ≤ db.core.headSeq) :
    ∃ commits, E.Commits db.core.headSha newHead commits ∧
      db'.core = { db.core with
        headSha := some newHead, headSeq := db.core.headSeq + commits.length } ∧
      (∀ seq sha, BindsIn db'.rows db.core.seqEpoch seq sha ↔
        BindsIn db.rows db.core.seqEpoch seq sha ∨
          elementAt (commits.map FirstParentCommit.sha) (seq - 1 - db.core.headSeq) = some sha) ∧
      ∀ epoch seq sha, epoch ≠ db.core.seqEpoch →
        (BindsIn db'.rows epoch seq sha ↔ BindsIn db.rows epoch seq sha) := by
  obtain ⟨commits, entries, requests, walked, fills, rfl, -⟩ := appended.shape
  have consecutive := fills.consecutive
  obtain ⟨rows, -, core⟩ := replay_appendWrites consecutive below rfl appended.replayed
  have length : entries.length = commits.length := by
    have sizes := congrArg List.length fills.commitSha_eq
    simpa using sizes
  refine ⟨commits, walked, by rw [core, length], ?_, ?_⟩
  · intro seq sha
    rw [rows, bindsIn_append, bindsIn_entries consecutive, fills.commitSha_eq]
  · intro epoch seq sha other
    rw [rows, bindsIn_append]
    have none : ¬ BindsIn (entries.map MergeSequenceInsert.row) epoch seq sha :=
      bindsIn_entries_other consecutive other
    simp only [none, or_false]

/-- A rebuild over unopened epochs: what the new epoch binds, and that the old ones stay. -/
theorem rebuilt_binds {core : SequenceSpace} {keepSeq : Int} {commits : List FirstParentCommit}
    {entries : List MergeSequenceInsert} {requests : List Intent}
    (unopened : Unopened db.rows db.core.seqEpoch) (same : core = db.core)
    (fills : Fills (db.core.seqEpoch + 1) (numberCommits keepSeq commits) entries)
    (replayed : replay (rebuildWrites core keepSeq newHead entries requests) db = .ok db') :
    db'.core = ⟨db.core.seqEpoch + 1, some newHead, keepSeq + commits.length, .ok, none, 0, 0,
        none⟩ ∧
      (∀ seq sha, BindsIn db'.rows (db.core.seqEpoch + 1) seq sha ↔
        (0 < keepSeq ∧ seq ≤ keepSeq ∧ BindsIn db.rows db.core.seqEpoch seq sha) ∨
          elementAt (commits.map FirstParentCommit.sha) (seq - 1 - keepSeq) = some sha) ∧
      ∀ epoch seq sha, epoch ≠ db.core.seqEpoch + 1 →
        (BindsIn db'.rows epoch seq sha ↔ BindsIn db.rows epoch seq sha) := by
  have consecutive := fills.consecutive
  have free : ∀ row ∈ db.rows, row.seqEpoch ≠ db.core.seqEpoch + 1 := by
    intro row member epoch
    have opened := unopened row member
    omega
  obtain ⟨rows, -, head⟩ := replay_rebuildWrites consecutive free same replayed
  have length : entries.length = commits.length := by
    have sizes := congrArg List.length fills.commitSha_eq
    simpa using sizes
  refine ⟨by rw [head, length], ?_, ?_⟩
  · intro seq sha
    have fresh : ¬ BindsIn db.rows (db.core.seqEpoch + 1) seq sha :=
      unopened_iff.mp unopened _ seq sha (by omega)
    rw [rows, bindsIn_append, bindsIn_append, bindsIn_keptRows, bindsIn_entries consecutive,
      fills.commitSha_eq]
    simp only [fresh, false_or]
  · intro epoch seq sha other
    rw [rows, bindsIn_append, bindsIn_append]
    have kept : ¬ BindsIn (keptRows db.core keepSeq db.rows) epoch seq sha :=
      bindsIn_keptRows_other other
    have added : ¬ BindsIn (entries.map MergeSequenceInsert.row) epoch seq sha :=
      bindsIn_entries_other consecutive other
    simp only [kept, added, or_false]

end

end PrSearch.Sequence
