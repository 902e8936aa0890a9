import PrSearch.Sequence.Rules

/-! # What the sequence programs do to the tables

For each program: the transaction it may commit, written as a list of statements over the tables
held under the lock, and the history it leaves for each of its outcomes.
-/
namespace PrSearch.Sequence

open Program

/-! ### Answers of the graph -/

namespace Setting

variable (E : Setting)

def Head (head : Option Sha) : Prop := ∃ c, E.allow c ∧ c.resolveHead = .ok head

def Ancestor (ancestor descendant : Sha) (answer : Bool) : Prop :=
  ∃ c, E.allow c ∧ c.isAncestor ancestor descendant = .ok answer

def MergeBase (a b : Sha) (base : Option Sha) : Prop :=
  ∃ c, E.allow c ∧ c.mergeBase a b = .ok base

def RevList (fromSha : Option Sha) (toSha : Sha) (list : List Sha) : Prop :=
  ∃ c, E.allow c ∧ c.firstParentRevList fromSha toSha = .ok list

def Commits (fromSha : Option Sha) (toSha : Sha) (commits : List FirstParentCommit) : Prop :=
  ∃ c, E.allow c ∧ c.firstParentCommits fromSha toSha = .ok commits

end Setting

/-! ### Transactions -/

/-- The rows to insert for numbered commits, with whatever pull requests were found. -/
def Fills (seqEpoch : Int) : List NumberedCommit → List MergeSequenceInsert → Prop :=
  List.Forall₂ fun numbered entry =>
    ∃ pr, entry = ⟨seqEpoch, numbered.mergeSeq, numbered.sha, pr, numbered.committedAt⟩

/-- Append `entries` to the current epoch of `core` and move its head. -/
def appendWrites (core : SequenceSpace) (newHead : Sha) (entries : List MergeSequenceInsert)
    (requests : List Intent) : List Write :=
  [.ensureSequenceSpace] ++ entries.map .upsertMergeSequence ++
    [.advanceHead newHead (core.headSeq + entries.length)] ++ requests.map .request

/-- Raise the epoch of `core`, keep its numbers up to `keepSeq` and append `entries`. -/
def rebuildWrites (core : SequenceSpace) (keepSeq : Int) (newHead : Sha)
    (entries : List MergeSequenceInsert) (requests : List Intent) : List Write :=
  [.bumpEpoch] ++
    (if 0 < keepSeq then [.copySequencesUpTo core.seqEpoch (core.seqEpoch + 1) keepSeq] else []) ++
    entries.map .upsertMergeSequence ++ [.advanceHead newHead (keepSeq + entries.length)] ++
    requests.map .request

/-- An assignment to `newHead` that takes the tables from `db` to `db'`. -/
structure Appended (E : Setting) (newHead : Sha) (fromSeq toSeq : Int) (ws : List Write)
    (db db' : Store) : Prop where
  shape : ∃ commits entries requests,
    E.Commits db.core.headSha newHead commits ∧
      Fills db.core.seqEpoch (numberCommits db.core.headSeq commits) entries ∧
      ws = appendWrites db.core newHead entries requests ∧ toSeq = fromSeq + entries.length
  fromSeq_eq : fromSeq = db.core.headSeq
  head : E.Head (some newHead)
  gate : ∀ stored, db.core.headSha = some stored → stored ≠ newHead → E.Ancestor stored newHead true
  replayed : replay ws db = .ok db'

/-- The part of a merge base that counts: the base and its number in the epoch, if it has one. -/
def locatedBase (seqEpoch : Int) (base : Option Sha) (db : Store) : Option Sha × Int :=
  match base with
  | none => (none, 0)
  | some sha =>
      match db.findSeqByCommit seqEpoch sha with
      | none => (none, 0)
      | some seq => (some sha, seq)

/-- A reassignment from `storedHead` to `newHead`. -/
structure Rewound (E : Setting) (storedHead newHead : Sha) (done : Reassigned) (ws : List Write)
    (db db' : Store) : Prop where
  stored : db.core.headSha = some storedHead
  shape : ∃ base commits entries requests,
    E.MergeBase storedHead newHead base ∧
      E.Commits (locatedBase db.core.seqEpoch base db).1 newHead commits ∧
      Fills (db.core.seqEpoch + 1)
        (numberCommits (locatedBase db.core.seqEpoch base db).2 commits) entries ∧
      ws = rebuildWrites db.core (locatedBase db.core.seqEpoch base db).2 newHead entries requests ∧
      done.divergedAtSeq = (locatedBase db.core.seqEpoch base db).2 + 1 ∧
      done.toSeq = (locatedBase db.core.seqEpoch base db).2 + entries.length
  epochs : done.oldEpoch = db.core.seqEpoch ∧ done.newEpoch = db.core.seqEpoch + 1
  headSha : done.headSha = newHead
  replayed : replay ws db = .ok db'

/-- What the analysis of a repair has found: the space as it was first, and then the tables `seen`,
whose rows first differ from the chain at `divergedAtSeq`. -/
structure Planned (E : Setting) (plan : RepairPlan) (seen : Store) : Prop where
  reads : ∃ first, first.space = some plan.space ∧ E.since first seen
  analysed : ∃ mismatch, firstSequenceMismatch (seen.listStoredSequence plan.space.seqEpoch 1)
    plan.actual = some mismatch ∧ plan.divergedAtSeq = mismatch.mergeSeq
  chain : E.RevList none plan.head plan.actual
  head : E.Head (some plan.head)

/-- A repair whose analysis was made on the tables `seen`. -/
structure Rebuilt (E : Setting) (plan : RepairPlan) (done : Reassigned) (ws : List Write)
    (seen db db' : Store) : Prop where
  planned : Planned E plan seen
  since : E.since seen db
  epoch : db.core.seqEpoch = plan.space.seqEpoch
  stored : db.core.headSha = plan.space.headSha
  shape : ∃ commits entries requests,
    E.Commits plan.walkFrom plan.head commits ∧
      Fills (db.core.seqEpoch + 1) (numberCommits (plan.divergedAtSeq - 1) commits) entries ∧
      ws = rebuildWrites db.core (plan.divergedAtSeq - 1) plan.head entries requests ∧
      done.toSeq = plan.divergedAtSeq - 1 + entries.length
  epochs : done.oldEpoch = db.core.seqEpoch ∧ done.newEpoch = db.core.seqEpoch + 1
  divergedAtSeq : done.divergedAtSeq = plan.divergedAtSeq
  headSha : done.headSha = plan.head
  replayed : replay ws db = .ok db'

variable {space : SequenceSpace} {view : Store} {β : Type} {base baseSha : Option Sha}
  {baseSeq : Int} {commits : List FirstParentCommit}

/-! ### The core as a transaction reads it -/

theorem SequenceSpace.core_of_space {t : Tables} (found : t.space = some space) :
    t.core.seqEpoch = space.seqEpoch ∧ t.core.headSha = space.headSha ∧
      t.core.headSeq = space.headSeq := by
  simp [Tables.core, found]

variable {db : Store} {storedHead newHead : Sha}

theorem replay_nil (replayed : replay [] db = .ok view) : view = db := by
  simpa [replay] using replayed.symm

/-- Creating the space leaves what reading a missing space already gave. -/
theorem ensured_core (replayed : replay [.ensureSequenceSpace] db = .ok view) :
    view.core = db.core := by
  simp only [replay, Write.run] at replayed
  split at replayed
  · cases replayed
  next count next ran =>
    cases replayed
    split at ran
    next accepted =>
      cases ran
      rw [Tables.accept_ok accepted]
      cases h : db.space <;> simp [Tables.core, Tables.ensureSequenceSpace, h]
    next => cases ran

theorem bumped_epoch {next : Store} {count : Int} (replayed : replay [] db = .ok view)
    (ran : Write.run .bumpEpoch view = .ok (count, next)) : count = db.core.seqEpoch + 1 := by
  cases replay_nil replayed
  simp only [Write.run] at ran
  split at ran
  · cases ran
  next space found =>
    split at ran
    next => cases ran; simp [Tables.core, found]
    next => cases ran

theorem locatedBase_frozen {d : Store} (frozen : Frozen d db) (seqEpoch : Int) (base : Option Sha) :
    locatedBase seqEpoch base db = locatedBase seqEpoch base d := by
  simp only [locatedBase, Store.findSeqByCommit, frozen.rows]

/-! ### The parts that the programs share -/

section

variable {W : Type} [DecidableEq W] {E : Setting} {T : Store → Store → Prop} {w : W}
  {history ws : List Write} {d₀ d : Store}

variable {X : World W → Prop}

variable {P : World W → Prop}

theorem findPullRequestNumber_does (stable : Stable E w P) (sha : Sha) :
    Does E T w P (findPullRequestNumber sha) (fun _ => P) X := by
  apply Does.bind (Does.attempts stable (.findPullRequestByMergeCommit sha)
    (fun c => c.pullRequest sha) fun _ _ => rfl)
  intro r
  cases r with
  | ok found => exact Does.pure fun _ => And.left
  | error fault => exact Does.pure fun _ => And.left

theorem request_does (intent : Intent) (open_of : ∀ ws s, Holding w history ws d s → X s) :
    Does E T w (Holding w history ws d) (request intent)
      (fun _ => Holding w history (ws ++ [.request intent]) d) X :=
  Does.discard ((Does.statement _).weaken (fun _ => id) (fun _ _ => id) (open_of ws))

/-- The rows of the numbered commits join the transaction, in order. -/
theorem upsertNumbered_does (seqEpoch : Int) (numbered : List NumberedCommit)
    (open_of : ∀ ws s, Holding w history ws d s → X s) :
    Does E T w (Holding w history ws d) (upsertNumbered seqEpoch numbered)
      (fun _ s => ∃ entries, Holding w history (ws ++ entries.map .upsertMergeSequence) d s ∧
        Fills seqEpoch numbered entries) X := by
  induction numbered generalizing ws with
  | nil => exact Does.pure fun s holds => ⟨[], by simpa using holds, .nil⟩
  | cons entry rest ih =>
    apply Does.bind (findPullRequestNumber_does (Holding.stable E w history ws d) entry.sha)
    intro prNumber
    apply Does.andThen (Does.statement _) (open_of ws)
    intro _
    refine ih.weaken (fun _ => id) ?_ fun _ => id
    rintro _ s ⟨entries, holds, fills⟩
    refine ⟨⟨seqEpoch, entry.mergeSeq, entry.sha, prNumber, entry.committedAt⟩ :: entries, ?_, ?_⟩
    · simpa using holds
    · exact .cons ⟨prNumber, rfl⟩ fills

theorem refreshSequenceSpaceStates_does (stable : Stable E w P) :
    Does E T w P refreshSequenceSpaceStates (fun _ => P) X :=
  Does.external stable .refreshSequenceSpaceStates

theorem markStale_does (reason : String) :
    Does E T w (Idle E w history d) (markStale reason)
      (fun outcome s => Idle E w (history ++ [.markStale reason]) d s ∧ outcome = .stale reason)
      (Idle E w history d) := by
  apply Does.bind (Does.markIdle (.markStale reason) rfl)
  intro _
  apply Does.bind (refreshSequenceSpaceStates_does (Idle.stable E w _ d))
  intro _
  exact Does.pure fun s idle => ⟨idle, rfl⟩

/-- A graph read under the lock either continues with an answer of the graph, or rolls back and
ends with the mark. -/
theorem readGraph_does {O γ : Type} {mark : String → Program O} {op : Op β}
    {next : β → Program (O ⊕ γ)} {Q : O ⊕ γ → World W → Prop} (reached : E.since d₀ d)
    (answer : Choice → Except Fault β)
    (step_eq : ∀ c (s : World W), step w c op s = answered (answer c) s)
    (continues : ∀ a, (∃ c, E.allow c ∧ answer c = .ok a) →
      Does E T w (Holding w history ws d) (next a) Q X)
    (marks : ∀ reason, Does E T w (Idle E w history d₀) (mark reason)
      (fun outcome => Q (.inl outcome)) X) (idle : ∀ s, Idle E w history d₀ s → X s) :
    Does E T w (Holding w history ws d) (readGraph mark op next) Q X := by
  apply Does.bind (Does.attempts (Holding.stable E w history ws d) op answer step_eq)
  intro r
  cases r with
  | ok a => exact Does.given fun said => continues a said
  | error fault =>
    apply Does.andThen (Does.rollback.pre fun s holds => holds.1.opened reached) idle
    intro _
    apply Does.bind (marks (graphReason fault))
    intro outcome
    exact Does.pure fun _ => id

/-- The statements that `commitEpoch` adds before it commits. -/
def headWrites (newHead : Sha) (toSeq : Int) (requests : List Intent) : List Write :=
  [.advanceHead newHead toSeq] ++ requests.map .request

theorem commitEpoch_does (newHead : Sha) (oldEpoch newEpoch toSeq : Int)
    (open_of : ∀ ws s, Holding w history ws d s → X s) (aborted : ∀ s, Idle E w history d s → X s)
    (moves : ∀ requests db db', Frozen d db →
      replay (ws ++ headWrites newHead toSeq requests) db = .ok db' → T db db') :
    Does E T w (Holding w history ws d) (commitEpoch newHead oldEpoch newEpoch toSeq)
      (fun _ s => ∃ requests db db',
        (Idle E w (history ++ (ws ++ headWrites newHead toSeq requests)) db' s ∧ Frozen d db) ∧
          replay (ws ++ headWrites newHead toSeq requests) db = .ok db') X := by
  apply Does.andThen (Does.statement _) (open_of ws)
  intro _
  apply Does.bind (request_does (.work .reconcile newEpoch []) open_of)
  intro _
  apply Does.bind (request_does (.work .project newEpoch ["full"]) open_of)
  intro _
  apply Does.andThen (Does.queryTx _) (open_of _)
  intro changed
  apply Does.bind ((request_does (.relink changed) open_of).pre fun _ => And.left)
  intro _
  have shape : ws ++ [.advanceHead newHead toSeq] ++ [.request (.work .reconcile newEpoch [])] ++
      [.request (.work .project newEpoch ["full"])] ++ [.request (.relink changed)] =
      ws ++ headWrites newHead toSeq
        [.work .reconcile newEpoch [], .work .project newEpoch ["full"], .relink changed] := by
    simp [headWrites]
  rw [shape]
  refine (Does.commit (E.refl d) ⟨.advanceHead newHead toSeq, by simp [headWrites], rfl⟩
    (moves _)).weaken (fun _ => id) ?_ aborted
  rintro _ s ⟨db, db', committed⟩
  exact ⟨_, db, db', committed⟩

/-- The start of a new epoch: the statements before the first commit of the tail. -/
def epochWrites (core : SequenceSpace) (keepSeq : Int) : List Write :=
  [.bumpEpoch] ++
    (if 0 < keepSeq then [.copySequencesUpTo core.seqEpoch (core.seqEpoch + 1) keepSeq] else [])

/-- `rebuildWrites`, as the programs build it up. -/
theorem rebuildWrites_eq (core : SequenceSpace) (keepSeq : Int) (newHead : Sha)
    (entries : List MergeSequenceInsert) (requests : List Intent) :
    rebuildWrites core keepSeq newHead entries requests =
      epochWrites core keepSeq ++ entries.map .upsertMergeSequence ++
        headWrites newHead (keepSeq + entries.length) requests := by
  simp [rebuildWrites, epochWrites, headWrites]

theorem Fills.length_eq {seqEpoch : Int} {numbered : List NumberedCommit}
    {entries : List MergeSequenceInsert} (fills : Fills seqEpoch numbered entries) :
    numbered.length = entries.length :=
  List.Forall₂.length_eq fills

/-- Raise the epoch and copy what is kept of the old one. -/
theorem startEpoch_does {Q : β → World W → Prop} (keepSeq : Int) {copies : Prop} [Decidable copies]
    (copies_iff : copies ↔ 0 < keepSeq) {next : Int → Program β}
    (open_of : ∀ ws s, Holding w history ws d s → X s)
    (continues : Does E T w (Holding w history (epochWrites d.core keepSeq) d)
      (next (d.core.seqEpoch + 1)) Q X) :
    Does E T w (Holding w history [] d)
      (do
        let newEpoch ← execute .tx .bumpEpoch
        when copies (discard (execute .tx
          (.copySequencesUpTo d.core.seqEpoch newEpoch keepSeq)))
        next newEpoch) Q X := by
  apply Does.andThen (Does.executeTx .bumpEpoch) (open_of [])
  intro newEpoch
  refine Does.given ?_
  rintro ⟨db, view, following, frozen, replayed, ran⟩
  have epoch : newEpoch = d.core.seqEpoch + 1 := by
    rw [bumped_epoch replayed ran, frozen.core]
  subst epoch
  refine Does.bind (Does.when (Q := Holding w history (epochWrites d.core keepSeq) d)
    (fun yes => ?_) fun no s holds => ?_) fun _ => continues
  · have positive := copies_iff.mp yes
    refine Does.discard ((Does.statement _).weaken (fun _ => id) ?_ (open_of _))
    intro _ s holds
    simpa only [epochWrites, positive, if_true, List.nil_append] using holds
  · have none := mt copies_iff.mpr no
    simpa only [epochWrites, none, if_false, List.nil_append, List.append_nil] using holds

end

/-! ### Reassignment -/

section

variable {W : Type} [DecidableEq W] {E : Setting} {T : Store → Store → Prop} {w : W} {d₀ d : Store}

/-- How a reassignment ends; its mark comes first in the history. -/
def ReassignEnds (E : Setting) (w : W) (storedHead newHead : Sha) (d₀ : Store) :
    AssignOutcome → World W → Prop
  | .rewritten stored new, s => Idle E w [.markReassigning] d₀ s ∧ stored = storedHead ∧ new = newHead
  | .skipped reason, s => Idle E w [.markReassigning] d₀ s ∧ reason = "head_moved"
  | .stale reason, s => Idle E w [.markReassigning, .markStale reason] d₀ s
  | .reassigned oldEpoch newEpoch divergedAtSeq toSeq headSha affectedCount, s =>
      ∃ ws db db', (Idle E w (.markReassigning :: ws) db' s ∧ E.since d₀ db) ∧
        Rewound E storedHead newHead
          ⟨oldEpoch, newEpoch, divergedAtSeq, toSeq, headSha, affectedCount⟩ ws db db'
  | .assigned .., _ => False
  | .noBranch, _ => False
  | .locked, _ => False

/-- Before the catch: an outcome, or a commit that is still to be announced. -/
def ReassignBodyEnds (E : Setting) (w : W) (storedHead newHead : Sha) (d₀ : Store) :
    AssignOutcome ⊕ Reassigned → World W → Prop
  | .inl outcome, s => ReassignEnds E w storedHead newHead d₀ outcome s
  | .inr done, s =>
      ∃ ws db db', (Idle E w (.markReassigning :: ws) db' s ∧ E.since d₀ db) ∧
        Rewound E storedHead newHead done ws db db'

theorem reassign_marksStale {X : World W → Prop}
    (idle : ∀ s, Idle E w [.markReassigning] d₀ s → X s) (reason : String) :
    Does E T w (Idle E w [.markReassigning] d₀) (markStale reason)
      (fun outcome => ReassignBodyEnds E w storedHead newHead d₀ (.inl outcome)) X := by
  refine (markStale_does reason).weaken (fun _ => id) ?_ idle
  rintro _ s ⟨marked, rfl⟩
  exact marked

theorem locateBase_does {X : World W → Prop} {history : List Write} (oldEpoch : Int)
    (base : Option Sha) (open_of : ∀ ws s, Holding w history ws d s → X s) :
    Does E T w (Holding w history [] d) (locateBase oldEpoch base)
      (fun located s => Holding w history [] d s ∧ located = locatedBase oldEpoch base d) X := by
  cases base with
  | none => exact Does.pure fun s holds => ⟨holds, rfl⟩
  | some sha =>
    apply Does.andThen (Does.queryTx (Store.findSeqByCommit oldEpoch sha)) (open_of [])
    intro found
    refine Does.given ?_
    rintro ⟨db, view, frozen, replayed, rfl⟩
    cases replay_nil replayed
    have same := locatedBase_frozen frozen oldEpoch (some sha)
    simp only [locatedBase] at same
    cases h : Store.findSeqByCommit oldEpoch sha db with
    | none =>
      rw [h] at same
      exact Does.pure fun s holds => ⟨holds, by simpa only [locatedBase] using same⟩
    | some seq =>
      rw [h] at same
      exact Does.pure fun s holds => ⟨holds, by simpa only [locatedBase] using same⟩

theorem reassignTail_does {affectedCount : Int} (reached : E.since d₀ d)
    (moves : ∀ done ws db db', Rewound E storedHead newHead done ws db db' → T db db')
    (stored : d.core.headSha = some storedHead) (said : E.MergeBase storedHead newHead base)
    (located : locatedBase d.core.seqEpoch base d = (baseSha, baseSeq))
    (walked : E.Commits baseSha newHead commits) :
    Does E T w (Holding w [.markReassigning] (epochWrites d.core baseSeq) d)
      (reassignTail newHead d.core.seqEpoch (d.core.seqEpoch + 1) baseSeq affectedCount commits)
      (ReassignBodyEnds E w storedHead newHead d₀) (Open E w [.markReassigning] d₀) := by
  have open_of : ∀ ws s, Holding w [.markReassigning] ws d s →
      Open E w [.markReassigning] d₀ s := fun ws s holds => holds.opened reached
  apply Does.bind (upsertNumbered_does _ _ open_of)
  intro _
  refine Does.exists fun entries => Does.given fun fills => ?_
  have shape : ∀ requests, epochWrites d.core baseSeq ++ entries.map .upsertMergeSequence ++
      headWrites newHead (baseSeq + (numberCommits baseSeq commits).length) requests =
      rebuildWrites d.core baseSeq newHead entries requests := by
    intro requests
    rw [rebuildWrites_eq, fills.length_eq]
  have rewound : ∀ requests db db', Frozen d db →
      replay (rebuildWrites d.core baseSeq newHead entries requests) db = .ok db' →
      Rewound E storedHead newHead
        ⟨d.core.seqEpoch, d.core.seqEpoch + 1, baseSeq + 1,
          baseSeq + (numberCommits baseSeq commits).length, newHead, affectedCount⟩
        (rebuildWrites d.core baseSeq newHead entries requests) db db' := by
    intro requests db db' frozen replayed
    have same : locatedBase db.core.seqEpoch base db = (baseSha, baseSeq) := by
      rw [frozen.core, locatedBase_frozen frozen, located]
    refine ⟨by rw [frozen.core, stored], ⟨base, commits, entries, requests, said, ?_⟩,
      by rw [frozen.core]; exact ⟨rfl, rfl⟩, rfl, replayed⟩
    rw [same, frozen.core]
    exact ⟨walked, fills, rfl, rfl, by rw [fills.length_eq]⟩
  refine Does.bind (commitEpoch_does newHead _ _ _ open_of (fun s idle =>
    ⟨idle.own, E.trans reached idle.since⟩) ?_) fun _ => ?_
  · intro requests db db' frozen replayed
    rw [shape] at replayed
    exact moves _ _ _ _ (rewound requests db db' frozen replayed)
  · refine Does.pure ?_
    rintro s ⟨requests, db, db', ⟨idle, frozen⟩, replayed⟩
    rw [shape] at idle replayed
    exact ⟨_, db, db', ⟨idle, E.trans reached (E.frozen frozen)⟩,
      rewound requests db db' frozen replayed⟩

theorem reassignFrom_does (reached : E.since d₀ d)
    (moves : ∀ done ws db db', Rewound E storedHead newHead done ws db db' → T db db')
    (stored : d.core.headSha = some storedHead) (said : E.MergeBase storedHead newHead base)
    (located : locatedBase d.core.seqEpoch base d = (baseSha, baseSeq)) :
    Does E T w (Holding w [.markReassigning] [] d)
      (reassignFrom newHead d.core.seqEpoch baseSha baseSeq)
      (ReassignBodyEnds E w storedHead newHead d₀) (Open E w [.markReassigning] d₀) := by
  have open_of : ∀ ws s, Holding w [.markReassigning] ws d s →
      Open E w [.markReassigning] d₀ s := fun ws s holds => holds.opened reached
  have idle_of : ∀ s, Idle E w [.markReassigning] d₀ s → Open E w [.markReassigning] d₀ s :=
    fun s idle => idle.opened
  apply Does.andThen (Does.queryTx _) (open_of [])
  intro affectedCount
  apply (startEpoch_does baseSeq Iff.rfl open_of ?_).pre fun _ => And.left
  apply readGraph_does reached (fun c => c.firstParentCommits baseSha newHead) (fun _ _ => rfl)
    (fun commits walked => ?_) (reassign_marksStale idle_of) idle_of
  exact reassignTail_does reached moves stored said located walked

theorem reassignLocked_does (reached : E.since d₀ d)
    (moves : ∀ done ws db db', Rewound E storedHead newHead done ws db db' → T db db') :
    Does E T w (Holding w [.markReassigning] [] d) (reassignLocked storedHead newHead)
      (ReassignBodyEnds E w storedHead newHead d₀) (Open E w [.markReassigning] d₀) := by
  have open_of : ∀ ws s, Holding w [.markReassigning] ws d s →
      Open E w [.markReassigning] d₀ s := fun ws s holds => holds.opened reached
  have idle_of : ∀ s, Idle E w [.markReassigning] d₀ s → Open E w [.markReassigning] d₀ s :=
    fun s idle => idle.opened
  apply Does.andThen (Does.queryTx Store.findSequenceSpace) (open_of [])
  intro found
  refine Does.given ?_
  rintro ⟨db, view, frozen, replayed, rfl⟩
  cases replay_nil replayed
  cases h : Store.findSequenceSpace db with
  | none =>
    apply Does.andThen (Does.rollback.pre (open_of [])) idle_of
    intro _
    apply Does.bind (reassign_marksStale idle_of _)
    intro outcome
    exact Does.pure fun _ => id
  | some space =>
    obtain ⟨epoch, head, -⟩ := SequenceSpace.core_of_space h
    rw [frozen.core] at epoch head
    dsimp only
    split
    next moved =>
      apply Does.andThen (Does.rollback.pre (open_of [])) idle_of
      intro _
      exact Does.pure fun s idle => ⟨idle, rfl⟩
    next same =>
      have stored : d.core.headSha = some storedHead := by
        rw [head]
        exact not_not.mp same
      apply readGraph_does reached (fun c => c.mergeBase storedHead newHead) (fun _ _ => rfl)
        (fun base said => ?_) (reassign_marksStale idle_of) idle_of
      apply Does.bind (locateBase_does space.seqEpoch base open_of)
      intro located
      refine Does.given ?_
      rintro rfl
      rw [← epoch]
      exact reassignFrom_does reached moves stored said rfl

theorem reassignBody_does
    (moves : ∀ done ws db db', Rewound E storedHead newHead done ws db db' → T db db') :
    Does E T w (Idle E w [.markReassigning] d₀) (reassignBody storedHead newHead)
      (ReassignBodyEnds E w storedHead newHead d₀) (Open E w [.markReassigning] d₀) := by
  have idle_of : ∀ s, Idle E w [.markReassigning] d₀ s → Open E w [.markReassigning] d₀ s :=
    fun s idle => idle.opened
  apply Does.andThen (Does.begin (Idle.stable E w _ d₀)) idle_of
  intro _
  apply Does.locking (fun d reached => reassignLocked_does reached moves) ?_ idle_of
  apply Does.andThen (Does.rollback.pre idle_of) idle_of
  intro _
  exact Does.pure fun s idle => ⟨idle, rfl, rfl⟩

theorem announceReassigned_does {X : World W → Prop} (done : Reassigned) :
    Does E T w (ReassignBodyEnds E w storedHead newHead d₀ (.inr done)) (announceReassigned done)
      (ReassignEnds E w storedHead newHead d₀) X := by
  refine Does.exists fun ws => Does.exists fun db => Does.exists fun db' => Does.given
    fun rewound => ?_
  have stable : Stable E w fun s => Idle E w (.markReassigning :: ws) db' s ∧ E.since d₀ db :=
    (Idle.stable E w _ db').and_const _
  apply Does.bind (Does.external stable _)
  intro _
  apply Does.bind (Does.external stable _)
  intro _
  apply Does.bind (Does.external stable _)
  intro _
  apply Does.bind (Does.external stable _)
  intro _
  apply Does.bind (refreshSequenceSpaceStates_does stable)
  intro _
  exact Does.pure fun s here => ⟨ws, db, db', here, rewound⟩

/-- What a run that throws has left: nothing but its mark, if that took effect. -/
def ReassignThrows (E : Setting) (w : W) (d₀ : Store) (s : World W) : Prop :=
  Idle E w [] d₀ s ∨ Idle E w [.markReassigning] d₀ s

/-- Every way a reassignment can go. -/
theorem reassignSequence_does
    (moves : ∀ done ws db db', Rewound E storedHead newHead done ws db db' → T db db') :
    Does E T w (Idle E w [] d₀) (reassignSequence storedHead newHead)
      (ReassignEnds E w storedHead newHead d₀) (ReassignThrows E w d₀) := by
  apply Does.andThen (Does.markIdle .markReassigning rfl) (fun s => Or.inl)
  intro _
  apply Does.andThen (Does.connect (Idle.stable E w _ d₀)) (fun s => Or.inr)
  intro _
  apply Does.bind (Does.tryCatch (reassignBody_does moves) fun fault => ?_)
  · intro ended
    cases ended with
    | inl outcome => exact Does.pure fun s here => here
    | inr done => exact announceReassigned_does done
  · apply Does.bind Does.quietRollback
    intro _
    apply Does.bind (reassign_marksStale (fun s => Or.inr) _)
    intro outcome
    exact Does.pure fun _ => id

end

/-! ### Assignment -/

section

variable {W : Type} [DecidableEq W] {E : Setting} {T : Store → Store → Prop} {w : W} {d₀ d : Store}

/-- How a run of `assignSequence` ends when it does not turn into a reassignment. -/
def AppendEnds (E : Setting) (w : W) (d₀ : Store) : AssignOutcome → World W → Prop
  | .assigned fromSeq toSeq headSha, s =>
      ∃ ws db db', (Idle E w ws db' s ∧ E.since d₀ db) ∧ Appended E headSha fromSeq toSeq ws db db'
  | .skipped reason, s => Idle E w [] d₀ s ∧ reason ≠ "head_moved"
  | .noBranch, s => Idle E w [] d₀ s
  | .locked, s => Idle E w [] d₀ s
  | .stale reason, s => Idle E w [] d₀ s ∨ Idle E w [.markStale reason] d₀ s
  | .reassigned .., _ => False
  | .rewritten .., _ => False

/-- The run found `newHead` not to descend from the head stored in `seen`, and reassigned. -/
structure Rewritten (E : Setting) (storedHead newHead : Sha) (seen : Store) : Prop where
  stored : seen.core.headSha = some storedHead
  differs : storedHead ≠ newHead
  head : E.Head (some newHead)
  gate : E.Ancestor storedHead newHead false

def AssignEnds (E : Setting) (w : W) (d₀ : Store) (outcome : AssignOutcome) (s : World W) : Prop :=
  AppendEnds E w d₀ outcome s ∨ ∃ seen storedHead newHead, E.since d₀ seen ∧
    Rewritten E storedHead newHead seen ∧ ReassignEnds E w storedHead newHead seen outcome s

def AssignBodyEnds (E : Setting) (w : W) (d₀ : Store) :
    AssignOutcome ⊕ Assigned → World W → Prop
  | .inl outcome, s => AssignEnds E w d₀ outcome s
  | .inr done, s => ∃ ws db db', (Idle E w ws db' s ∧ E.since d₀ db) ∧
      Appended E done.headSha done.fromSeq done.toSeq ws db db'

/-- What a throwing run has left before its handler has rolled back. -/
def AssignBodyThrows (E : Setting) (w : W) (d₀ : Store) (s : World W) : Prop :=
  Open E w [] d₀ s ∨ Open E w [.markReassigning] d₀ s

/-- What a run that throws has left: nothing, the mark of a reassignment, or all of its work, when
it was the event after the commit that failed. -/
def AssignThrows (E : Setting) (w : W) (d₀ : Store) (s : World W) : Prop :=
  ReassignThrows E w d₀ s ∨ ∃ headSha fromSeq toSeq ws db db',
    (Idle E w ws db' s ∧ E.since d₀ db) ∧ Appended E headSha fromSeq toSeq ws db db'

theorem append_marksStale {X : World W → Prop} (idle : ∀ s, Idle E w [] d₀ s → X s)
    (reason : String) :
    Does E T w (Idle E w [] d₀) (markStale reason)
      (fun outcome => AssignBodyEnds E w d₀ (.inl outcome)) X := by
  refine (markStale_does reason).weaken (fun _ => id) ?_ idle
  rintro _ s ⟨marked, rfl⟩
  exact Or.inl (Or.inr marked)

/-- `appendWrites`, as the program builds it up. -/
theorem appendWrites_eq (core : SequenceSpace) (newHead : Sha)
    (entries : List MergeSequenceInsert) (requests : List Intent) :
    appendWrites core newHead entries requests =
      [.ensureSequenceSpace] ++ entries.map .upsertMergeSequence ++
        headWrites newHead (core.headSeq + entries.length) requests := by
  simp [appendWrites, headWrites]

theorem assignCommits_does (reached : E.since d₀ d)
    (moves : ∀ headSha fromSeq toSeq ws db db',
      Appended E headSha fromSeq toSeq ws db db' → T db db')
    (epoch : space.seqEpoch = d.core.seqEpoch) (seq : space.headSeq = d.core.headSeq)
    (head : E.Head (some newHead))
    (gate : ∀ stored, d.core.headSha = some stored → stored ≠ newHead →
      E.Ancestor stored newHead true) (walked : E.Commits d.core.headSha newHead commits) :
    Does E T w (Holding w [] [.ensureSequenceSpace] d) (assignCommits space newHead commits)
      (AssignBodyEnds E w d₀) (AssignBodyThrows E w d₀) := by
  have open_of : ∀ ws s, Holding w [] ws d s → AssignBodyThrows E w d₀ s :=
    fun ws s holds => Or.inl (holds.opened reached)
  apply Does.bind (upsertNumbered_does _ _ open_of)
  intro _
  refine Does.exists fun entries => Does.given fun fills => ?_
  rw [epoch, seq] at fills
  have appended : ∀ requests db db', Frozen d db →
      replay (appendWrites d.core newHead entries requests) db = .ok db' →
      Appended E newHead d.core.headSeq
        (d.core.headSeq + (numberCommits d.core.headSeq commits).length)
        (appendWrites d.core newHead entries requests) db db' := by
    intro requests db db' frozen replayed
    refine ⟨⟨commits, entries, requests, ?_⟩, by rw [frozen.core], head, ?_, replayed⟩
    · rw [frozen.core]
      exact ⟨walked, fills, rfl, by rw [fills.length_eq]⟩
    · rw [frozen.core]
      exact gate
  have shape : ∀ requests, [Write.ensureSequenceSpace] ++ entries.map .upsertMergeSequence ++
      headWrites newHead
        (d.core.headSeq + (numberCommits d.core.headSeq commits).length) requests =
      appendWrites d.core newHead entries requests := by
    intro requests
    rw [appendWrites_eq, fills.length_eq]
  dsimp only
  rw [epoch, seq]
  apply Does.andThen (Does.statement _) (open_of _)
  intro _
  apply Does.bind (request_does (.work .reconcile d.core.seqEpoch []) open_of)
  intro _
  -- The further requests are made only when there was something to number.
  have asked : Does E T w
      (Holding w [] ([.ensureSequenceSpace] ++ entries.map .upsertMergeSequence ++
        [.advanceHead newHead (d.core.headSeq + (numberCommits d.core.headSeq commits).length)] ++
        [.request (.work .reconcile d.core.seqEpoch [])]) d)
      (when (0 < (numberCommits d.core.headSeq commits).length) do
        request (.work .project d.core.seqEpoch [])
        request (.relink ((numberCommits d.core.headSeq commits).map NumberedCommit.sha)))
      (fun _ s => ∃ requests, Holding w [] (appendWrites d.core newHead entries requests) d s)
      (AssignBodyThrows E w d₀) := by
    refine Does.when (fun _ => ?_) fun _ s holds => ⟨[.work .reconcile d.core.seqEpoch []], ?_⟩
    · apply Does.bind (request_does _ open_of)
      intro _
      refine (request_does _ open_of).weaken (fun _ => id) (fun _ s holds => ⟨[
        .work .reconcile d.core.seqEpoch [], .work .project d.core.seqEpoch [],
        .relink ((numberCommits d.core.headSeq commits).map NumberedCommit.sha)], ?_⟩) fun _ => id
      rw [← shape]
      simpa [headWrites] using holds
    · rw [← shape]
      simpa [headWrites] using holds
  apply Does.bind asked
  intro _
  refine Does.exists fun requests => ?_
  refine Does.andThen (Does.commit (E.refl d) ?_ fun db db' frozen replayed =>
    moves _ _ _ _ _ _ (appended requests db db' frozen replayed))
    (fun s idle => Or.inl ⟨idle.own, E.trans reached idle.since⟩) fun _ => ?_
  · exact ⟨.ensureSequenceSpace, by simp [appendWrites], rfl⟩
  · refine Does.pure ?_
    rintro s ⟨db, db', ⟨idle, frozen⟩, replayed⟩
    exact ⟨_, db, db', ⟨idle, E.trans reached (E.frozen frozen)⟩,
      appended requests db db' frozen replayed⟩

theorem assignOnto_does (reached : E.since d₀ d)
    (appends : ∀ headSha fromSeq toSeq ws db db',
      Appended E headSha fromSeq toSeq ws db db' → T db db')
    (rewinds : ∀ stored new done ws db db', Rewound E stored new done ws db db' → T db db')
    (epoch : space.seqEpoch = d.core.seqEpoch) (seq : space.headSeq = d.core.headSeq)
    (sha : space.headSha = d.core.headSha) (head : E.Head (some newHead)) :
    Does E T w (Holding w [] [.ensureSequenceSpace] d) (assignOnto space newHead)
      (AssignBodyEnds E w d₀) (AssignBodyThrows E w d₀) := by
  have open_of : ∀ ws s, Holding w [] ws d s → AssignBodyThrows E w d₀ s :=
    fun ws s holds => Or.inl (holds.opened reached)
  have idle_of : ∀ s, Idle E w [] d₀ s → AssignBodyThrows E w d₀ s :=
    fun s idle => Or.inl idle.opened
  have append : (∀ stored, d.core.headSha = some stored → stored ≠ newHead →
      E.Ancestor stored newHead true) →
      Does E T w (Holding w [] [.ensureSequenceSpace] d)
        (readGraph markStale (.firstParentCommits space.headSha newHead)
          (assignCommits space newHead))
        (AssignBodyEnds E w d₀) (AssignBodyThrows E w d₀) := by
    intro gate
    rw [sha]
    apply readGraph_does reached (fun c => c.firstParentCommits d.core.headSha newHead)
      (fun _ _ => rfl) (fun commits walked => ?_) (append_marksStale idle_of) idle_of
    exact assignCommits_does reached appends epoch seq head gate walked
  unfold assignOnto
  cases h : space.headSha with
  | none =>
    rw [h] at append
    refine append fun stored here => ?_
    rw [← sha, h] at here
    cases here
  | some stored =>
    rw [h] at append
    have here : d.core.headSha = some stored := by rw [← sha, h]
    dsimp only
    split
    next same =>
      subst same
      refine append fun other there differs => absurd ?_ differs
      rw [here] at there
      exact (Option.some.inj there).symm
    next differs =>
      apply readGraph_does reached (fun c => c.isAncestor stored newHead) (fun _ _ => rfl)
        (fun ancestor said => ?_) (append_marksStale idle_of) idle_of
      cases ancestor with
      | true =>
        refine append fun other there _ => ?_
        rw [here] at there
        cases there
        exact said
      | false =>
        have rewritten : Rewritten E stored newHead d := ⟨here, differs, head, said⟩
        have throws : ∀ s, ReassignThrows E w d s → AssignBodyThrows E w d₀ s := by
          rintro s (idle | idle)
          · exact Or.inl (idle.rebase reached).opened
          · exact Or.inr (idle.rebase reached).opened
        apply Does.andThen
          (Does.rollback.pre fun s holds => holds.opened (E.refl d))
          (fun s idle => Or.inl (idle.rebase reached).opened)
        intro _
        apply Does.andThen (reassignSequence_does (rewinds stored newHead)) throws
        intro outcome
        exact Does.pure fun s ended =>
          Or.inr ⟨d, stored, newHead, reached, rewritten, ended⟩

theorem assignLocked_does (reached : E.since d₀ d)
    (appends : ∀ headSha fromSeq toSeq ws db db',
      Appended E headSha fromSeq toSeq ws db db' → T db db')
    (rewinds : ∀ stored new done ws db db', Rewound E stored new done ws db db' → T db db') :
    Does E T w (Holding w [] [] d) assignLocked (AssignBodyEnds E w d₀)
      (AssignBodyThrows E w d₀) := by
  have open_of : ∀ ws s, Holding w [] ws d s → AssignBodyThrows E w d₀ s :=
    fun ws s holds => Or.inl (holds.opened reached)
  have idle_of : ∀ s, Idle E w [] d₀ s → AssignBodyThrows E w d₀ s :=
    fun s idle => Or.inl idle.opened
  apply Does.andThen (Does.statement .ensureSequenceSpace) (open_of [])
  intro _
  apply Does.andThen (Does.queryTx Store.findSequenceSpace) (open_of _)
  intro found
  refine Does.given ?_
  rintro ⟨db, view, frozen, replayed, rfl⟩
  have core : view.core = d.core := (ensured_core replayed).trans frozen.core
  cases h : Store.findSequenceSpace view with
  | none =>
    apply Does.andThen (Does.rollback.pre fun s holds => holds.opened reached) idle_of
    intro _
    exact Does.pure fun s idle => Or.inl (Or.inl idle)
  | some space =>
    obtain ⟨epoch, head, seq⟩ := SequenceSpace.core_of_space h
    rw [core] at epoch head seq
    apply readGraph_does reached (fun c => c.resolveHead) (fun _ _ => rfl)
      (fun answer said => ?_) (append_marksStale idle_of) idle_of
    cases answer with
    | none =>
      apply Does.andThen (Does.rollback.pre fun s holds => holds.opened reached) idle_of
      intro _
      exact Does.pure fun s idle => Or.inl idle
    | some newHead =>
      exact assignOnto_does reached appends rewinds epoch.symm seq.symm head.symm said

theorem assignBody_does
    (appends : ∀ headSha fromSeq toSeq ws db db',
      Appended E headSha fromSeq toSeq ws db db' → T db db')
    (rewinds : ∀ stored new done ws db db', Rewound E stored new done ws db db' → T db db') :
    Does E T w (Idle E w [] d₀) assignBody (AssignBodyEnds E w d₀) (AssignBodyThrows E w d₀) := by
  have idle_of : ∀ s, Idle E w [] d₀ s → AssignBodyThrows E w d₀ s :=
    fun s idle => Or.inl idle.opened
  apply Does.andThen (Does.begin (Idle.stable E w _ d₀)) idle_of
  intro _
  apply Does.locking (fun d reached => assignLocked_does reached appends rewinds) ?_ idle_of
  apply Does.andThen (Does.rollback.pre fun s idle => idle.opened) idle_of
  intro _
  exact Does.pure fun s idle => Or.inl idle

theorem announceAssigned_does (done : Assigned) :
    Does E T w (AssignBodyEnds E w d₀ (.inr done)) (announceAssigned done) (AssignEnds E w d₀)
      (AssignThrows E w d₀) := by
  refine Does.exists fun ws => Does.exists fun db => Does.exists fun db' => Does.given
    fun appended => ?_
  have stable : Stable E w fun s => Idle E w ws db' s ∧ E.since d₀ db :=
    (Idle.stable E w _ db').and_const _
  have throws : ∀ s, Idle E w ws db' s ∧ E.since d₀ db → AssignThrows E w d₀ s :=
    fun s here => Or.inr ⟨_, _, _, ws, db, db', here, appended⟩
  have read : Does E T w (fun s => Idle E w ws db' s ∧ E.since d₀ db)
      (query .pool Store.findSequenceSpace) (fun _ s => Idle E w ws db' s ∧ E.since d₀ db)
      (AssignThrows E w d₀) := by
    refine (Does.queryPool (d := db') Store.findSequenceSpace |>.keeping (E.since d₀ db)).weaken
      (fun _ => id) ?_ throws
    rintro _ s ⟨⟨now, ⟨idle, reached⟩, _⟩, origin⟩
    exact ⟨idle.rebase reached, origin⟩
  apply Does.bind read
  intro space
  apply Does.bind (Does.when (fun _ => Does.external stable _) fun _ _ => id)
  intro _
  apply Does.andThen (Does.publishes stable _) throws
  intro _
  apply Does.bind (refreshSequenceSpaceStates_does stable)
  intro _
  exact Does.pure fun s here => Or.inl ⟨ws, db, db', here, appended⟩

/-- Every way an assignment can go. -/
theorem assignSequence_does (baseBranch : String)
    (appends : ∀ headSha fromSeq toSeq ws db db',
      Appended E headSha fromSeq toSeq ws db db' → T db db')
    (rewinds : ∀ stored new done ws db db', Rewound E stored new done ws db db' → T db db') :
    Does E T w (Idle E w [] d₀) (assignSequence baseBranch) (AssignEnds E w d₀)
      (AssignThrows E w d₀) := by
  have idle_of : ∀ s, Idle E w [] d₀ s → AssignThrows E w d₀ s := fun s idle => Or.inl (Or.inl idle)
  have skipped : ∀ reason, reason ≠ "head_moved" →
      Does E T w (Idle E w [] d₀) (pure (.skipped reason)) (AssignEnds E w d₀)
        (AssignThrows E w d₀) :=
    fun reason other => Does.pure fun s idle => Or.inl ⟨idle, other⟩
  apply Does.andThen (Does.findRepositoryById (Idle.stable E w _ d₀)) idle_of
  intro repository
  cases repository with
  | none => exact skipped _ (by decide)
  | some repository =>
    dsimp only
    split
    · exact skipped _ (by decide)
    split
    · exact skipped _ (by decide)
    apply Does.andThen (Does.connect (Idle.stable E w _ d₀)) idle_of
    intro _
    apply Does.bind (Does.tryCatch (assignBody_does appends rewinds) fun fault => ?_)
    · intro ended
      cases ended with
      | inl outcome => exact Does.pure fun s here => here
      | inr done => exact announceAssigned_does done
    · refine Does.either ?_ ?_
      · apply Does.bind Does.quietRollback
        intro _
        exact Does.raise idle_of
      · apply Does.bind Does.quietRollback
        intro _
        exact Does.raise fun s idle => Or.inl (Or.inr idle)

end

end PrSearch.Sequence
