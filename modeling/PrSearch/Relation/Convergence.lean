import PrSearch.Relation.Locality

/-! # Convergence of the edges

After each change the changed source and those that are looked up for it are derived anew. The other
sources keep their edges, and they are right when the change does not alter what is planned for
them: when their texts say about the changed entity what they have said before, and the walks from
their parents come to what they have come to before. A run whose changes all meet this condition
leaves every source with the edges that its plan gives.
-/
namespace PrSearch.Relation

open Query (Text)
open Rows

section Definitions

variable (toLowerCase : Text → Text) (object : Sha → CommitObject) (store : Store)
  (change : Change)

/-- The source is neither changed nor looked up. -/
def Unseen (source : LinkSource) : Prop :=
  change.source ≠ source ∧
    source ∉ affectedSources (store.snapshots.change object change) store.stackTable change.source

instance (source : LinkSource) : Decidable (Unseen object store change source) :=
  inferInstanceAs (Decidable (_ ∧ ¬ _))

/-- No list of candidates and no lookup is cut off after the change. -/
structure InLimits : Prop where
  candidates : Within (store.snapshots.change object change)
  lookups : LookupsWithin (store.snapshots.change object change) store.stackTable change.source

/-- The texts of the sources that are not seen say the same about the changed entity, and the walks
from their parents come to the same. -/
structure Covered : Prop where
  pullRequests : ∀ self ∈ store.snapshots.pullRequests,
    Unseen object store change (.pullRequest self.prNumber) →
      SaysTheSame object store.snapshots change (pullRequestReverts toLowerCase self.document) ∧
        WalksTheSame object store.snapshots change self
  commits : ∀ self ∈ store.snapshots.commits, Unseen object store change (.commit self.commitSha) →
    SaysTheSame object store.snapshots change (extractCommitReverts toLowerCase self.message)

/-- What holds of the store before a change, whether its edges are right or not. -/
structure Regular : Prop where
  sound : Sound store
  recorded : Recorded object store.snapshots
  within : Within store.snapshots

end Definitions

variable {self : PullRequestSnapshotRow} {source : LinkSource}

section Step

variable {toLowerCase : Text → Text} {servingStackImport : Bool} {object : Sha → CommitObject}
  {store : Store} {change : Change}

theorem regular_empty : Regular object Store.empty where
  sound := ⟨by simp [Store.empty, Table.empty], by simp [Store.empty, Table.empty],
    by simp [Store.empty, Table.empty]⟩
  recorded := by simp [Recorded, Store.empty, Snapshots.empty]
  within := ⟨by simp [Store.empty, Snapshots.empty], by simp [Store.empty, Snapshots.empty],
    by simp [Store.empty, Snapshots.empty], by simp [Store.empty, Snapshots.empty]⟩

theorem converged_empty : Converged toLowerCase Store.empty := by
  intro source doc
  refine iff_of_false (fun stored => by simp [Store.empty, Table.empty] at stored) ?_
  cases source with
  | commit sha =>
    rw [mem_edges_commit]
    simp [Store.empty, Snapshots.empty, Snapshots.findCommitSnapshot]
  | pullRequest prNumber =>
    rw [mem_edges_pullRequest]
    simp [Store.empty, Snapshots.empty, Snapshots.findPullRequestSnapshot]

-- The merged rows depend on which edges hold, not on their order.
theorem mem_merge_congr (child : Nat) (existing : List StackRow)
    {desired desired' : List StackDesired}
    (same : ∀ one, one ∈ desired' ↔ one ∈ desired) (row : StackRow) :
    row ∈ mergeStackRows child existing desired' ↔ row ∈ mergeStackRows child existing desired := by
  simp only [mem_mergeStackRows, same]

-- An edge that holds is stored, and so it has a row.
theorem rows_of_settled (sound : Sound store)
    (settled : Settled toLowerCase store (.pullRequest self.prNumber))
    (found : store.snapshots.findPullRequestSnapshot self.prNumber = some self) :
    ∀ one ∈ (store.snapshots.planStacks self).desired, ∃ stack ∈ store.stackTable.rows,
      stack.childPrNumber = self.prNumber ∧ stack.parentPrNumber = one.parentPrNumber := by
  intro one wanted
  have planned : ∃ edges ∈ planRelationEdges toLowerCase store.snapshots store.stackTable
      (.pullRequest self.prNumber), stackDoc (one.row self.prNumber) ∈ edges :=
    mem_edges_pullRequest.mpr
      ⟨self, found, .inr ⟨_, mem_mergeStackRows.mpr (.inl ⟨one, wanted, rfl⟩), rfl⟩⟩
  have stored := ((settled _).mpr planned).1
  obtain ⟨row, there, child, parent⟩ := sound.rowed _ stored rfl
  exact ⟨row, there, (LinkSource.pullRequest.inj child).symm,
    (LinkSource.pullRequest.inj parent).symm⟩

/-! ### A source that is not seen -/

/-- The plan of the source is the same before and after the change. -/
def PlanKept (toLowerCase : Text → Text) (object : Sha → CommitObject) (store : Store)
    (change : Change) (source : LinkSource) : Prop :=
  ∀ doc, (∃ edges ∈ planRelationEdges toLowerCase (store.snapshots.change object change)
      store.stackTable source, doc ∈ edges) ↔
    ∃ edges ∈ planRelationEdges toLowerCase store.snapshots store.stackTable source, doc ∈ edges

-- Nothing is written before the source is derived.
theorem settled_change_iff (settled : Settled toLowerCase store source) :
    Settled toLowerCase (store.change object change) source ↔
      PlanKept toLowerCase object store change source :=
  forall_congr' fun doc => (iff_congr (settled doc) Iff.rfl).trans iff_comm

theorem planKept_absent (other : change.source ≠ source)
    (absent : store.snapshots.has source = false) :
    PlanKept toLowerCase object store change source := by
  intro doc
  cases source with
  | commit sha => rw [mem_edges_commit, mem_edges_commit, findCommit_change other]; simp_all [Snapshots.has]
  | pullRequest prNumber =>
    rw [mem_edges_pullRequest, mem_edges_pullRequest, findPullRequest_change other]
    simp_all [Snapshots.has]

-- Edges of two types are the same before and after when those of each type are.
theorem split_types {left left' right right' type : Prop} (hl : left → type) (hl' : left' → type)
    (hr : right → ¬ type) (hr' : right' → ¬ type) :
    ((left' ∨ right') ↔ (left ∨ right)) ↔ ((left' ↔ left) ∧ (right' ↔ right)) := by
  tauto

theorem planKept_commit_iff (regular : Regular object store)
    (limits : InLimits object store change) {self : CommitSnapshotRow}
    (inside : self ∈ store.snapshots.commits)
    (unseen : Unseen object store change (.commit self.commitSha)) :
    PlanKept toLowerCase object store change (.commit self.commitSha) ↔
      SaysTheSame object store.snapshots change
        (extractCommitReverts toLowerCase self.message) := by
  have found := findCommit_iff.mpr ⟨inside, rfl⟩
  have known : (store.snapshots.change object change).findCommitSnapshot self.commitSha = some self :=
    (findCommit_change unseen.1).trans found
  have edges (snapshots : Snapshots)
      (known : snapshots.findCommitSnapshot self.commitSha = some self) (doc : DerivedLinkDoc) :
      (∃ edges ∈ planRelationEdges toLowerCase snapshots store.stackTable
        (.commit self.commitSha), doc ∈ edges) ↔
        doc ∈ snapshots.planReverts (.commit self.commitSha) (.instant self.committedAt)
            (extractCommitReverts toLowerCase self.message) ∨
          doc ∈ snapshots.planCherryPicks self := by
    rw [mem_edges_commit, known]
    simp only [Option.mem_def, Option.some.injEq, exists_eq_left']
  have picks (doc : DerivedLinkDoc) : doc ∈ (store.snapshots.change object change).planCherryPicks
      self ↔ doc ∈ store.snapshots.planCherryPicks self :=
    planCherryPicks_change regular.recorded regular.within limits.candidates limits.lookups inside
      unseen.1 unseen.2
  have reverted (snapshots : Snapshots) (doc : DerivedLinkDoc) :=
    (planning_reverts snapshots (.commit self.commitSha) (.instant self.committedAt)
      (extractCommitReverts toLowerCase self.message)).type doc
  have picked (snapshots : Snapshots) (doc : DerivedLinkDoc)
      (member : doc ∈ snapshots.planCherryPicks self) : ¬ doc.linkType = .reverts := by
    rw [(planning_cherryPicks snapshots self).type doc member]
    decide
  constructor
  · intro kept
    refine SaysTheSame.of_planReverts regular.within limits.candidates unseen.1
      (.instant self.committedAt) fun doc => ?_
    have same := kept doc
    rw [edges _ known, edges _ found, split_types (reverted _ doc) (reverted _ doc) (picked _ doc)
      (picked _ doc)] at same
    exact same.1
  · intro alike doc
    rw [edges _ known, edges _ found, picks,
      alike.planReverts regular.recorded regular.within limits.candidates]

theorem planKept_pullRequest_iff (regular : Regular object store)
    (limits : InLimits object store change) (inside : self ∈ store.snapshots.pullRequests)
    (settled : Settled toLowerCase store (.pullRequest self.prNumber))
    (unseen : Unseen object store change (.pullRequest self.prNumber)) :
    PlanKept toLowerCase object store change (.pullRequest self.prNumber) ↔
      SaysTheSame object store.snapshots change (pullRequestReverts toLowerCase self.document) ∧
        WalksTheSame object store.snapshots change self := by
  have found := findPullRequest_iff.mpr ⟨inside, rfl⟩
  have known : (store.snapshots.change object change).findPullRequestSnapshot self.prNumber =
      some self := (findPullRequest_change unseen.1).trans found
  have edges (snapshots : Snapshots)
      (known : snapshots.findPullRequestSnapshot self.prNumber = some self) (doc : DerivedLinkDoc) :
      (∃ edges ∈ planRelationEdges toLowerCase snapshots store.stackTable
        (.pullRequest self.prNumber), doc ∈ edges) ↔
        doc ∈ snapshots.planReverts (.pullRequest self.prNumber)
            (.text (canonicalTime self.document))
            (pullRequestReverts toLowerCase self.document) ∨
          ∃ row ∈ mergeStackRows self.prNumber (listStacksOfChild store.stackTable self.prNumber)
            (snapshots.planStacks self).desired, stackDoc row = doc := by
    rw [mem_edges_pullRequest, known]
    simp only [Option.mem_def, Option.some.injEq, exists_eq_left']
  have reverted (snapshots : Snapshots) (doc : DerivedLinkDoc) :=
    (planning_reverts snapshots (.pullRequest self.prNumber) (.text (canonicalTime self.document))
      (pullRequestReverts toLowerCase self.document)).type doc
  have stacked (rows : List StackRow) (doc : DerivedLinkDoc)
      (member : ∃ row ∈ rows, stackDoc row = doc) : ¬ doc.linkType = .reverts := by
    obtain ⟨row, _, rfl⟩ := member
    exact LinkType.noConfusion
  constructor
  · intro kept
    have same (doc : DerivedLinkDoc) := by
      have both := kept doc
      rwa [edges _ known, edges _ found, split_types (reverted _ doc) (reverted _ doc)
        (stacked _ doc) (stacked _ doc)] at both
    refine ⟨SaysTheSame.of_planReverts regular.within limits.candidates unseen.1
      (.text (canonicalTime self.document)) fun doc => (same doc).1, ?_⟩
    exact WalksTheSame.of_stackDocs regular.within limits.candidates fun doc => (same doc).2
  · rintro ⟨alike, walks⟩ doc
    have merged := mem_merge_congr self.prNumber (listStacksOfChild store.stackTable self.prNumber)
        (planStacks_change regular.within limits.candidates limits.lookups inside unseen.1 unseen.2
          (rows_of_settled regular.sound settled found) walks)
    rw [edges _ known, edges _ found,
      alike.planReverts regular.recorded regular.within limits.candidates]
    simp only [merged]

/-! ### One change -/

theorem has_changed : (store.change object change).snapshots.has change.source = true := by
  cases change with
  | pullRequest row => exact findPullRequest_known object store.snapshots row
  | commit sha withPatchId =>
    change ((store.snapshots.change object
      (.commit sha withPatchId)).findCommitSnapshot sha).isSome = true
    cases found : store.snapshots.findCommitSnapshot sha with
    | none => rw [findCommit_arrived object withPatchId found]; rfl
    | some row =>
      obtain ⟨inside, rfl⟩ := findCommit_iff.mp found
      refine Option.isSome_iff_exists.mpr
        ⟨Snapshots.replaceCommit row (commitRow object row.commitSha withPatchId), ?_⟩
      exact findCommit_iff.mpr ⟨mem_upsert.mpr (.inr (.inl ⟨row, inside, rfl, rfl⟩)), rfl⟩

-- The change of one source gives no row to another one.
theorem has_change (other : change.source ≠ source) :
    (store.change object change).snapshots.has source = store.snapshots.has source := by
  cases source with
  | pullRequest prNumber => exact congrArg Option.isSome (findPullRequest_change other)
  | commit sha => exact congrArg Option.isSome (findCommit_change other)

theorem settles_change (toLowerCase : Text → Text) (servingStackImport : Bool) (change : Change)
    (regular : Regular object store) :
    Settles toLowerCase (change.source :: affectedSources (store.snapshots.change object change)
        store.stackTable change.source) (store.change object change)
      (handleRelationsReady toLowerCase servingStackImport (store.change object change)
        change.source) :=
  have sound : Sound (store.change object change) :=
    ⟨regular.sound.irreflexive, regular.sound.picking, regular.sound.rowed⟩
  settles_handle toLowerCase servingStackImport sound change.source

theorem Regular.handled (regular : Regular object store) (limits : InLimits object store change) :
    Regular object (handleRelationsReady toLowerCase servingStackImport
      (store.change object change) change.source) := by
  have made := settles_change toLowerCase servingStackImport change regular
  refine ⟨made.sound, ?_, ?_⟩
  · rw [made.snapshots]
    exact regular.recorded.after change
  · rw [made.snapshots]
    exact limits.candidates

/-- A change leaves the edges right exactly when it keeps the plans of the sources that are not
seen. -/
theorem converged_handled_iff (regular : Regular object store)
    (limits : InLimits object store change) (converged : Converged toLowerCase store) :
    Converged toLowerCase (handleRelationsReady toLowerCase servingStackImport
        (store.change object change) change.source) ↔
      Covered toLowerCase object store change := by
  have made := settles_change toLowerCase servingStackImport change regular
  have kept_iff {source : LinkSource} (unseen : Unseen object store change source) :
      Settled toLowerCase (handleRelationsReady toLowerCase servingStackImport
          (store.change object change) change.source) source ↔
        PlanKept toLowerCase object store change source := by
    refine (made.others source (.inl ?_)).trans (settled_change_iff (converged source))
    exact List.not_mem_cons_of_ne_of_not_mem (Ne.symm unseen.1) unseen.2
  constructor
  · intro later
    refine ⟨fun self inside unseen => ?_, fun self inside unseen => ?_⟩
    · exact (planKept_pullRequest_iff regular limits inside (converged _) unseen).mp
        ((kept_iff unseen).mp (later _))
    · exact (planKept_commit_iff regular limits inside unseen).mp ((kept_iff unseen).mp (later _))
  · intro covered source
    by_cases own : change.source = source
    · exact own ▸ made.settled _ List.mem_cons_self has_changed
    · cases has : store.snapshots.has source with
      | false =>
        have absent : (store.change object change).snapshots.has source = false :=
          (has_change own).trans has
        exact (made.others source (.inr absent)).mpr
          ((settled_change_iff (converged source)).mpr (planKept_absent own has))
      | true =>
        by_cases seen : source ∈ affectedSources (store.snapshots.change object change)
            store.stackTable change.source
        · exact made.settled source (List.mem_cons_of_mem _ seen) ((has_change own).trans has)
        · have unseen : Unseen object store change source := ⟨own, seen⟩
          refine (kept_iff unseen).mpr ?_
          cases source with
          | pullRequest prNumber =>
            obtain ⟨self, found⟩ := Option.isSome_iff_exists.mp has
            obtain ⟨inside, rfl⟩ := findPullRequest_iff.mp found
            exact (planKept_pullRequest_iff regular limits inside (converged _) unseen).mpr
              (covered.pullRequests self inside unseen)
          | commit sha =>
            obtain ⟨self, found⟩ := Option.isSome_iff_exists.mp has
            obtain ⟨inside, rfl⟩ := findCommit_iff.mp found
            exact (planKept_commit_iff regular limits inside unseen).mpr
              (covered.commits self inside unseen)

end Step

/-! ### Runs -/

/-- In a run in which no limit is passed, the edges are right all the time exactly when each change
leaves the plans of the sources that it does not look up as they are. -/
theorem relations_converge (toLowerCase : Text → Text) (servingStackImport : Bool)
    (object : Sha → CommitObject) (changes : List Change)
    (limits : ∀ turn ∈ (relations object toLowerCase servingStackImport).taken changes .empty,
      InLimits object turn.1 turn.2) :
    (∀ store ∈ (relations object toLowerCase servingStackImport).visited changes .empty,
        Converged toLowerCase store) ↔
      ∀ turn ∈ (relations object toLowerCase servingStackImport).taken changes .empty,
        Covered toLowerCase object turn.1 turn.2 := by
  refine Automaton.visited_iff_taken_of (Regular object) (InLimits object)
    (fun store change next regular within stepped => ?_)
    (fun store change next regular within converged stepped => ?_) regular_empty converged_empty
    limits
  · obtain rfl := Option.some.inj stepped
    exact regular.handled within
  · obtain rfl := Option.some.inj stepped
    exact converged_handled_iff regular within converged

/-! ### Two short runs -/

-- With a few rows no list of candidates is long.
theorem Within.of_few {snapshots : Snapshots} (pullRequests : snapshots.pullRequests.length ≤ 5)
    (commits : snapshots.commits.length ≤ 5) : Within snapshots where
  titles _ := ((List.length_filter_le _ _).trans pullRequests).trans (by decide)
  subjects _ := ((List.length_filter_le _ _).trans commits).trans (by decide)
  patches _ _ _ := (List.length_filter_le _ _).trans commits
  heads _ := ((List.length_filter_le _ _).trans pullRequests).trans (by decide)

def titled (prNumber : Nat) (title : String) : PullRequestSnapshotRow where
  prNumber := prNumber
  document := { title := some title.toList, state := some "open".toList }

def lower (text : Text) : Text := text.map Char.toLower

def noCommit (_ : Sha) : CommitObject := ⟨[], 0, []⟩

/-- The revert arrives before what it reverts. -/
def revertFirst : List Change := [.pullRequest (titled 2 "Revert \"fix\""), .pullRequest (titled 1 "fix")]

/-- What a revert names gets another title. -/
def titleEdited : List Change := [.pullRequest (titled 1 "fix"), .pullRequest (titled 2 "Revert \"fix\""),
  .pullRequest (titled 1 "fix it")]

theorem limits_of_few {changes : List Change}
    (few : ∀ turn ∈ (relations noCommit lower true).taken changes .empty,
      (turn.1.snapshots.change noCommit turn.2).pullRequests.length ≤ 5 ∧
        (turn.1.snapshots.change noCommit turn.2).commits.length ≤ 5 ∧
          LookupsWithin (turn.1.snapshots.change noCommit turn.2) turn.1.stackTable turn.2.source) :
    ∀ turn ∈ (relations noCommit lower true).taken changes .empty,
      InLimits noCommit turn.1 turn.2 := by
  intro turn inside
  obtain ⟨pullRequests, commits, lookups⟩ := few turn inside
  exact ⟨.of_few pullRequests commits, lookups⟩

instance (snapshots : Snapshots) (table : StackTable) (source : LinkSource) :
    Decidable (LookupsWithin snapshots table source) :=
  match source with
  | .commit _ => inferInstanceAs (Decidable (∀ row ∈ _, _ ∧ (∀ patchId ∈ _, _) ∧ _))
  | .pullRequest _ => inferInstanceAs (Decidable (∀ row ∈ _, _ ∧ _ ∧ _))

instance (object : Sha → CommitObject) (snapshots : Snapshots) (change : Change)
    (extracted : List ExtractedRevert) :
    Decidable (SaysTheSame object snapshots change extracted) :=
  match change with
  | .pullRequest _ => inferInstanceAs (Decidable (_ = _))
  | .commit _ _ => inferInstanceAs (Decidable (_ ∨ ∀ entry ∈ _, _ ∧ _))

instance (object : Sha → CommitObject) (snapshots : Snapshots) (change : Change)
    (self : PullRequestSnapshotRow) : Decidable (WalksTheSame object snapshots change self) :=
  inferInstanceAs (Decidable (∀ parent ∈ _, _ → _))

theorem revert_first_converges :
    (∀ turn ∈ (relations noCommit lower true).taken revertFirst .empty,
        Covered lower noCommit turn.1 turn.2) ∧
      ∀ store ∈ (relations noCommit lower true).visited revertFirst .empty,
        Converged lower store := by
  have covered : ∀ turn ∈ (relations noCommit lower true).taken revertFirst .empty,
      Covered lower noCommit turn.1 turn.2 := by
    intro turn inside
    refine ⟨?_, ?_⟩
    · revert turn
      decide
    · revert turn
      decide
  exact ⟨covered, (relations_converge lower true noCommit revertFirst
    (limits_of_few (by decide))).mpr covered⟩

theorem title_edited_keeps_revert :
    (∀ turn ∈ (relations noCommit lower true).taken titleEdited .empty,
        InLimits noCommit turn.1 turn.2) ∧
      ¬ ∀ store ∈ (relations noCommit lower true).visited titleEdited .empty,
        Converged lower store := by
  refine ⟨limits_of_few (by decide), fun converged => ?_⟩
  have kept : ∃ store ∈ (relations noCommit lower true).visited titleEdited .empty,
      ∃ doc ∈ store.links.rows, doc.source = .pullRequest 2 ∧
        ¬ ∃ edges ∈ planRelationEdges lower store.snapshots store.stackTable (.pullRequest 2),
          doc ∈ edges := by decide
  obtain ⟨store, reached, doc, stored, own, unplanned⟩ := kept
  exact unplanned ((converged store reached _ doc).mp ⟨stored, own⟩)

end PrSearch.Relation
