import PrSearch.Relation.Settled

/-! # What a change leaves as it is

A change alters one row. The edges of another source depend on that row in three ways: by a title or
a trailer in the text of the source, by a common patch-id, and by the branches. Where the source is
not looked up for the change, its cherry-picks do not change at all, its reverts change only by what
its text says about the changed entity, and its stacks only by the walks from its parents.
-/
namespace PrSearch.Relation

open Query (Text)
open Rows

variable {prNumber : Nat} {row : CommitSnapshotRow} {sha : Sha} {target : LinkSource}
  {entry : ExtractedRevert} {extracted : List ExtractedRevert}

/-! ### The rows after a change -/

section Rows

variable {object : Sha → CommitObject} {snapshots : Snapshots} {change : Change}

theorem findPullRequest_iff {row : PullRequestSnapshotRow} :
    snapshots.findPullRequestSnapshot prNumber = some row ↔
      row ∈ snapshots.pullRequests ∧ row.prNumber = prNumber :=
  snapshots.pullRequestKey.find?_eq_some

theorem findCommit_iff :
    snapshots.findCommitSnapshot sha = some row ↔ row ∈ snapshots.commits ∧ row.commitSha = sha :=
  snapshots.commitKey.find?_eq_some

-- A row of another entity is neither written nor replaced.
theorem mem_pullRequests_change {row : PullRequestSnapshotRow}
    (other : change.source ≠ .pullRequest row.prNumber) :
    row ∈ (snapshots.change object change).pullRequests ↔ row ∈ snapshots.pullRequests := by
  cases change with
  | commit sha withPatchId => exact Iff.rfl
  | pullRequest changed =>
    have apart : row.prNumber ≠ changed.prNumber :=
      fun same => other (congrArg LinkSource.pullRequest same.symm)
    refine mem_upsert.trans ⟨?_, fun inside => .inl ⟨inside, apart⟩⟩
    rintro (⟨inside, _⟩ | ⟨stored, _, same, rfl⟩ | ⟨_, rfl⟩)
    · exact inside
    · refine absurd ?_ apart
      unfold Snapshots.replacePullRequest
      split
      next => rfl
      next => exact same
    · exact absurd rfl apart

theorem mem_commits_change (other : change.source ≠ .commit row.commitSha) :
    row ∈ (snapshots.change object change).commits ↔ row ∈ snapshots.commits := by
  cases change with
  | pullRequest changed => exact Iff.rfl
  | commit sha withPatchId =>
    have apart : row.commitSha ≠ sha := fun same => other (congrArg LinkSource.commit same.symm)
    refine mem_upsert.trans ⟨?_, fun inside => .inl ⟨inside, apart⟩⟩
    rintro (⟨inside, _⟩ | ⟨stored, _, same, rfl⟩ | ⟨_, rfl⟩)
    · exact inside
    · exact absurd rfl apart
    · exact absurd rfl apart

theorem findPullRequest_change (other : change.source ≠ .pullRequest prNumber) :
    (snapshots.change object change).findPullRequestSnapshot prNumber =
      snapshots.findPullRequestSnapshot prNumber := by
  refine Option.ext fun row => ?_
  rw [findPullRequest_iff, findPullRequest_iff]
  refine and_congr_left fun own => mem_pullRequests_change ?_
  rwa [own]

theorem findCommit_change (other : change.source ≠ .commit sha) :
    (snapshots.change object change).findCommitSnapshot sha =
      snapshots.findCommitSnapshot sha := by
  refine Option.ext fun row => ?_
  rw [findCommit_iff, findCommit_iff]
  refine and_congr_left fun own => mem_commits_change ?_
  rwa [own]

/-- The rows of the commits say what the commits are. -/
def Recorded (object : Sha → CommitObject) (snapshots : Snapshots) : Prop :=
  ∀ row ∈ snapshots.commits, row.message = (object row.commitSha).message ∧
    row.committedAt = (object row.commitSha).committedAt ∧
      ∀ patchId ∈ row.patchId, patchId = (object row.commitSha).patchId

theorem recorded_commitRow (sha : Sha) (withPatchId : Bool) :
    ∀ patchId ∈ (commitRow object sha withPatchId).patchId, patchId = (object sha).patchId := by
  intro patchId is
  unfold commitRow at is
  dsimp only at is
  split at is
  next => exact (Option.some.inj is).symm
  next => simp at is

theorem Recorded.after (recorded : Recorded object snapshots) (change : Change) :
    Recorded object (snapshots.change object change) := by
  cases change with
  | pullRequest row => exact recorded
  | commit sha withPatchId =>
    intro row inside
    rcases mem_upsert.mp inside with ⟨old, _⟩ | ⟨stored, old, same, rfl⟩ | ⟨_, rfl⟩
    · exact recorded row old
    · refine ⟨rfl, rfl, fun patchId is => ?_⟩
      -- the new patch-id, or the one that is kept
      cases new : (commitRow object sha withPatchId).patchId with
      | some found =>
        simp only [Snapshots.replaceCommit, new] at is
        obtain rfl : found = patchId := by simpa using is
        exact recorded_commitRow sha withPatchId found new
      | none =>
        simp only [Snapshots.replaceCommit, new] at is
        have kept := (recorded stored old).2.2 patchId (by simpa using is)
        rwa [same] at kept
    · exact ⟨rfl, rfl, recorded_commitRow sha withPatchId⟩

-- A patch-id that is known stays known.
theorem Recorded.patchId (recorded : Recorded object snapshots) {before after : CommitSnapshotRow}
    (inBefore : before ∈ snapshots.commits)
    (inAfter : after ∈ (snapshots.change object change).commits)
    (same : after.commitSha = before.commitSha) {patchId : Text} (has : patchId ∈ before.patchId) :
    patchId ∈ after.patchId := by
  by_cases own : change.source = .commit after.commitSha
  · cases change with
    | pullRequest row => cases own
    | commit sha withPatchId =>
      obtain rfl : sha = after.commitSha := LinkSource.commit.inj own
      rcases mem_upsert.mp inAfter with ⟨_, apart⟩ | ⟨stored, old, key, made⟩ | ⟨absent, _⟩
      · exact absurd rfl apart
      · obtain rfl : stored = before := snapshots.commitKey.eq old inBefore (key.trans same)
        cases new : (commitRow object after.commitSha withPatchId).patchId with
        | some found =>
          have first := recorded_commitRow _ _ found new
          have second := (recorded stored old).2.2 patchId has
          rw [made]
          simp only [Snapshots.replaceCommit, new]
          rw [first, second, same]
          rfl
        | none =>
          rw [made]
          simp only [Snapshots.replaceCommit, new]
          exact has
      · exact absurd same.symm (absent before inBefore)
  · have old := (mem_commits_change own).mp inAfter
    rwa [snapshots.commitKey.eq old inBefore same]

end Rows

/-! ### Limits that are not passed -/

/-- No list of candidates is longer than its limit. -/
structure Within (snapshots : Snapshots) : Prop where
  titles : ∀ title, (snapshots.pullRequests.filter fun row =>
    row.document.title = some title).length ≤ revertCandidateLimit
  subjects : ∀ subject, (snapshots.commits.filter fun row =>
    Snapshots.firstLine row.message = subject).length ≤ revertCandidateLimit
  patches : ∀ patchId, ∀ self ∈ snapshots.commits, (snapshots.commits.filter fun row =>
    Snapshots.samePatch patchId self.commitSha row && Snapshots.isLater self row).length ≤
      cherryCandidateLimit
  heads : ∀ branch, (snapshots.pullRequests.filter (Snapshots.isOpenHead branch)).length ≤
    stackCandidateLimit

/-! ### Reverts -/

section Reverts

/-- The title that an entity is found by. -/
def titleOf (snapshots : Snapshots) : LinkSource → Option Text
  | .pullRequest prNumber =>
      (snapshots.findPullRequestSnapshot prNumber).bind fun row => row.document.title
  | .commit sha => (snapshots.findCommitSnapshot sha).map fun row => Snapshots.firstLine row.message

variable {snapshots : Snapshots} {source : LinkSource} {createdAt : LinkTime}

/-- The edge of an expression to a target, if it names the target. -/
def revertTo (snapshots : Snapshots) (source : LinkSource) (createdAt : LinkTime)
    (target : LinkSource) (entry : ExtractedRevert) : Option DerivedLinkDoc :=
  match entry.target with
  | .commit sha =>
      if target = .commit sha then
        some (Snapshots.revertDoc source createdAt entry.evidence .exact_
          (snapshots.findCommitSnapshot sha).isSome target)
      else none
  | .title title =>
      if titleOf snapshots target = some title then
        some (Snapshots.revertDoc source createdAt entry.evidence .heuristic true target)
      else none

theorem mem_titled (within : Within snapshots) {title : Text} :
    target ∈ ((snapshots.findPullRequestsByTitle title revertCandidateLimit).map fun row =>
          LinkSource.pullRequest row.prNumber) ++
        ((snapshots.findCommitsBySubject title revertCandidateLimit).map fun row =>
          LinkSource.commit row.commitSha) ↔
      titleOf snapshots target = some title := by
  have byTitle : ∀ row, row ∈ snapshots.findPullRequestsByTitle title revertCandidateLimit ↔
      row ∈ snapshots.pullRequests ∧ row.document.title = some title := fun row =>
    (mem_select (within.titles title)).trans (by rw [decide_eq_true_eq])
  have bySubject : ∀ row, row ∈ snapshots.findCommitsBySubject title revertCandidateLimit ↔
      row ∈ snapshots.commits ∧ Snapshots.firstLine row.message = title := fun row =>
    (mem_select (within.subjects title)).trans (by rw [decide_eq_true_eq])
  simp only [List.mem_append, List.mem_map, byTitle, bySubject]
  cases target with
  | pullRequest prNumber =>
    simp only [titleOf, Option.bind_eq_some_iff, findPullRequest_iff, LinkSource.pullRequest.injEq,
      reduceCtorEq, and_false, exists_false, or_false]
    constructor
    · rintro ⟨row, ⟨inside, is⟩, own⟩
      exact ⟨row, ⟨inside, own⟩, is⟩
    · rintro ⟨row, ⟨inside, own⟩, is⟩
      exact ⟨row, ⟨inside, is⟩, own⟩
  | commit sha =>
    simp only [titleOf, Option.map_eq_some_iff, findCommit_iff, LinkSource.commit.injEq,
      reduceCtorEq, and_false, exists_false, false_or]
    constructor
    · rintro ⟨row, ⟨inside, is⟩, own⟩
      exact ⟨row, ⟨inside, own⟩, is⟩
    · rintro ⟨row, ⟨inside, own⟩, is⟩
      exact ⟨row, ⟨inside, is⟩, own⟩

-- The edges of an expression are those to the targets that it names.
theorem mem_revertDocsOf (within : Within snapshots) {doc : DerivedLinkDoc} :
    doc ∈ snapshots.revertDocsOf source createdAt entry ↔
      revertTo snapshots source createdAt doc.target entry = some doc := by
  cases aim : entry.target with
  | commit sha =>
    simp only [Snapshots.revertDocsOf, revertTo, aim, List.mem_singleton]
    constructor
    · rintro rfl
      exact if_pos rfl
    · intro made
      split at made
      next is =>
        rw [is] at made
        exact (Option.some.inj made).symm
      next => simp at made
  | title title =>
    simp only [Snapshots.revertDocsOf, revertTo, aim, List.mem_map]
    constructor
    · rintro ⟨target, inside, rfl⟩
      exact if_pos ((mem_titled within).mp inside)
    · intro made
      split at made
      next is => exact ⟨doc.target, (mem_titled within).mpr is, Option.some.inj made⟩
      next => simp at made

theorem target_of_revertTo {doc : DerivedLinkDoc}
    (made : revertTo snapshots source createdAt target entry = some doc) : doc.target = target := by
  unfold revertTo at made
  split at made
  all_goals
    split at made
    next => exact (congrArg DerivedLinkDoc.target (Option.some.inj made)).symm
    next => simp at made

theorem find_revertDocsOf (within : Within snapshots) :
    (snapshots.revertDocsOf source createdAt entry).find?
        (fun doc => doc.linkId = ⟨.reverts, source, target⟩) =
      revertTo snapshots source createdAt target entry := by
  cases found : (snapshots.revertDocsOf source createdAt entry).find?
      (fun doc => doc.linkId = ⟨.reverts, source, target⟩) with
  | some doc =>
    have made := (mem_revertDocsOf within).mp (List.mem_of_find?_eq_some found)
    have key : doc.linkId = ⟨.reverts, source, target⟩ := by simpa using List.find?_some found
    obtain rfl : doc.target = target := congrArg LinkId.target key
    exact made.symm
  | none =>
    cases made : revertTo snapshots source createdAt target entry with
    | none => rfl
    | some doc =>
      obtain rfl := target_of_revertTo made
      have inside := (mem_revertDocsOf within).mpr made
      obtain ⟨type, own⟩ := revertDocsOf_type inside
      have absent := List.find?_eq_none.mp found doc inside
      simp [DerivedLinkDoc.linkId, type, own] at absent

/-- The edge to a target is that of the first expression that names it. -/
theorem mem_planReverts (within : Within snapshots) {doc : DerivedLinkDoc} :
    doc ∈ snapshots.planReverts source createdAt extracted ↔
      doc.target ≠ source ∧
        extracted.findSome? (revertTo snapshots source createdAt doc.target) = some doc := by
  have first (own : doc.source = source) (type : doc.linkType = .reverts)
      (other : doc.target ≠ source) :
      ((extracted.flatMap (snapshots.revertDocsOf source createdAt)).filter
          fun doc => doc.target ≠ source).find? (fun one => one.linkId = doc.linkId) =
        extracted.findSome? (revertTo snapshots source createdAt doc.target) := by
    have key : doc.linkId = ⟨.reverts, source, doc.target⟩ := by
      rw [DerivedLinkDoc.linkId, type, own]
    have same : (fun one : DerivedLinkDoc =>
        decide (decide (one.target ≠ source) = true ∧ decide (one.linkId = doc.linkId) = true)) =
          fun one => decide (one.linkId = ⟨.reverts, source, doc.target⟩) := by
      funext one
      rw [key]
      by_cases is : one.linkId = ⟨.reverts, source, doc.target⟩
      · have : one.target = doc.target := congrArg LinkId.target is
        simp [is, this, other]
      · simp [is]
    rw [List.find?_filter, same, List.find?_flatMap]
    exact congrArg (extracted.findSome? ·) (funext fun entry => find_revertDocsOf within)
  constructor
  · intro member
    have planned := planning_reverts snapshots source createdAt extracted
    have other : doc.target ≠ source := by
      simpa using (List.mem_filter.mp (of_mem_firsts member)).2
    rw [← first (planned.source doc member) (planned.type doc member) other]
    exact ⟨other, mem_firsts.mp member⟩
  · rintro ⟨other, found⟩
    obtain ⟨entry, _, made⟩ := List.exists_of_findSome?_eq_some found
    obtain ⟨type, own⟩ := revertDocsOf_type ((mem_revertDocsOf within).mpr made)
    exact mem_firsts.mpr ((first own type other).trans found)

end Reverts

/-! ### What a text says about the changed entity -/

section TextTells

/-- The line that names the title first. -/
def titleEvidence (extracted : List ExtractedRevert) (title : Option Text) : Option Text :=
  title.bind fun title =>
    (extracted.find? fun entry => entry.target = .title title).map ExtractedRevert.evidence

/-- The text says the same about the entity before and after the change: it names the old and the
new title of the pull request alike, and it does not name a commit that arrives. -/
def SaysTheSame (object : Sha → CommitObject) (snapshots : Snapshots) (change : Change)
    (extracted : List ExtractedRevert) : Prop :=
  match change with
  | .pullRequest row =>
      titleEvidence extracted (titleOf snapshots (.pullRequest row.prNumber)) =
        titleEvidence extracted
          (titleOf (snapshots.change object change) (.pullRequest row.prNumber))
  | .commit sha _ =>
      (snapshots.findCommitSnapshot sha).isSome = true ∨ ∀ entry ∈ extracted,
        entry.target ≠ .commit sha ∧
          entry.target ≠ .title (Snapshots.firstLine (object sha).message)

variable {object : Sha → CommitObject} {snapshots : Snapshots} {change : Change}
  {source : LinkSource} {createdAt : LinkTime}

theorem titleOf_change (other : change.source ≠ target) :
    titleOf (snapshots.change object change) target = titleOf snapshots target := by
  cases target with
  | pullRequest prNumber => rw [titleOf, titleOf, findPullRequest_change other]
  | commit sha => rw [titleOf, titleOf, findCommit_change other]

theorem revertTo_change (other : change.source ≠ target) (entry : ExtractedRevert) :
    revertTo (snapshots.change object change) source createdAt target entry =
      revertTo snapshots source createdAt target entry := by
  unfold revertTo
  rw [titleOf_change other]
  split
  next sha _ =>
    split
    next is => rw [findCommit_change (is ▸ other)]
    next => rfl
  next => rfl

-- A pull request is only named by its title.
theorem findSome_pullRequest (extracted : List ExtractedRevert) (prNumber : Nat) :
    extracted.findSome? (revertTo snapshots source createdAt (.pullRequest prNumber)) =
      (titleEvidence extracted (titleOf snapshots (.pullRequest prNumber))).map fun evidence =>
        Snapshots.revertDoc source createdAt evidence .heuristic true (.pullRequest prNumber) := by
  cases title : titleOf snapshots (.pullRequest prNumber) with
  | none =>
    refine List.findSome?_eq_none_iff.mpr fun entry _ => ?_
    cases aim : entry.target <;> simp [revertTo, aim, title]
  | some title' =>
    induction extracted with
    | nil => rfl
    | cons entry rest ih =>
      simp only [titleEvidence, Option.bind_some, List.findSome?_cons, List.find?_cons] at ih ⊢
      by_cases named : entry.target = .title title'
      · simp [revertTo, named, title]
      · have passed : revertTo snapshots source createdAt (.pullRequest prNumber) entry = none := by
          cases aim : entry.target with
          | commit sha => simp [revertTo, aim]
          | title text =>
            have apart : title' ≠ text := fun is => named (is ▸ aim)
            simp [revertTo, aim, title, apart]
        simp only [passed, named, decide_false]
        exact ih

theorem findCommit_arrived (object : Sha → CommitObject) (withPatchId : Bool)
    (absent : snapshots.findCommitSnapshot sha = none) :
    (snapshots.change object (.commit sha withPatchId)).findCommitSnapshot sha =
      some (commitRow object sha withPatchId) := by
  refine findCommit_iff.mpr ⟨mem_upsert.mpr (.inr (.inr ⟨fun stored inside same => ?_, rfl⟩)), rfl⟩
  have same : stored.commitSha = sha := same
  rw [findCommit_iff.mpr ⟨inside, same⟩] at absent
  cases absent

theorem findCommit_known (recorded : Recorded object snapshots) (withPatchId : Bool)
    (found : snapshots.findCommitSnapshot sha = some row) :
    ∃ row', (snapshots.change object (.commit sha withPatchId)).findCommitSnapshot sha = some row' ∧
      row'.message = row.message := by
  obtain ⟨inside, rfl⟩ := findCommit_iff.mp found
  refine ⟨Snapshots.replaceCommit row (commitRow object row.commitSha withPatchId), ?_, ?_⟩
  · exact findCommit_iff.mpr ⟨mem_upsert.mpr (.inr (.inl ⟨row, inside, rfl, rfl⟩)), rfl⟩
  · exact (recorded row inside).1.symm

/-- A text that says the same gives the same edges. -/
theorem SaysTheSame.findSome (recorded : Recorded object snapshots)
    (alike : SaysTheSame object snapshots change extracted) (target : LinkSource) :
    extracted.findSome? (revertTo (snapshots.change object change) source createdAt target) =
      extracted.findSome? (revertTo snapshots source createdAt target) := by
  by_cases other : change.source = target
  · subst other
    cases change with
    | pullRequest row =>
      rw [Change.source, findSome_pullRequest, findSome_pullRequest]
      exact congrArg _ alike.symm
    | commit sha withPatchId =>
      cases found : snapshots.findCommitSnapshot sha with
      | some row =>
        -- the commit was there, with the same message
        obtain ⟨row', found', same⟩ := findCommit_known recorded withPatchId found
        refine congrArg (extracted.findSome? ·) (funext fun entry => ?_)
        unfold revertTo
        cases entry.target with
        | commit sha' =>
          by_cases is : LinkSource.commit sha = LinkSource.commit sha'
          · obtain rfl := LinkSource.commit.inj is
            simp only [Change.source, found, found', if_true, Option.isSome_some]
          · simp only [Change.source, is, if_false]
        | title title =>
          simp only [Change.source, titleOf, found, found', Option.map_some, same]
      | none =>
        have silent := alike.resolve_left (by simp [found])
        have arrived := findCommit_arrived object withPatchId found
        have none_of : ∀ after, (after = snapshots ∨
            after = snapshots.change object (.commit sha withPatchId)) → ∀ entry ∈ extracted,
              revertTo after source createdAt (Change.commit sha withPatchId).source entry = none := by
          intro after which entry member
          obtain ⟨notCommit, notTitle⟩ := silent entry member
          unfold revertTo
          cases aim : entry.target with
          | commit sha' =>
            refine if_neg fun is => notCommit ?_
            rw [aim, ← LinkSource.commit.inj is]
          | title title =>
            refine if_neg fun is => ?_
            rcases which with rfl | rfl
            · simp [Change.source, titleOf, found] at is
            · simp only [Change.source, titleOf, arrived, Option.map_some, Option.some.injEq] at is
              exact notTitle (by rw [aim, ← is]; rfl)
        rw [List.findSome?_eq_none_iff.mpr (none_of _ (.inr rfl)),
          List.findSome?_eq_none_iff.mpr (none_of _ (.inl rfl))]
  · exact congrArg (extracted.findSome? ·) (funext fun entry => revertTo_change other entry)

theorem SaysTheSame.planReverts (recorded : Recorded object snapshots) (before : Within snapshots)
    (after : Within (snapshots.change object change))
    (alike : SaysTheSame object snapshots change extracted) {doc : DerivedLinkDoc} :
    doc ∈ (snapshots.change object change).planReverts source createdAt extracted ↔
      doc ∈ snapshots.planReverts source createdAt extracted := by
  rw [mem_planReverts after, mem_planReverts before, alike.findSome recorded]

-- Before it arrives, a commit is only named by trailers, and the edges to it are unresolved.
theorem unresolved_of_absent {doc : DerivedLinkDoc}
    (absent : snapshots.findCommitSnapshot sha = none)
    (made : revertTo snapshots source createdAt (.commit sha) entry = some doc) :
    doc.resolved = false := by
  unfold revertTo at made
  split at made
  next sha' _ =>
    split at made
    next is =>
      rw [← LinkSource.commit.inj is, absent] at made
      exact (congrArg DerivedLinkDoc.resolved (Option.some.inj made)).symm
    next => simp at made
  next => simp [titleOf, absent] at made

-- Once it is there, they are resolved.
theorem resolved_of_known {doc : DerivedLinkDoc}
    (found : snapshots.findCommitSnapshot sha = some row)
    (made : revertTo snapshots source createdAt (.commit sha) entry = some doc) :
    doc.resolved = true := by
  unfold revertTo at made
  split at made
  next sha' _ =>
    split at made
    next is =>
      rw [← LinkSource.commit.inj is, found] at made
      exact (congrArg DerivedLinkDoc.resolved (Option.some.inj made)).symm
    next => simp at made
  next =>
    split at made
    next => exact (congrArg DerivedLinkDoc.resolved (Option.some.inj made)).symm
    next => simp at made

theorem revertTo_ne_none (found : snapshots.findCommitSnapshot sha = some row)
    (names : entry.target = .commit sha ∨ entry.target = .title (Snapshots.firstLine row.message)) :
    revertTo snapshots source createdAt (.commit sha) entry ≠ none := by
  rcases names with commit | title
  · simp [revertTo, commit]
  · simp [revertTo, title, titleOf, found]

/-- A text that does not say the same gives other edges. -/
theorem SaysTheSame.of_planReverts (before : Within snapshots)
    (after : Within (snapshots.change object change)) (other : change.source ≠ source)
    (createdAt : LinkTime)
    (same : ∀ doc, doc ∈ (snapshots.change object change).planReverts source createdAt extracted ↔
      doc ∈ snapshots.planReverts source createdAt extracted) :
    SaysTheSame object snapshots change extracted := by
  have aimed : ∀ {after : Snapshots} {doc : DerivedLinkDoc},
      extracted.findSome? (revertTo after source createdAt change.source) = some doc →
        doc.target = change.source := by
    intro after doc found
    obtain ⟨entry, _, made⟩ := List.exists_of_findSome?_eq_some found
    exact target_of_revertTo made
  have found : extracted.findSome?
      (revertTo (snapshots.change object change) source createdAt change.source) =
        extracted.findSome? (revertTo snapshots source createdAt change.source) := by
    refine Option.ext fun doc => ⟨fun now => ?_, fun was => ?_⟩
    · have target := aimed now
      have member := (same doc).mp ((mem_planReverts after).mpr ⟨target ▸ other, target ▸ now⟩)
      exact target ▸ ((mem_planReverts before).mp member).2
    · have target := aimed was
      have member := (same doc).mpr ((mem_planReverts before).mpr ⟨target ▸ other, target ▸ was⟩)
      exact target ▸ ((mem_planReverts after).mp member).2
  cases change with
  | pullRequest row =>
    rw [Change.source, findSome_pullRequest, findSome_pullRequest] at found
    refine (Option.map_injective (fun left right is => ?_) found).symm
    exact congrArg DerivedLinkDoc.evidence is
  | commit sha withPatchId =>
    cases absent : snapshots.findCommitSnapshot sha with
    | some row => exact .inl (by rw [absent]; rfl)
    | none =>
      refine .inr fun entry member => not_or.mp fun names => ?_
      have arrived := findCommit_arrived object withPatchId absent
      -- what is found after the change is resolved, and what was found before it is not
      cases now : extracted.findSome? (revertTo (snapshots.change object (.commit sha withPatchId))
          source createdAt (.commit sha)) with
      | none => exact revertTo_ne_none arrived names (List.findSome?_eq_none_iff.mp now entry member)
      | some doc =>
        obtain ⟨_, _, made⟩ := List.exists_of_findSome?_eq_some now
        obtain ⟨_, _, old⟩ := List.exists_of_findSome?_eq_some (found.symm.trans now)
        have resolved := resolved_of_known arrived made
        rw [unresolved_of_absent absent old] at resolved
        cases resolved

end TextTells

/-! ### Those that are looked up -/

/-- No lookup for the source is cut off. -/
def LookupsWithin (snapshots : Snapshots) (table : StackTable) : LinkSource → Prop
  | .commit sha => ∀ row ∈ snapshots.findCommitSnapshot sha,
      (snapshots.commits.filter (Snapshots.mentions row.commitSha)).length ≤ affectedLimit ∧
        (∀ patchId ∈ row.patchId, (snapshots.commits.filter
          (Snapshots.samePatch patchId row.commitSha)).length ≤ affectedLimit) ∧
        (firsts id ((snapshots.affectedByCommit row).filter fun candidate =>
          candidate ≠ .commit sha)).length ≤ affectedLimit
  | .pullRequest prNumber => ∀ row ∈ snapshots.findPullRequestSnapshot prNumber,
      (snapshots.pullRequests.filter fun other =>
          other.document.baseBranch = some (field row.document.headBranch)).length ≤
            affectedLimit ∧
        (table.rows.filter fun stack => stack.parentPrNumber = row.prNumber).length ≤
          affectedLimit ∧
        (firsts id ((snapshots.affectedByPullRequest table row).filter fun candidate =>
          candidate ≠ .pullRequest prNumber)).length ≤ affectedLimit

section Seen

variable {snapshots : Snapshots} {table : StackTable} {source : LinkSource}

theorem mem_targetsOf {candidates : List LinkSource}
    (within : (firsts id (candidates.filter fun candidate => candidate ≠ source)).length ≤
      affectedLimit) (member : target ∈ candidates) (other : target ≠ source) :
    target ∈ targetsOf source candidates := by
  rw [targetsOf, List.take_of_length_le within]
  refine (mem_firsts_of_inj fun _ _ _ _ same => same).mpr (List.mem_filter.mpr ⟨member, ?_⟩)
  exact decide_eq_true other

-- A commit that mentions the changed one is looked up.
theorem seen_of_mentions {self : CommitSnapshotRow}
    (limits : LookupsWithin snapshots table (.commit sha))
    (found : snapshots.findCommitSnapshot sha = some row) (inside : self ∈ snapshots.commits)
    (mentioned : Snapshots.mentions sha self = true) :
    .commit self.commitSha ∈ affectedSources snapshots table (.commit sha) := by
  obtain rfl := (findCommit_iff.mp found).2
  obtain ⟨short, _, total⟩ := limits row found
  have other : self.commitSha ≠ row.commitSha := (Snapshots.mentions_iff.mp mentioned).1
  simp only [affectedSources, found, Option.map_some, Option.getD_some]
  refine mem_targetsOf total (List.mem_append_left _ (List.mem_append_left _ ?_))
    fun is => other (LinkSource.commit.inj is)
  exact List.mem_map.mpr ⟨self, (mem_select short).mpr ⟨inside, mentioned⟩, rfl⟩

-- A later commit with the patch of the changed one is looked up.
theorem seen_of_samePatch {self : CommitSnapshotRow}
    (limits : LookupsWithin snapshots table (.commit sha))
    (found : snapshots.findCommitSnapshot sha = some row) (inside : self ∈ snapshots.commits)
    {patchId : Text} (has : row.patchId = some patchId)
    (same : Snapshots.samePatch patchId sha self = true) (later : Snapshots.isLater self row = true) :
    .commit self.commitSha ∈ affectedSources snapshots table (.commit sha) := by
  obtain rfl := (findCommit_iff.mp found).2
  obtain ⟨_, short, total⟩ := limits row found
  have other : self.commitSha ≠ row.commitSha :=
    of_decide_eq_true (Bool.and_eq_true_iff.mp same).2
  simp only [affectedSources, found, Option.map_some, Option.getD_some]
  refine mem_targetsOf total (List.mem_append_left _ (List.mem_append_right _ ?_))
    fun is => other (LinkSource.commit.inj is)
  simp only [has]
  refine List.mem_map.mpr ⟨self, List.mem_filter.mpr ⟨?_, later⟩, rfl⟩
  exact (mem_select (short patchId has)).mpr ⟨inside, same⟩

-- A pull request whose base is the head of the changed one is looked up.
theorem seen_of_base {row self : PullRequestSnapshotRow}
    (limits : LookupsWithin snapshots table (.pullRequest prNumber))
    (found : snapshots.findPullRequestSnapshot prNumber = some row)
    (inside : self ∈ snapshots.pullRequests) (other : self.prNumber ≠ prNumber)
    (named : field row.document.headBranch ≠ [])
    (base : self.document.baseBranch = some (field row.document.headBranch)) :
    .pullRequest self.prNumber ∈ affectedSources snapshots table (.pullRequest prNumber) := by
  obtain ⟨short, _, total⟩ := limits row found
  simp only [affectedSources, found, Option.map_some, Option.getD_some]
  refine mem_targetsOf total (List.mem_append_left _ (List.mem_append_left _ ?_))
    fun is => other (LinkSource.pullRequest.inj is)
  rw [if_neg named]
  refine List.mem_map.mpr ⟨self, (mem_select short).mpr ⟨inside, ?_⟩, rfl⟩
  exact decide_eq_true base

-- A pull request that has been stacked on the changed one is looked up.
theorem seen_of_row {row : PullRequestSnapshotRow} {stack : StackRow}
    (limits : LookupsWithin snapshots table (.pullRequest prNumber))
    (found : snapshots.findPullRequestSnapshot prNumber = some row) (inside : stack ∈ table.rows)
    (parent : stack.parentPrNumber = prNumber) (other : stack.childPrNumber ≠ prNumber) :
    .pullRequest stack.childPrNumber ∈ affectedSources snapshots table (.pullRequest prNumber) := by
  obtain rfl := (findPullRequest_iff.mp found).2
  obtain ⟨_, short, total⟩ := limits row found
  simp only [affectedSources, found, Option.map_some, Option.getD_some]
  refine mem_targetsOf total (List.mem_append_left _ (List.mem_append_right _ ?_))
    fun is => other (LinkSource.pullRequest.inj is)
  refine List.mem_map.mpr ⟨stack.childPrNumber, List.mem_map.mpr ⟨stack, ?_, rfl⟩, rfl⟩
  exact (mem_select short).mpr ⟨inside, decide_eq_true parent⟩

end Seen

/-! ### Cherry-picks -/

section CherryPicks

variable {snapshots : Snapshots} {self : CommitSnapshotRow} {doc : DerivedLinkDoc}

theorem mem_cherryDocsOf (within : Within snapshots) (inside : self ∈ snapshots.commits) :
    doc ∈ snapshots.cherryDocsOf self ↔
      (∃ trailer ∈ extractCherryPicks self.message,
        Snapshots.cherryDoc self trailer.evidence .exact_
          (snapshots.findCommitSnapshot trailer.sha).isSome trailer.sha = doc) ∨
        (extractCherryPicks self.message = [] ∧ ∃ patchId ∈ self.patchId,
          ∃ row ∈ snapshots.commits, Snapshots.samePatch patchId self.commitSha row = true ∧
            Snapshots.isLater self row = true ∧
              Snapshots.cherryDoc self ("patch-id ".toList ++ patchId) .derived true
                row.commitSha = doc) := by
  unfold Snapshots.cherryDocsOf
  cases trailers : extractCherryPicks self.message with
  | cons trailer rest => simp only [List.mem_map, reduceCtorEq, false_and, or_false]
  | nil =>
    cases patch : self.patchId with
    | none => simp
    | some patchId =>
      have earlier (row : CommitSnapshotRow) :
          row ∈ snapshots.findEarlierCommitsByPatchId patchId self cherryCandidateLimit ↔ _ :=
        mem_select (within.patches patchId self inside)
      simp only [List.mem_map, earlier, Bool.and_eq_true, List.not_mem_nil, false_and,
        exists_false, true_and, false_or, Option.mem_def, Option.some.injEq, exists_eq_left',
        and_assoc]

theorem mem_planCherryPicks (within : Within snapshots) (inside : self ∈ snapshots.commits) :
    doc ∈ snapshots.planCherryPicks self ↔
      doc ∈ snapshots.cherryDocsOf self ∧ doc.target ≠ .commit self.commitSha := by
  refine (mem_firsts_of_inj ?_).trans (List.mem_filter.trans (and_congr_right fun _ => by simp))
  -- an edge is determined by its target
  intro left hl right hr same
  have target : left.target = right.target := congrArg LinkId.target same
  rcases (mem_cherryDocsOf within inside).mp (List.mem_filter.mp hl).1 with
    ⟨trailer, member, rfl⟩ | ⟨none, patchId, has, row, _, _, _, rfl⟩
  · rcases (mem_cherryDocsOf within inside).mp (List.mem_filter.mp hr).1 with
      ⟨trailer', member', rfl⟩ | ⟨none', _⟩
    · rw [firsts_inj member member' (LinkSource.commit.inj target)]
    · rw [none'] at member
      exact absurd member List.not_mem_nil
  · rcases (mem_cherryDocsOf within inside).mp (List.mem_filter.mp hr).1 with
      ⟨trailer', member', _⟩ | ⟨_, patchId', has', row', _, _, _, rfl⟩
    · rw [none] at member'
      exact absurd member' List.not_mem_nil
    · obtain rfl : patchId = patchId' := Option.some.inj (Option.mem_def.mp has ▸ has')
      have key : row.commitSha = row'.commitSha := LinkSource.commit.inj target
      rw [key]

variable {object : Sha → CommitObject} {change : Change} {table : StackTable}

/-- The cherry-picks of a commit that is not looked up do not change. -/
theorem planCherryPicks_change (recorded : Recorded object snapshots) (before : Within snapshots)
    (after : Within (snapshots.change object change))
    (limits : LookupsWithin (snapshots.change object change) table change.source)
    (inside : self ∈ snapshots.commits) (other : change.source ≠ .commit self.commitSha)
    (unseen : .commit self.commitSha ∉
      affectedSources (snapshots.change object change) table change.source) :
    doc ∈ (snapshots.change object change).planCherryPicks self ↔
      doc ∈ snapshots.planCherryPicks self := by
  have inside' : self ∈ (snapshots.change object change).commits :=
    (mem_commits_change other).mpr inside
  rw [mem_planCherryPicks after inside', mem_planCherryPicks before inside,
    mem_cherryDocsOf after inside', mem_cherryDocsOf before inside]
  refine and_congr_left fun _ => or_congr ?_ (and_congr_right fun _ => ?_)
  · -- a trailer that named the changed commit would mention it
    refine exists_congr fun trailer => and_congr_right fun member => ?_
    by_cases is : change.source = .commit trailer.sha
    · exfalso
      cases change with
      | pullRequest row => cases is
      | commit sha withPatchId =>
        obtain rfl : sha = trailer.sha := LinkSource.commit.inj is
        have there : ((snapshots.change object (.commit trailer.sha withPatchId)).findCommitSnapshot
            trailer.sha).isSome = true := by
          cases found : snapshots.findCommitSnapshot trailer.sha with
          | none => rw [findCommit_arrived object withPatchId found]; rfl
          | some row =>
            obtain ⟨row', found', _⟩ := findCommit_known recorded withPatchId found
            rw [found']
            rfl
        obtain ⟨row, found⟩ := Option.isSome_iff_exists.mp there
        refine unseen (seen_of_mentions limits found inside' ?_)
        refine Snapshots.mentions_iff.mpr ⟨fun same => other ?_, ?_⟩
        · exact congrArg LinkSource.commit same.symm
        · exact mentioned_of_extractCherryPicks member
    · rw [findCommit_change is]
  · refine exists_congr fun patchId => and_congr_right fun has => exists_congr fun row => ?_
    by_cases is : change.source = .commit row.commitSha
    · -- the changed commit is no earlier one with the patch, neither before nor after the change
      have absurd_after : row ∈ (snapshots.change object change).commits →
          Snapshots.samePatch patchId self.commitSha row = true →
            Snapshots.isLater self row = true → False := by
        intro stored same later
        cases change with
        | pullRequest changed => cases is
        | commit sha withPatchId =>
          obtain rfl : sha = row.commitSha := LinkSource.commit.inj is
          obtain ⟨patch, apart⟩ := Bool.and_eq_true_iff.mp same
          refine unseen (seen_of_samePatch limits (findCommit_iff.mpr ⟨stored, rfl⟩) inside'
            (of_decide_eq_true patch) ?_ later)
          refine Bool.and_eq_true_iff.mpr ⟨decide_eq_true has, decide_eq_true fun key => ?_⟩
          exact (of_decide_eq_true apart) key.symm
      constructor
      · rintro ⟨stored, same, later, _⟩
        exact (absurd_after stored same later).elim
      · rintro ⟨stored, same, later, _⟩
        exfalso
        cases change with
        | pullRequest changed => cases is
        | commit sha withPatchId =>
          obtain rfl : sha = row.commitSha := LinkSource.commit.inj is
          -- it has the patch and the time that it had
          obtain ⟨row', found, _⟩ := findCommit_known recorded withPatchId
            (findCommit_iff.mpr ⟨stored, rfl⟩)
          obtain ⟨stored', key⟩ := findCommit_iff.mp found
          obtain ⟨patch, apart⟩ := Bool.and_eq_true_iff.mp same
          have kept : row'.patchId = some patchId :=
            recorded.patchId stored stored' key (of_decide_eq_true patch)
          have time : row'.committedAt = row.committedAt := by
            rw [((recorded.after _) row' stored').2.1, (recorded row stored).2.1, key]
          refine unseen (seen_of_samePatch limits found inside' kept ?_ ?_)
          · refine Bool.and_eq_true_iff.mpr ⟨decide_eq_true has, decide_eq_true fun own => ?_⟩
            exact (of_decide_eq_true apart) own.symm
          · rwa [Snapshots.isLater, time, key]
    · rw [mem_commits_change is]

end CherryPicks

/-! ### Stacks -/

section Stacks

variable {object : Sha → CommitObject} {snapshots : Snapshots} {change : Change}
  {table : StackTable} {self parent : PullRequestSnapshotRow}

theorem mem_stackCandidates (within : Within snapshots) :
    parent ∈ snapshots.stackCandidates self ↔
      field self.document.baseBranch ≠ [] ∧ parent ∈ snapshots.pullRequests ∧
        Snapshots.isOpenHead (field self.document.baseBranch) parent = true ∧
          parent.prNumber ≠ self.prNumber := by
  simp only [Snapshots.stackCandidates]
  split
  next unnamed => exact iff_of_false List.not_mem_nil fun holds => holds.1 unnamed
  next named =>
    have looked (row : PullRequestSnapshotRow) : row ∈ snapshots.findOpenPullRequestsByHeadBranch
        (field self.document.baseBranch) stackCandidateLimit ↔ _ :=
      mem_select (within.heads _)
    rw [List.mem_filter, looked, decide_eq_true_eq]
    exact ⟨fun holds => ⟨named, holds.1.1, holds.1.2, holds.2⟩,
      fun holds => ⟨⟨holds.2.1, holds.2.2.1⟩, holds.2.2.2⟩⟩

theorem findPullRequest_known (object : Sha → CommitObject) (snapshots : Snapshots)
    (row : PullRequestSnapshotRow) :
    ((snapshots.change object (.pullRequest row)).findPullRequestSnapshot row.prNumber).isSome =
      true := by
  refine Option.isSome_iff_exists.mpr ?_
  cases found : snapshots.findPullRequestSnapshot row.prNumber with
  | none =>
    refine ⟨row, findPullRequest_iff.mpr ⟨mem_upsert.mpr (.inr (.inr ⟨?_, rfl⟩)), rfl⟩⟩
    intro stored inside same
    rw [findPullRequest_iff.mpr ⟨inside, same⟩] at found
    cases found
  | some stored =>
    obtain ⟨inside, same⟩ := findPullRequest_iff.mp found
    refine ⟨Snapshots.replacePullRequest stored row, findPullRequest_iff.mpr
      ⟨mem_upsert.mpr (.inr (.inl ⟨stored, inside, same, rfl⟩)), ?_⟩⟩
    unfold Snapshots.replacePullRequest
    split
    next => rfl
    next => exact same

/-- The walks from the parents of the pull request come to the same, before and after. The changed
pull request itself is left aside. -/
def WalksTheSame (object : Sha → CommitObject) (snapshots : Snapshots) (change : Change)
    (self : PullRequestSnapshotRow) : Prop :=
  ∀ parent ∈ snapshots.stackCandidates self, change.source ≠ .pullRequest parent.prNumber →
    (snapshots.change object change).walkChain parent self.prNumber =
      snapshots.walkChain parent self.prNumber

/-- The stacks of a pull request that is not looked up change by the walks only. -/
theorem planStacks_change (before : Within snapshots)
    (after : Within (snapshots.change object change))
    (limits : LookupsWithin (snapshots.change object change) table change.source)
    (inside : self ∈ snapshots.pullRequests) (other : change.source ≠ .pullRequest self.prNumber)
    (unseen : .pullRequest self.prNumber ∉
      affectedSources (snapshots.change object change) table change.source)
    (rows : ∀ one ∈ (snapshots.planStacks self).desired, ∃ stack ∈ table.rows,
      stack.childPrNumber = self.prNumber ∧ stack.parentPrNumber = one.parentPrNumber)
    (walks : WalksTheSame object snapshots change self) (one : StackDesired) :
    one ∈ ((snapshots.change object change).planStacks self).desired ↔
      one ∈ (snapshots.planStacks self).desired := by
  have inside' : self ∈ (snapshots.change object change).pullRequests :=
    (mem_pullRequests_change other).mpr inside
  constructor
  · intro wanted
    obtain ⟨parent, candidate, ok, rfl⟩ := mem_desired.mp wanted
    obtain ⟨named, there, isHead, apart⟩ := (mem_stackCandidates after).mp candidate
    by_cases is : change.source = .pullRequest parent.prNumber
    · -- as a parent the changed pull request has looked up this one
      exfalso
      rw [is] at limits unseen
      have head : parent.document.headBranch = some (field self.document.baseBranch) :=
        of_decide_eq_true (Bool.and_eq_true_iff.mp isHead).1
      have branch : field parent.document.headBranch = field self.document.baseBranch := by
        rw [head]
        rfl
      refine unseen (seen_of_base limits (findPullRequest_iff.mpr ⟨there, rfl⟩) inside'
        apart.symm (branch ▸ named) ?_)
      rw [branch]
      cases base : self.document.baseBranch with
      | none => exact absurd (by rw [base]; rfl) named
      | some text => rfl
    · have known := (mem_stackCandidates before).mpr
        ⟨named, (mem_pullRequests_change is).mp there, isHead, apart⟩
      exact mem_desired.mpr ⟨parent, known, (walks parent known is).symm.trans ok, rfl⟩
  · intro wanted
    obtain ⟨stack, stored, child, stacked⟩ := rows one wanted
    obtain ⟨parent, candidate, ok, rfl⟩ := mem_desired.mp wanted
    obtain ⟨named, there, isHead, apart⟩ := (mem_stackCandidates before).mp candidate
    by_cases is : change.source = .pullRequest parent.prNumber
    · -- the row remembers that this one has been stacked on the changed pull request
      exfalso
      cases change with
      | commit sha withPatchId => cases is
      | pullRequest row =>
        obtain ⟨row', found⟩ := Option.isSome_iff_exists.mp
          (findPullRequest_known object snapshots row)
        have parented : stack.parentPrNumber = row.prNumber :=
          stacked.trans (LinkSource.pullRequest.inj is).symm
        have seen := seen_of_row limits found stored parented fun own =>
          apart (by rw [← child, own, LinkSource.pullRequest.inj is])
        rw [child] at seen
        exact unseen seen
    · refine mem_desired.mpr ⟨parent, ?_, (walks parent candidate is).trans ok, rfl⟩
      exact (mem_stackCandidates after).mpr
        ⟨named, (mem_pullRequests_change is).mpr there, isHead, apart⟩

-- The walk from a parent finds no cycle exactly when there is an edge to it that is not detached.
theorem walk_ok_iff (child : Nat) (existing : List StackRow)
    (candidate : parent ∈ snapshots.stackCandidates self) :
    snapshots.walkChain parent self.prNumber = .ok ↔
      ∃ doc, (∃ row ∈ mergeStackRows child existing (snapshots.planStacks self).desired,
        stackDoc row = doc) ∧ doc.target = .pullRequest parent.prNumber ∧
          doc.detached = some false := by
  constructor
  · intro ok
    refine ⟨_, ⟨_, mem_mergeStackRows.mpr (.inl ⟨_, mem_desired.mpr ⟨parent, candidate, ok, rfl⟩,
      rfl⟩), rfl⟩, rfl, rfl⟩
  · rintro ⟨_, ⟨row, merged, rfl⟩, target, held⟩
    rcases mem_mergeStackRows.mp merged with ⟨one, wanted, rfl⟩ | ⟨stored, _, _, rfl⟩
    · obtain ⟨parent', candidate', ok, rfl⟩ := mem_desired.mp wanted
      have number : parent'.prNumber = parent.prNumber := LinkSource.pullRequest.inj target
      rwa [keyed_stackCandidates.eq candidate' candidate number] at ok
    · cases held

/-- Walks that come to something else give other edges. -/
theorem WalksTheSame.of_stackDocs (before : Within snapshots)
    (after : Within (snapshots.change object change)) {child : Nat} {existing : List StackRow}
    (same : ∀ doc, (∃ row ∈ mergeStackRows child existing
        ((snapshots.change object change).planStacks self).desired, stackDoc row = doc) ↔
      ∃ row ∈ mergeStackRows child existing (snapshots.planStacks self).desired,
        stackDoc row = doc) : WalksTheSame object snapshots change self := by
  intro parent candidate other
  obtain ⟨named, there, isHead, apart⟩ := (mem_stackCandidates before).mp candidate
  have candidate' : parent ∈ (snapshots.change object change).stackCandidates self :=
    (mem_stackCandidates after).mpr ⟨named, (mem_pullRequests_change other).mpr there, isHead, apart⟩
  have alike : (snapshots.change object change).walkChain parent self.prNumber = .ok ↔
      snapshots.walkChain parent self.prNumber = .ok := by
    rw [walk_ok_iff child existing candidate', walk_ok_iff child existing candidate]
    exact exists_congr fun doc => and_congr_left fun _ => same doc
  cases now : (snapshots.change object change).walkChain parent self.prNumber <;>
    cases was : snapshots.walkChain parent self.prNumber <;> simp_all

end Stacks

end PrSearch.Relation
