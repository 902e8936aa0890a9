import Mathlib.Data.Int.Order.Basic
import Mathlib.Data.List.Dedup
import PrSearch.Release.Chains

/-! # Which releases contain a target

A target is judged by a row of the sequence: by one in the current epoch of a tracked branch where
there is one. The releases that contain it stand on the same chain, at its number or after it. A
commit that has no row is judged by the pull requests that contain it.
-/
namespace PrSearch.Release

open Query (Text)

structure ContainmentReleaseItem where
  tagName : Text
  releasedAt : Text
  baseBranch : Text
  mergeSeq : Nat
  source : ReleaseSource
  deriving DecidableEq, Repr

inductive ContainmentReason
  | releaseNotIndexed
  | targetNotSequenced
  deriving DecidableEq, Repr

/-- `ContainmentResult` of kind `ok` -/
structure Containment where
  mergeCommitSha : Option Text
  mergeSeq : Option Nat
  baseBranch : Option Text
  pullRequestNumber : Option Int
  releases : List ContainmentReleaseItem
  unreleased : Bool
  pendingPullRequestCount : Nat
  reason : Option ContainmentReason
  deriving DecidableEq, Repr

inductive ContainmentResult
  | ok (containment : Containment)
  | notFound (message : Text)
  deriving DecidableEq, Repr

/-- The place in the sequence that a target is judged by. -/
structure TargetPoint where
  baseBranch : Text
  seqEpoch : Nat
  mergeSeq : Nat
  commitSha : Text
  pullRequestNumber : Option Int
  deriving DecidableEq, Repr

/-- `MAX_LINKED_CANDIDATES` -/
def maxLinkedCandidates : Nat := 8

def toReleaseItem (row : ReleaseRow) : ContainmentReleaseItem where
  tagName := row.tagName
  releasedAt := row.releasedAt
  baseBranch := row.baseBranch.getD []
  mergeSeq := row.mergeSeq.getD 0
  source := row.source

/-! ### The judgement -/

section

variable (collation : Collation) (db : Database) (sequenceBranches : List Text)

/-- The answer of a judgement, before anything is known of the releases. -/
def TargetPoint.judged (point : TargetPoint) : Containment where
  mergeCommitSha := some point.commitSha
  mergeSeq := some point.mergeSeq
  baseBranch := some point.baseBranch
  pullRequestNumber := point.pullRequestNumber
  releases := []
  unreleased := false
  pendingPullRequestCount := 0
  reason := none

def containmentOf (point : TargetPoint) : Containment :=
  match db.findSequenceSpace point.baseBranch with
  | none => { point.judged with mergeSeq := none, reason := some .targetNotSequenced }
  | some space =>
      if space.epoch ≠ point.seqEpoch then
        { point.judged with mergeSeq := none, reason := some .targetNotSequenced }
      else
        match db.findContainingReleases collation point.baseBranch point.seqEpoch point.mergeSeq with
        | first :: more => { point.judged with releases := (first :: more).map toReleaseItem }
        | [] =>
            if ¬ db.hasAnyRelease then { point.judged with reason := some .releaseNotIndexed }
            else
              { point.judged with
                unreleased := true
                pendingPullRequestCount := db.countPullRequestsAbove point.baseBranch
                  point.seqEpoch
                  ((db.findLatestReleaseSeq point.baseBranch point.seqEpoch).getD 0) }

/-- The row to judge by: a single one as it is, else the first in a current epoch, in the order in
which the branches are registered. -/
def pickJudgmentRow (rows : List SequenceRow) : Option SequenceRow :=
  if rows.length ≤ 1 then rows.head?
  else
    (sequenceBranches.findSome? fun branch =>
      (db.findSequenceSpace branch).bind fun space =>
        rows.find? fun row => row.branch = branch ∧ row.epoch = space.epoch).or rows.head?

def unsequenced (commitSha : Option Text) (pullRequestNumber : Option Int) : Containment where
  mergeCommitSha := commitSha
  mergeSeq := none
  baseBranch := none
  pullRequestNumber := pullRequestNumber
  releases := []
  unreleased := false
  pendingPullRequestCount := 0
  reason := some .targetNotSequenced

def containmentForPullRequest (prNumber : Int) : Containment :=
  match pickJudgmentRow db sequenceBranches (db.findByPullRequest prNumber) with
  | none => unsequenced none (some prNumber)
  | some row => containmentOf collation db
      ⟨row.branch, row.epoch, row.mergeSeq, row.commitSha, some prNumber⟩

/-- What the loop over the candidates carries. -/
structure Candidacy where
  best : Option (Containment × Int)
  firstFailure : Option Containment
  deriving DecidableEq, Repr

/-- One more candidate: the smallest number so far is kept. -/
def Candidacy.consider (sofar : Candidacy) (candidate : Int) : Candidacy :=
  let result := containmentForPullRequest collation db sequenceBranches candidate
  match result.mergeSeq with
  | none => { sofar with firstFailure := sofar.firstFailure.or (some result) }
  | some mergeSeq =>
      if sofar.best.all fun best => best.1.mergeSeq.all (mergeSeq < ·) then
        { sofar with best := some (result, candidate) }
      else sofar

/-- The numbers of the commit's document, each once and in order, up to the limit. -/
def linkedCandidates (pullRequestNumbers : List Int) : List Int :=
  (pullRequestNumbers.dedup.insertionSort (· ≤ ·)).take maxLinkedCandidates

/-- A commit that has no row, judged by the pull requests of its document. -/
def containmentOfLinked (sha : Text) (candidates : List Int) : Containment :=
  match candidates with
  | [] => unsequenced (some sha) none
  | first :: _ =>
      let considered := candidates.foldl (Candidacy.consider collation db sequenceBranches) ⟨none, none⟩
      match considered.best with
      | none => considered.firstFailure.getD (unsequenced (some sha) (some first))
      | some (result, prNumber) => { result with pullRequestNumber := some prNumber }

/-- `commitDocument` is the document of a commit as far as the reader may see it. -/
def containmentForCommit (commitDocument : Text → Option (List Int)) (commitSha : Text) :
    ContainmentResult :=
  let sha := commitSha.map Char.toLower
  match pickJudgmentRow db sequenceBranches (db.findByCommitSha sha) with
  | some row => .ok (containmentOf collation db
      ⟨row.branch, row.epoch, row.mergeSeq, sha, row.pullRequestNumber⟩)
  | none =>
      match commitDocument sha with
      | none => .notFound ("알 수 없는 커밋이다: ".toList ++ sha.take 12)
      | some pullRequestNumbers => .ok (containmentOfLinked collation db sequenceBranches sha
          (linkedCandidates pullRequestNumbers))

end

/-! ### Rows of a current epoch -/

/-- The row stands in the current epoch of its branch. -/
def SequenceRow.InEpoch (db : Database) (row : SequenceRow) : Prop :=
  row ∈ db.sequence ∧ ∃ space ∈ db.spaces.rows, space.branch = row.branch ∧ space.epoch = row.epoch

/-- The row stands in the current epoch of a tracked branch. -/
def SequenceRow.Current (db : Database) (sequenceBranches : List Text) (row : SequenceRow) : Prop :=
  row.InEpoch db ∧ row.branch ∈ sequenceBranches

instance (db : Database) (row : SequenceRow) : Decidable (row.InEpoch db) :=
  inferInstanceAs (Decidable (_ ∧ _))

instance (db : Database) (sequenceBranches : List Text) (row : SequenceRow) :
    Decidable (row.Current db sequenceBranches) :=
  inferInstanceAs (Decidable (_ ∧ _))

/-- The answer is the one of this row: its releases are those on the chain from the row on, and it
is unreleased when there is none though there are releases. -/
structure JudgedBy (db : Database) (row : SequenceRow) (answer : Containment) : Prop where
  mergeSeq : answer.mergeSeq = some row.mergeSeq
  baseBranch : answer.baseBranch = some row.branch
  reason : answer.reason ≠ some .targetNotSequenced
  releases : ∀ item, item ∈ answer.releases ↔ ∃ release ∈ db.releases.rows, ∃ mergeSeq,
    db.seqOf row.branch row.epoch release.commitSha = some mergeSeq ∧ row.mergeSeq ≤ mergeSeq ∧
      item = toReleaseItem (release.placed row.branch row.epoch mergeSeq)
  unreleased : answer.unreleased = true ↔ answer.releases = [] ∧ db.releases.rows ≠ []

variable {row : SequenceRow} {prNumber : Int}

variable {rows : List SequenceRow} {commitSha : Text} {mergeSeq : Nat} {seen : List Int}
  {sofar : Candidacy}

section

variable {collation : Collation} {db : Database} {sequenceBranches : List Text}

theorem SequenceRow.InEpoch.space (current : row.InEpoch db) :
    ∃ space, db.findSequenceSpace row.branch = some space ∧ space.epoch = row.epoch := by
  obtain ⟨-, space, member, branch, epoch⟩ := current
  exact ⟨space, findSequenceSpace_eq_some.mpr ⟨member, branch⟩, epoch⟩

variable (collation) in
/-- A row of a current epoch judges its target. -/
theorem containmentOf_judged (current : row.InEpoch db) (commitSha : Text)
    (pullRequestNumber : Option Int) :
    JudgedBy db row (containmentOf collation db
      ⟨row.branch, row.epoch, row.mergeSeq, commitSha, pullRequestNumber⟩) := by
  obtain ⟨space, found, epoch⟩ := current.space
  have containing : ∀ release, release ∈ db.findContainingReleases collation row.branch row.epoch
      row.mergeSeq ↔ _ := fun release => mem_findContainingReleases
  unfold containmentOf
  simp only [found, epoch, ne_eq, not_true_eq_false, if_false]
  split
  next first more listed =>
    refine ⟨rfl, rfl, by simp [TargetPoint.judged], ?_, by simp [TargetPoint.judged]⟩
    intro item
    rw [List.mem_map]
    constructor
    · rintro ⟨release, member, rfl⟩
      rw [← listed] at member
      obtain ⟨stored, inside, at', seq, above, rfl⟩ := (containing release).mp member
      exact ⟨stored, inside, at', seq, above, rfl⟩
    · rintro ⟨stored, inside, at', seq, above, rfl⟩
      refine ⟨_, ?_, rfl⟩
      rw [← listed]
      exact (containing _).mpr ⟨stored, inside, at', seq, above, rfl⟩
  next listed =>
    have none_above : ∀ item, item ∈ ([] : List ContainmentReleaseItem) ↔
        ∃ release ∈ db.releases.rows, ∃ mergeSeq,
          db.seqOf row.branch row.epoch release.commitSha = some mergeSeq ∧
            row.mergeSeq ≤ mergeSeq ∧
              item = toReleaseItem (release.placed row.branch row.epoch mergeSeq) := by
      intro item
      refine ⟨nofun, ?_⟩
      rintro ⟨stored, inside, at', seq, above, -⟩
      have member := (containing _).mpr ⟨stored, inside, at', seq, above, rfl⟩
      rw [listed] at member
      cases member
    split
    next empty =>
      refine ⟨rfl, rfl, by simp, none_above, ?_⟩
      simpa [TargetPoint.judged, Database.hasAnyRelease] using empty
    next some_release =>
      refine ⟨rfl, rfl, by simp [TargetPoint.judged], none_above, ?_⟩
      simpa [TargetPoint.judged, Database.hasAnyRelease] using some_release

/-- Where one of the rows is current, a current one is picked. -/
theorem pickJudgmentRow_current (stored : ∀ row ∈ rows, row ∈ db.sequence) (member : row ∈ rows)
    (current : row.Current db sequenceBranches) :
    ∃ picked ∈ rows, picked.Current db sequenceBranches ∧
      pickJudgmentRow db sequenceBranches rows = some picked := by
  unfold pickJudgmentRow
  split
  next single =>
    -- the only row is the current one
    match rows, single with
    | [only], _ =>
      rw [List.mem_singleton] at member
      subst member
      exact ⟨row, List.mem_singleton_self row, current, rfl⟩
  next =>
    obtain ⟨space, found, epoch⟩ := current.1.space
    cases first : sequenceBranches.findSome? fun branch =>
        (db.findSequenceSpace branch).bind fun space =>
          rows.find? fun row => row.branch = branch ∧ row.epoch = space.epoch with
    | none =>
      have missing := List.findSome?_eq_none_iff.mp first row.branch current.2
      rw [found, Option.bind_some, List.find?_eq_none] at missing
      have apart := missing row member
      simp [epoch] at apart
    | some picked =>
      obtain ⟨branch, tracked, here⟩ := List.exists_of_findSome?_eq_some first
      obtain ⟨space', found', picks⟩ := Option.bind_eq_some_iff.mp here
      have inside := List.mem_of_find?_eq_some picks
      obtain ⟨rfl, epoch'⟩ : picked.branch = branch ∧ picked.epoch = space'.epoch := by
        simpa using List.find?_some picks
      obtain ⟨known, same⟩ := findSequenceSpace_eq_some.mp found'
      exact ⟨picked, inside, ⟨⟨stored picked inside, space', known, same, epoch'.symm⟩, tracked⟩, rfl⟩

theorem mem_findByPullRequest :
    row ∈ db.findByPullRequest prNumber ↔
      row ∈ db.sequence ∧ row.pullRequestNumber = some prNumber := by
  simp [Database.findByPullRequest]

theorem mem_findByCommitSha :
    row ∈ db.findByCommitSha commitSha ↔ row ∈ db.sequence ∧ row.commitSha = commitSha := by
  simp [Database.findByCommitSha]

/-- The row that is picked is one of the rows. -/
theorem pickJudgmentRow_mem {picked : SequenceRow}
    (picks : pickJudgmentRow db sequenceBranches rows = some picked) : picked ∈ rows := by
  unfold pickJudgmentRow at picks
  split at picks
  · exact List.mem_of_head? picks
  · rcases Option.or_eq_some_iff.mp picks with first | ⟨-, head⟩
    · obtain ⟨branch, -, here⟩ := List.exists_of_findSome?_eq_some first
      obtain ⟨space, -, found⟩ := Option.bind_eq_some_iff.mp here
      exact List.mem_of_find?_eq_some found
    · exact List.mem_of_head? head

/-- Only a row of a current epoch gives a number. -/
theorem inEpoch_of_containmentOf (stored : row ∈ db.sequence) {pullRequestNumber : Option Int}
    (numbered : (containmentOf collation db
      ⟨row.branch, row.epoch, row.mergeSeq, commitSha, pullRequestNumber⟩).mergeSeq =
        some mergeSeq) : row.InEpoch db := by
  unfold containmentOf at numbered
  dsimp only at numbered
  cases found : db.findSequenceSpace row.branch with
  | none =>
    rw [found] at numbered
    cases numbered
  | some space =>
    rw [found] at numbered
    dsimp only at numbered
    split at numbered
    · cases numbered
    next same =>
      obtain ⟨member, branch⟩ := findSequenceSpace_eq_some.mp found
      exact ⟨stored, space, member, branch, not_not.mp same⟩

/-! ### Pull requests -/

variable (collation) in
/-- A pull request that has a row in a current epoch of a tracked branch is judged by such a row. -/
theorem containmentForPullRequest_judged (current : row.Current db sequenceBranches)
    (own : row.pullRequestNumber = some prNumber) :
    ∃ judge : SequenceRow, judge.Current db sequenceBranches ∧
      judge.pullRequestNumber = some prNumber ∧
      JudgedBy db judge (containmentForPullRequest collation db sequenceBranches prNumber) := by
  obtain ⟨judge, member, here, picks⟩ := pickJudgmentRow_current
    (fun row inside => (mem_findByPullRequest.mp inside).1)
    (mem_findByPullRequest.mpr ⟨current.1.1, own⟩) current
  refine ⟨judge, here, (mem_findByPullRequest.mp member).2, ?_⟩
  unfold containmentForPullRequest
  rw [picks]
  exact containmentOf_judged collation here.1 _ _

/-- A number of an answer is that of a row in a current epoch. -/
theorem judged_of_mergeSeq
    (numbered : (containmentForPullRequest collation db sequenceBranches prNumber).mergeSeq =
      some mergeSeq) :
    ∃ judge : SequenceRow, judge.InEpoch db ∧ judge.pullRequestNumber = some prNumber ∧
      judge.mergeSeq = mergeSeq ∧
      JudgedBy db judge (containmentForPullRequest collation db sequenceBranches prNumber) := by
  unfold containmentForPullRequest at numbered ⊢
  cases picks : pickJudgmentRow db sequenceBranches (db.findByPullRequest prNumber) with
  | none =>
    rw [picks] at numbered
    cases numbered
  | some judge =>
    rw [picks] at numbered
    obtain ⟨stored, own⟩ := mem_findByPullRequest.mp (pickJudgmentRow_mem picks)
    have here := inEpoch_of_containmentOf stored numbered
    have judged := containmentOf_judged collation here judge.commitSha (some prNumber)
    exact ⟨judge, here, own, Option.some.inj (judged.mergeSeq.symm.trans numbered), judged⟩

/-! ### The candidates of a commit -/

/-- The best of the candidates that were considered has the smallest number of them. -/
structure Candidacy.Best (collation : Collation) (db : Database) (sequenceBranches : List Text)
    (seen : List Int) (sofar : Candidacy) : Prop where
  none : sofar.best = none → ∀ candidate ∈ seen,
    (containmentForPullRequest collation db sequenceBranches candidate).mergeSeq = none
  some : ∀ result candidate, sofar.best = some (result, candidate) → candidate ∈ seen ∧
    result = containmentForPullRequest collation db sequenceBranches candidate ∧
    ∃ mergeSeq, result.mergeSeq = some mergeSeq ∧ ∀ other ∈ seen, ∀ mergeSeq',
      (containmentForPullRequest collation db sequenceBranches other).mergeSeq = some mergeSeq' →
        mergeSeq ≤ mergeSeq'

theorem Candidacy.Best.consider (best : sofar.Best collation db sequenceBranches seen)
    (candidate : Int) :
    (sofar.consider collation db sequenceBranches candidate).Best collation db sequenceBranches
      (seen ++ [candidate]) := by
  unfold Candidacy.consider
  dsimp only
  cases answer : (containmentForPullRequest collation db sequenceBranches candidate).mergeSeq with
  | none =>
    refine ⟨?_, ?_⟩
    · intro unset other member
      rcases List.mem_append.mp member with before | last
      · exact best.none unset other before
      · rw [List.mem_singleton.mp last, answer]
    · intro result chosen held
      obtain ⟨inside, same, mergeSeq, numbered, least⟩ := best.some result chosen held
      refine ⟨List.mem_append_left _ inside, same, mergeSeq, numbered, ?_⟩
      intro other member mergeSeq' its
      rcases List.mem_append.mp member with before | last
      · exact least other before mergeSeq' its
      · rw [List.mem_singleton.mp last, answer] at its
        cases its
  | some mergeSeq =>
    dsimp only
    split
    next smaller =>
      refine ⟨nofun, ?_⟩
      intro result chosen held
      cases held
      refine ⟨by simp, rfl, mergeSeq, answer, ?_⟩
      intro other member mergeSeq' its
      rcases List.mem_append.mp member with before | last
      · -- the one that was best so far is not smaller
        cases kept : sofar.best with
        | none =>
          rw [best.none kept other before] at its
          cases its
        | some pair =>
          obtain ⟨result, chosen⟩ := pair
          obtain ⟨-, -, mergeSeq₀, numbered, least⟩ := best.some result chosen kept
          rw [kept] at smaller
          simp only [Option.all_some, numbered, decide_eq_true_eq] at smaller
          exact smaller.le.trans (least other before mergeSeq' its)
      · rw [List.mem_singleton.mp last, answer] at its
        exact (Option.some.inj its).le
    next notSmaller =>
      refine ⟨?_, ?_⟩
      · intro unset
        rw [unset] at notSmaller
        exact absurd rfl notSmaller
      · intro result chosen held
        obtain ⟨inside, same, mergeSeq₀, numbered, least⟩ := best.some result chosen held
        refine ⟨List.mem_append_left _ inside, same, mergeSeq₀, numbered, ?_⟩
        intro other member mergeSeq' its
        rcases List.mem_append.mp member with before | last
        · exact least other before mergeSeq' its
        · rw [held] at notSmaller
          simp only [Option.all_some, numbered, decide_eq_true_eq, not_lt] at notSmaller
          rw [List.mem_singleton.mp last, answer] at its
          exact notSmaller.trans (Option.some.inj its).le

theorem Candidacy.Best.foldl (best : sofar.Best collation db sequenceBranches seen)
    (candidates : List Int) :
    (candidates.foldl (Candidacy.consider collation db sequenceBranches) sofar).Best collation db
      sequenceBranches (seen ++ candidates) := by
  induction candidates generalizing seen sofar with
  | nil => simpa using best
  | cons candidate rest ih =>
    have later := ih (best.consider candidate)
    rwa [List.append_assoc, List.singleton_append] at later

/-- A commit without a row is judged by the row with the smallest number among its candidates'. -/
theorem containmentOfLinked_judged (sha : Text) {candidates : List Int} {prNumber mergeSeq}
    (member : prNumber ∈ candidates)
    (numbered : (containmentForPullRequest collation db sequenceBranches prNumber).mergeSeq =
      some mergeSeq) :
    ∃ judge : SequenceRow, judge.InEpoch db ∧
      (∃ own ∈ candidates, judge.pullRequestNumber = some own) ∧
      JudgedBy db judge (containmentOfLinked collation db sequenceBranches sha candidates) ∧
      ∀ other ∈ candidates, ∀ mergeSeq',
        (containmentForPullRequest collation db sequenceBranches other).mergeSeq = some mergeSeq' →
          judge.mergeSeq ≤ mergeSeq' := by
  have start : Candidacy.Best collation db sequenceBranches [] ⟨none, none⟩ :=
    ⟨fun _ => List.forall_mem_nil _, nofun⟩
  have best := start.foldl candidates
  rw [List.nil_append] at best
  unfold containmentOfLinked
  cases candidates with
  | nil => cases member
  | cons first rest =>
    dsimp only
    cases chosen : ((first :: rest).foldl (Candidacy.consider collation db sequenceBranches)
        ⟨none, none⟩).best with
    | none =>
      rw [best.none chosen prNumber member] at numbered
      cases numbered
    | some pair =>
      obtain ⟨result, own⟩ := pair
      obtain ⟨inside, rfl, least, its, smallest⟩ := best.some result own chosen
      obtain ⟨judge, here, named, same, judged⟩ := judged_of_mergeSeq its
      refine ⟨judge, here, ⟨own, inside, named⟩, ?_, ?_⟩
      · exact ⟨judged.mergeSeq, judged.baseBranch, judged.reason, judged.releases,
          judged.unreleased⟩
      · intro other member mergeSeq' its
        rw [same]
        exact smallest other member mergeSeq' its

theorem mem_linkedCandidates {pullRequestNumbers : List Int}
    (few : pullRequestNumbers.dedup.length ≤ maxLinkedCandidates) :
    prNumber ∈ linkedCandidates pullRequestNumbers ↔ prNumber ∈ pullRequestNumbers := by
  unfold linkedCandidates
  rw [List.take_of_length_le (by rwa [List.length_insertionSort]), List.mem_insertionSort,
    List.mem_dedup]

/-! ### Answers come from the current chain -/

end

/-- A chain that was numbered again: the commit `a` of a pull request became `b`. -/
def renumbered : Database where
  spaces := ⟨[⟨"main".toList, 2⟩], by decide⟩
  sequence := [⟨"main".toList, 1, 5, ['a'], some 7⟩, ⟨"main".toList, 2, 5, ['b'], some 7⟩]
  releases := ⟨[], by decide⟩
  distinct := by decide

/-- One pull request on a tracked branch, and another on a branch that is not tracked any more. -/
def untrackedBefore : Database where
  spaces := ⟨[⟨"main".toList, 1⟩, ⟨"side".toList, 1⟩], by decide⟩
  sequence := [⟨"main".toList, 1, 3, ['m'], some 7⟩, ⟨"side".toList, 1, 1, ['s'], some 8⟩]
  releases := ⟨[], by decide⟩
  distinct := by decide

end PrSearch.Release
