import Mathlib.Algebra.BigOperators.Group.List.Basic
import Mathlib.Algebra.Ring.Nat
import Mathlib.Data.List.Dedup
import PrSearch.Release.Chains

/-! # The timeline of the releases

The timeline gives each release to one branch: the one that its row names if the commit is on its
chain, else the first one whose chain has the commit. Every other question about releases is asked for
each branch. The two agree on a branch exactly when the timeline gives it all the releases that stand
on its chain.
-/
namespace PrSearch.Release

open Query (Text)
open Rows

/-- A row of the timeline of a repository. -/
structure TimelineRow where
  tagName : Text
  commitSha : Text
  releasedAt : Text
  source : ReleaseSource
  baseBranch : Option Text
  seqEpoch : Option Nat
  mergeSeq : Option Nat
  previousTagName : Option Text
  pullRequestCountSincePrevious : Option Nat
  deriving DecidableEq, Repr

/-- `lag(…) OVER`: each row with the one before it. -/
def lag {ρ : Type*} (before : Option ρ) : List ρ → List (ρ × Option ρ)
  | [] => []
  | row :: rest => (row, before) :: lag (some row) rest

/-- `ORDER BY merge_seq`, where no number comes last. -/
def bySeq (a b : ReleaseRow) : Prop := b.mergeSeq.all fun later => a.mergeSeq.any (· ≤ later)

instance : DecidableRel bySeq := fun _ _ => inferInstanceAs (Decidable (_ = true))

namespace Database

variable (collation : Collation) (db : Database)

/-- The stored branch first, then the branches by name. -/
def placeBefore (stored : Option Text) (a b : Space × Nat) : Prop :=
  stored = some a.1.branch ∧ stored ≠ some b.1.branch ∨
    (stored = some a.1.branch ↔ stored = some b.1.branch) ∧
      collation.le a.1.branch b.1.branch = true

instance (stored : Option Text) : DecidableRel (placeBefore collation stored) :=
  fun _ _ => inferInstanceAs (Decidable (_ ∨ _))

/-- The places of a commit on the current chains. -/
def places (commitSha : Text) : List (Space × Nat) :=
  db.spaces.rows.filterMap fun space =>
    (db.seqOf space.branch space.epoch commitSha).map fun mergeSeq => (space, mergeSeq)

def placeOf (release : ReleaseRow) : Option (Space × Nat) :=
  ((db.places release.commitSha).insertionSort (placeBefore collation release.baseBranch)).head?

/-- A release with the one place that the timeline gives it. -/
def resolve (release : ReleaseRow) : ReleaseRow :=
  { release with
    baseBranch := ((db.placeOf collation release).map (·.1.branch)).or release.baseBranch
    seqEpoch := (db.placeOf collation release).map (·.1.epoch)
    mergeSeq := (db.placeOf collation release).map (·.2) }

/-- `windowed`: within each branch, the row before by number. -/
def windowed (rows : List ReleaseRow) : List (ReleaseRow × Option ReleaseRow) :=
  (rows.map ReleaseRow.baseBranch).dedup.flatMap fun branch =>
    lag none ((rows.filter fun row => row.baseBranch = branch).insertionSort bySeq)

/-- `ORDER BY released_at DESC, tag_name ASC` -/
def newestFirst (a b : ReleaseRow × Option ReleaseRow) : Prop :=
  collation.instant b.1.releasedAt < collation.instant a.1.releasedAt ∨
    collation.instant b.1.releasedAt = collation.instant a.1.releasedAt ∧
      collation.le a.1.tagName b.1.tagName = true

instance : DecidableRel (newestFirst collation) := fun _ _ => inferInstanceAs (Decidable (_ ∨ _))

def pullRequestCountSincePrevious (row : ReleaseRow) (previous : Option ReleaseRow) : Option Nat :=
  row.mergeSeq.bind fun mergeSeq =>
    (previous.bind ReleaseRow.mergeSeq).map fun prevSeq =>
      match row.baseBranch, row.seqEpoch with
      | some branch, some epoch =>
          db.countPullRequests branch epoch fun seq => prevSeq < seq ∧ seq ≤ mergeSeq
      | _, _ => 0

def timelineRow (pair : ReleaseRow × Option ReleaseRow) : TimelineRow where
  tagName := pair.1.tagName
  commitSha := pair.1.commitSha
  releasedAt := pair.1.releasedAt
  source := pair.1.source
  baseBranch := pair.1.baseBranch
  seqEpoch := pair.1.seqEpoch
  mergeSeq := pair.1.mergeSeq
  previousTagName :=
    if pair.1.mergeSeq.isNone then none else pair.2.map ReleaseRow.tagName
  pullRequestCountSincePrevious := db.pullRequestCountSincePrevious pair.1 pair.2

def listReleaseTimeline (branch : Option Text) (limit : Nat) : List TimelineRow :=
  let filtered := (db.releases.rows.map (db.resolve collation)).filter fun row =>
    branch.all fun wanted => row.baseBranch = some wanted
  (((windowed filtered).insertionSort (newestFirst collation)).take limit).map db.timelineRow

/-! ### What the other statements say of a branch -/

/-- The releases on the current chain of a branch. -/
def chainOf (branch : Text) : List ReleaseRow :=
  match db.findSequenceSpace branch with
  | none => []
  | some space => db.onChain branch space.epoch

/-- The number of the latest release on the current chain of a branch. -/
def latestSeqOf (branch : Text) : Option Nat :=
  (db.findSequenceSpace branch).bind fun space => db.findLatestReleaseSeq branch space.epoch

/-- Each pull request stands in one row of the epoch. -/
def SingleRows (branch : Text) (epoch : Nat) : Prop :=
  ((db.sequence.filter fun row => row.branch = branch ∧ row.epoch = epoch).filterMap
    SequenceRow.pullRequestNumber).Nodup

end Database

/-- The timeline of a branch says what the other statements say of it. -/
structure TimelineAgrees (db : Database) (branch : Text) (rows : List TimelineRow) : Prop where
  releases : ((rows.filter fun row => row.mergeSeq.isSome).map fun row =>
      (row.tagName, row.commitSha, row.mergeSeq)).Perm
    ((db.chainOf branch).map fun release =>
      (release.tagName, release.commitSha, release.mergeSeq))
  latest : (rows.filterMap TimelineRow.mergeSeq).max? = db.latestSeqOf branch
  previous : ∃ ordered : List ReleaseRow, ordered.Perm (db.chainOf branch) ∧
    ordered.Pairwise bySeq ∧
    ((rows.filter fun row => row.mergeSeq.isSome).map fun row =>
        (row.tagName, row.previousTagName)).Perm
      ((ordered.map ReleaseRow.tagName).zip
        (none :: (ordered.map ReleaseRow.tagName).map some))
  counts : ∀ space, db.findSequenceSpace branch = some space →
    db.SingleRows branch space.epoch →
    ∀ first, (rows.filterMap TimelineRow.mergeSeq).min? = some first →
    ∀ latest, (rows.filterMap TimelineRow.mergeSeq).max? = some latest →
      (rows.map fun row => row.pullRequestCountSincePrevious.getD 0).sum +
          db.countPullRequests branch space.epoch (fun seq => seq ≤ first) =
        db.countPullRequests branch space.epoch fun seq => seq ≤ latest

/-- The release names the branch, or its commit stands on no chain of a branch that it names or that
comes before this one. -/
def OwnedBy (collation : Collation) (db : Database) (branch : Text) (release : ReleaseRow) : Prop :=
  release.baseBranch = some branch ∨
    ∀ other ∈ db.spaces.rows, other.branch ≠ branch →
      (db.seqOf other.branch other.epoch release.commitSha).isSome = true →
      release.baseBranch ≠ some other.branch ∧ collation.le branch other.branch = true

instance (collation : Collation) (db : Database) (branch : Text) (release : ReleaseRow) :
    Decidable (OwnedBy collation db branch release) :=
  inferInstanceAs (Decidable (_ ∨ _))

/-- The releases whose commits stand on the current chain of a branch are its own. -/
def OwnsItsChain (collation : Collation) (db : Database) (branch : Text) : Prop :=
  ∀ release ∈ db.releases.rows, ∀ space ∈ db.spaces.rows, space.branch = branch →
    (db.seqOf branch space.epoch release.commitSha).isSome = true →
      OwnedBy collation db branch release

/-! ### Rows and the rows before them -/

section Lag

variable {ρ : Type*} {before : Option ρ} {rows : List ρ}

@[simp] theorem map_fst_lag : (lag before rows).map Prod.fst = rows := by
  induction rows generalizing before with
  | nil => rfl
  | cons row rest ih => simp [lag, ih]

/-- The rows that are wanted come first: leaving out the others does not change what is before
them. -/
theorem filter_lag {wanted : ρ → Bool}
    (first : rows.Pairwise fun a b => wanted b = true → wanted a = true) :
    (lag before rows).filter (fun pair => wanted pair.1) = lag before (rows.filter wanted) := by
  induction rows generalizing before with
  | nil => rfl
  | cons row rest ih =>
    obtain ⟨later, restFirst⟩ := List.pairwise_cons.mp first
    cases isWanted : wanted row with
    | true => simp [lag, isWanted, ih restFirst]
    | false =>
      have none_later : rest.filter wanted = [] := by
        rw [List.filter_eq_nil_iff]
        intro other member holds
        rw [later other member holds] at isWanted
        cases isWanted
      simp [lag, isWanted, ih restFirst, none_later]

theorem map_lag_zip {κ : Type*} (name : ρ → κ) :
    (lag before rows).map (fun pair => (name pair.1, pair.2.map name)) =
      (rows.map name).zip (before.map name :: (rows.map name).map some) := by
  induction rows generalizing before with
  | nil => rfl
  | cons row rest ih => simp [lag, ih]

end Lag

/-- The first of a sorted list comes before all. -/
theorem head_insertionSort {ρ : Type*} {before : ρ → ρ → Prop} [DecidableRel before]
    [Std.Total before] [IsTrans ρ before] {rows : List ρ} {first : ρ}
    (head : (rows.insertionSort before).head? = some first) :
    first ∈ rows ∧ ∀ row ∈ rows, before first row := by
  have sorted := List.pairwise_insertionSort before rows
  have same : ∀ row, row ∈ rows.insertionSort before ↔ row ∈ rows :=
    fun row => List.mem_insertionSort before
  cases listed : rows.insertionSort before with
  | nil =>
    rw [listed] at head
    cases head
  | cons row rest =>
    rw [listed] at head sorted same
    cases head
    refine ⟨(same first).mp List.mem_cons_self, fun other member => ?_⟩
    rcases List.mem_cons.mp ((same other).mpr member) with rfl | later
    · rcases Std.Total.total (r := before) other other with here | here <;> exact here
    · exact (List.pairwise_cons.mp sorted).1 other later

theorem head?_insertionSort_eq_none {ρ : Type*} {before : ρ → ρ → Prop} [DecidableRel before]
    {rows : List ρ} (none : (rows.insertionSort before).head? = none) : rows = [] := by
  rw [List.head?_eq_none_iff] at none
  have lengths := List.length_insertionSort before rows
  rw [none] at lengths
  exact List.length_eq_zero_iff.mp lengths.symm

variable {space : Space} {mergeSeq limit : Nat} {release : ReleaseRow}

variable {row : ReleaseRow} {epoch lower latest : Nat} {left right : List Nat}

/-! ### The place of a release -/

section

variable {collation : Collation} {db : Database} {branch : Text}

instance (stored : Option Text) : Std.Total (Database.placeBefore collation stored) where
  total a b := by
    unfold Database.placeBefore
    rcases collation.total a.1.branch b.1.branch with before | before <;> tauto

instance (stored : Option Text) : IsTrans (Space × Nat) (Database.placeBefore collation stored) where
  trans a b c := by
    unfold Database.placeBefore
    have names := collation.trans a.1.branch b.1.branch c.1.branch
    tauto

theorem mem_places {commitSha : Text} :
    (space, mergeSeq) ∈ db.places commitSha ↔
      space ∈ db.spaces.rows ∧ db.seqOf space.branch space.epoch commitSha = some mergeSeq := by
  unfold Database.places
  rw [List.mem_filterMap]
  constructor
  · rintro ⟨other, member, found⟩
    obtain ⟨seq, its, same⟩ := Option.map_eq_some_iff.mp found
    cases same
    exact ⟨member, its⟩
  · rintro ⟨member, its⟩
    exact ⟨space, member, by rw [its]; rfl⟩

theorem mem_of_placeOf (place : db.placeOf collation release = some (space, mergeSeq)) :
    space ∈ db.spaces.rows ∧
      db.seqOf space.branch space.epoch release.commitSha = some mergeSeq :=
  mem_places.mp (head_insertionSort place).1

/-- A release that stands on the chain of a branch is given to it exactly when it is its own. -/
theorem placeOf_branch_iff (member : space ∈ db.spaces.rows)
    (its : db.seqOf space.branch space.epoch release.commitSha = some mergeSeq) :
    db.placeOf collation release = some (space, mergeSeq) ↔
      OwnedBy collation db space.branch release := by
  have here : (space, mergeSeq) ∈ db.places release.commitSha := mem_places.mpr ⟨member, its⟩
  constructor
  · intro place
    by_cases stored : release.baseBranch = some space.branch
    · exact Or.inl stored
    · refine Or.inr fun other inside apart found => ?_
      obtain ⟨seq, there⟩ := Option.isSome_iff_exists.mp found
      have before := (head_insertionSort place).2 (other, seq) (mem_places.mpr ⟨inside, there⟩)
      unfold Database.placeBefore at before
      dsimp only at before
      tauto
  · intro owned
    cases place : db.placeOf collation release with
    | none =>
      have empty := head?_insertionSort_eq_none place
      rw [empty] at here
      cases here
    | some first =>
      obtain ⟨other, seq⟩ := first
      obtain ⟨inside, there⟩ := mem_of_placeOf place
      have before := (head_insertionSort place).2 (space, mergeSeq) here
      unfold Database.placeBefore at before
      dsimp only at before
      by_cases same : other.branch = space.branch
      · obtain rfl := db.spaces.keyed.eq inside member same
        rw [its] at there
        cases there
        rfl
      · have kept : some other.branch ≠ some space.branch := fun eq => same (Option.some.inj eq)
        rcases owned with stored | others
        · rw [stored] at before
          have apart : some space.branch ≠ some other.branch := kept.symm
          tauto
        · obtain ⟨notStored, first⟩ := others other inside same (by rw [there]; rfl)
          have equal := collation.antisymm other.branch space.branch
          tauto

/-! ### The rows of one branch -/

instance : Std.Total bySeq where
  total a b := by
    unfold bySeq
    cases a.mergeSeq <;> cases b.mergeSeq <;> simp [Nat.le_total]

instance : IsTrans ReleaseRow bySeq where
  trans a b c := by
    unfold bySeq
    cases a.mergeSeq <;> cases b.mergeSeq <;> cases c.mergeSeq <;> simp
    exact Nat.le_trans

/-- The releases that the timeline gives to a branch. -/
def givenTo (collation : Collation) (db : Database) (branch : Text) : List ReleaseRow :=
  (db.releases.rows.map (db.resolve collation)).filter fun row => row.baseBranch = some branch

/-- Rows of one branch are one window. -/
theorem windowed_single {rows : List ReleaseRow}
    (single : ∀ row ∈ rows, row.baseBranch = some branch) :
    Database.windowed rows = lag none (rows.insertionSort bySeq) := by
  unfold Database.windowed
  cases rows with
  | nil => rfl
  | cons row rest =>
    have branches : ((row :: rest).map ReleaseRow.baseBranch).dedup = [some branch] := by
      rw [List.eq_replicate_of_mem (a := some branch) (l := (row :: rest).map ReleaseRow.baseBranch)
        (by simpa using single), List.replicate_dedup (by simp)]
    rw [branches, List.flatMap_singleton, List.filter_eq_self.mpr (by simpa using single)]

/-- Without a limit, the timeline of a branch has the releases given to it, each with the one before
it by number. -/
theorem listReleaseTimeline_perm (unlimited : db.releases.rows.length ≤ limit) :
    (db.listReleaseTimeline collation (some branch) limit).Perm
      ((lag none ((givenTo collation db branch).insertionSort bySeq)).map db.timelineRow) := by
  have single : ∀ row ∈ givenTo collation db branch, row.baseBranch = some branch :=
    fun row member => of_decide_eq_true (List.mem_filter.mp member).2
  have filtered : ((db.releases.rows.map (db.resolve collation)).filter fun row =>
      (some branch).all fun wanted => row.baseBranch = some wanted) = givenTo collation db branch := by
    simp [givenTo]
  unfold Database.listReleaseTimeline
  dsimp only
  rw [filtered, windowed_single single]
  refine List.Perm.map _ ?_
  rw [List.take_of_length_le]
  · exact List.perm_insertionSort _ _
  · rw [List.length_insertionSort]
    have lengths := congrArg List.length
      (map_fst_lag : (lag none ((givenTo collation db branch).insertionSort bySeq)).map Prod.fst = _)
    rw [List.length_map, List.length_insertionSort] at lengths
    rw [lengths]
    refine (List.length_filter_le _ _).trans ?_
    rwa [List.length_map]

/-- What the timeline gives to a branch stands on its chain or has no number. -/
theorem resolve_eq (member : space ∈ db.spaces.rows) :
    ((db.resolve collation release).baseBranch = some space.branch ∧
        (db.resolve collation release).mergeSeq.isSome = true) ↔
      ∃ mergeSeq, db.seqOf space.branch space.epoch release.commitSha = some mergeSeq ∧
        OwnedBy collation db space.branch release ∧
        db.resolve collation release = release.placed space.branch space.epoch mergeSeq := by
  constructor
  · rintro ⟨named, numbered⟩
    unfold Database.resolve at named numbered ⊢
    cases place : db.placeOf collation release with
    | none =>
      rw [place] at numbered
      cases numbered
    | some found =>
      obtain ⟨other, mergeSeq⟩ := found
      rw [place] at named
      obtain ⟨inside, its⟩ := mem_of_placeOf place
      obtain rfl := db.spaces.keyed.eq inside member (Option.some.inj named)
      exact ⟨mergeSeq, its, (placeOf_branch_iff inside its).mp place, rfl⟩
  · rintro ⟨mergeSeq, its, owned, same⟩
    rw [same]
    exact ⟨rfl, rfl⟩

theorem resolve_placed (member : space ∈ db.spaces.rows)
    (its : db.seqOf space.branch space.epoch release.commitSha = some mergeSeq)
    (owned : OwnedBy collation db space.branch release) :
    db.resolve collation release = release.placed space.branch space.epoch mergeSeq := by
  unfold Database.resolve
  rw [(placeOf_branch_iff member its).mpr owned]
  rfl

theorem mem_givenTo :
    row ∈ givenTo collation db branch ↔
    ∃ release ∈ db.releases.rows, db.resolve collation release = row ∧
      row.baseBranch = some branch := by
  unfold givenTo
  rw [List.mem_filter, List.mem_map, decide_eq_true_eq]
  constructor
  · rintro ⟨⟨release, member, same⟩, named⟩
    exact ⟨release, member, same, named⟩
  · rintro ⟨release, member, same, named⟩
    exact ⟨⟨release, member, same⟩, named⟩

/-- A branch that is given a release with a number has a chain. -/
theorem space_of_numbered (named : (db.resolve collation release).baseBranch = some branch)
    (numbered : (db.resolve collation release).mergeSeq.isSome = true) :
    ∃ space, db.findSequenceSpace branch = some space := by
  unfold Database.resolve at named numbered
  cases place : db.placeOf collation release with
  | none =>
    rw [place] at numbered
    cases numbered
  | some found =>
    rw [place] at named
    obtain ⟨inside, -⟩ := mem_of_placeOf place
    exact ⟨found.1, findSequenceSpace_eq_some.mpr ⟨inside, Option.some.inj named⟩⟩

theorem filter_map_eq_filterMap {ρ σ : Type*} {rows : List ρ} {f : ρ → σ} {wanted : σ → Bool}
    {g : ρ → Option σ} (same : ∀ row ∈ rows, (if wanted (f row) then some (f row) else none) = g row) :
    (rows.map f).filter wanted = rows.filterMap g := by
  induction rows with
  | nil => rfl
  | cons row rest ih =>
    have head := same row List.mem_cons_self
    have later := ih fun other member => same other (List.mem_cons_of_mem _ member)
    rw [List.map_cons, List.filter_cons, List.filterMap_cons, ← head, later]
    split <;> rfl

/-- A branch that owns its chain is given the releases on it. -/
theorem numbered_eq_chainOf (owns : OwnsItsChain collation db branch) :
    (givenTo collation db branch).filter (fun row => row.mergeSeq.isSome) = db.chainOf branch := by
  unfold Database.chainOf
  cases found : db.findSequenceSpace branch with
  | none =>
    rw [List.filter_eq_nil_iff]
    intro row member numbered
    obtain ⟨release, -, rfl, named⟩ := mem_givenTo.mp member
    obtain ⟨space, known⟩ := space_of_numbered named numbered
    rw [found] at known
    cases known
  | some space =>
    obtain ⟨member, rfl⟩ := findSequenceSpace_eq_some.mp found
    unfold givenTo
    rw [List.filter_filter]
    refine filter_map_eq_filterMap fun release inside => ?_
    have given : (db.resolve collation release).baseBranch = _ ∧ _ ↔ _ := resolve_eq member
    cases its : db.seqOf space.branch space.epoch release.commitSha with
    | none =>
      have apart : ¬ ((db.resolve collation release).baseBranch = some space.branch ∧
          (db.resolve collation release).mergeSeq.isSome = true) := by
        rintro both
        obtain ⟨mergeSeq, there, -⟩ := given.mp both
        rw [its] at there
        cases there
      rw [if_neg (by simpa [and_comm] using apart)]
      rfl
    | some mergeSeq =>
      have owned := owns release inside space member rfl (by rw [its]; rfl)
      rw [resolve_placed member its owned, if_pos (by simp [ReleaseRow.placed])]
      rfl

/-! ### Counts -/

/-- Where each pull request stands in one row, the counts of two ranges that meet add up. -/
theorem countPullRequests_add {upper : Nat} (single : db.SingleRows branch epoch)
    (ordered : lower ≤ upper) :
    db.countPullRequests branch epoch (fun seq => lower < seq ∧ seq ≤ upper) +
        db.countPullRequests branch epoch (fun seq => seq ≤ lower) =
      db.countPullRequests branch epoch fun seq => seq ≤ upper := by
  have distinct : ∀ within : Nat → Bool, db.countPullRequests branch epoch within =
      ((db.sequence.filter fun row => row.branch = branch ∧ row.epoch = epoch ∧
        within row.mergeSeq).filterMap SequenceRow.pullRequestNumber).length := by
    intro within
    unfold Database.countPullRequests
    have fewer : (db.sequence.filter fun row => row.branch = branch ∧ row.epoch = epoch ∧
        within row.mergeSeq).Sublist
          (db.sequence.filter fun row => row.branch = branch ∧ row.epoch = epoch) := by
      refine List.monotone_filter_right _ fun row holds => ?_
      simp only [decide_eq_true_eq] at holds ⊢
      exact ⟨holds.1, holds.2.1⟩
    rw [((fewer.filterMap _).nodup single).dedup]
  rw [distinct, distinct, distinct]
  simp only [List.length_filterMap_eq_countP, List.countP_filter]
  clear distinct single
  induction db.sequence with
  | nil => rfl
  | cons row rest ih =>
    simp only [List.countP_cons]
    by_cases here : row.branch = branch ∧ row.epoch = epoch
    · cases row.pullRequestNumber with
      | none => simpa using ih
      | some number =>
        by_cases low : row.mergeSeq ≤ lower
        · have high := low.trans ordered
          simp [here, low, high, not_lt.mpr low] at ih ⊢
          omega
        · by_cases high : row.mergeSeq ≤ upper
          · simp [here, low, high, not_le.mp low] at ih ⊢
            omega
          · simpa [here, low, high] using ih
    · have apart : ∀ within : Prop, ¬ (row.branch = branch ∧ row.epoch = epoch ∧ within) :=
        fun within holds => here ⟨holds.1, holds.2.1⟩
      simpa [apart] using ih

/-- The counts of the releases from one on add up to the pull requests up to the last one. -/
theorem sum_counts_lag (single : db.SingleRows branch epoch) {rows : List ReleaseRow}
    {before : ReleaseRow} (lowest : before.mergeSeq = some lower)
    (sorted : (before :: rows).Pairwise bySeq)
    (placed : ∀ row ∈ rows, row.baseBranch = some branch ∧ row.seqEpoch = some epoch ∧
      row.mergeSeq.isSome = true) (reached : ∃ row ∈ before :: rows, row.mergeSeq = some latest)
    (bound : ∀ row ∈ before :: rows, ∀ seq, row.mergeSeq = some seq → seq ≤ latest) :
    ((lag (some before) rows).map fun pair =>
        (db.pullRequestCountSincePrevious pair.1 pair.2).getD 0).sum +
        db.countPullRequests branch epoch (fun seq => seq ≤ lower) =
      db.countPullRequests branch epoch fun seq => seq ≤ latest := by
  induction rows generalizing before lower with
  | nil =>
    obtain ⟨row, member, its⟩ := reached
    rw [List.mem_singleton.mp member, lowest] at its
    cases its
    simp [lag]
  | cons row rest ih =>
    obtain ⟨first, restSorted⟩ := List.pairwise_cons.mp sorted
    obtain ⟨named, inEpoch, numbered⟩ := placed row List.mem_cons_self
    obtain ⟨seq, its⟩ := Option.isSome_iff_exists.mp numbered
    have ordered : lower ≤ seq := by
      have next := first row List.mem_cons_self
      simpa [bySeq, its, lowest] using next
    have later := ih its restSorted (fun other member => placed other (List.mem_cons_of_mem _ member))
      (by
        obtain ⟨top, member, greatest⟩ := reached
        rcases List.mem_cons.mp member with rfl | member
        · -- the one before is the greatest: so is this one
          rw [lowest] at greatest
          cases greatest
          have least := bound row (by simp) seq its
          exact ⟨row, List.mem_cons_self, by rw [its, le_antisymm least ordered]⟩
        · exact ⟨top, member, greatest⟩)
      (fun other member => bound other (List.mem_cons_of_mem _ member))
    have here := countPullRequests_add single ordered
    simp only [lag, List.map_cons, List.sum_cons, Database.pullRequestCountSincePrevious, its,
      lowest, named, inEpoch, Option.bind_some, Option.map_some, Option.getD_some] at later ⊢
    omega

/-! ### The two agree -/

theorem max?_congr (same : ∀ n, n ∈ left ↔ n ∈ right) : left.max? = right.max? := by
  ext n
  rw [List.max?_eq_some_iff, List.max?_eq_some_iff]
  simp only [same]

theorem min?_congr (same : ∀ n, n ∈ left ↔ n ∈ right) : left.min? = right.min? := by
  ext n
  rw [List.min?_eq_some_iff, List.min?_eq_some_iff]
  simp only [same]

/-- Each row of a chain says where it stands. -/
theorem placed_of_mem_chainOf (found : db.findSequenceSpace branch = some space)
    (member : row ∈ db.chainOf branch) :
    row.baseBranch = some branch ∧ row.seqEpoch = some space.epoch ∧ row.mergeSeq.isSome = true := by
  unfold Database.chainOf at member
  rw [found] at member
  obtain ⟨release, -, mergeSeq, -, rfl⟩ := mem_onChain.mp member
  exact ⟨rfl, rfl, rfl⟩

/-- The latest release has the greatest number on the chain. -/
theorem latestSeqOf_eq_max? :
    db.latestSeqOf branch = ((db.chainOf branch).filterMap ReleaseRow.mergeSeq).max? := by
  unfold Database.latestSeqOf
  cases found : db.findSequenceSpace branch with
  | none => simp [Database.chainOf, found]
  | some space =>
    have placed := fun row (member : row ∈ db.chainOf branch) => placed_of_mem_chainOf found member
    have chain : db.chainOf branch = db.onChain branch space.epoch := by
      unfold Database.chainOf
      rw [found]
    rw [chain] at placed ⊢
    have head : db.findLatestRelease branch space.epoch = ((db.onChain branch space.epoch).insertionSort
        fun a b => b.mergeSeq.getD 0 ≤ a.mergeSeq.getD 0).head? := by
      unfold Database.findLatestRelease select
      rw [List.filter_eq_self.mpr (by simp), List.head?_take]
      simp
    unfold Database.findLatestReleaseSeq
    rw [Option.bind_some, head]
    cases first : ((db.onChain branch space.epoch).insertionSort
        fun a b => b.mergeSeq.getD 0 ≤ a.mergeSeq.getD 0).head? with
    | none => simp [head?_insertionSort_eq_none first]
    | some latest =>
      obtain ⟨member, greatest⟩ := head_insertionSort first
      obtain ⟨seq, its⟩ := Option.isSome_iff_exists.mp (placed latest member).2.2
      rw [Option.bind_some, its]
      symm
      rw [List.max?_eq_some_iff]
      refine ⟨List.mem_filterMap.mpr ⟨latest, member, its⟩, fun other among => ?_⟩
      obtain ⟨row, inside, there⟩ := List.mem_filterMap.mp among
      have above := greatest row inside
      rwa [its, there] at above

/-- The rows with a number, each with the one before it by number. -/
theorem numbered_timeline_perm (owns : OwnsItsChain collation db branch)
    (unlimited : db.releases.rows.length ≤ limit) :
    ∃ ordered : List ReleaseRow, ordered.Perm (db.chainOf branch) ∧ ordered.Pairwise bySeq ∧
      ((db.listReleaseTimeline collation (some branch) limit).filter
        fun row => row.mergeSeq.isSome).Perm ((lag none ordered).map db.timelineRow) := by
  have sorted := List.pairwise_insertionSort bySeq (givenTo collation db branch)
  refine ⟨((givenTo collation db branch).insertionSort bySeq).filter fun row => row.mergeSeq.isSome,
    ?_, sorted.sublist List.filter_sublist, ?_⟩
  · rw [← numbered_eq_chainOf owns]
    exact (List.perm_insertionSort bySeq _).filter _
  · refine ((listReleaseTimeline_perm unlimited).filter _).trans (List.Perm.of_eq ?_)
    rw [List.filter_map, ← filter_lag]
    · rfl
    · refine sorted.imp fun {a b} before numbered => ?_
      obtain ⟨seq, its⟩ := Option.isSome_iff_exists.mp numbered
      unfold bySeq at before
      rw [its, Option.all_some] at before
      exact Option.isSome_of_any before

theorem filterMap_mergeSeq (rows : List TimelineRow) :
    (rows.filter fun row => row.mergeSeq.isSome).filterMap TimelineRow.mergeSeq =
      rows.filterMap TimelineRow.mergeSeq := by
  rw [List.filterMap_filter]
  refine List.filterMap_congr fun row _ => ?_
  cases row.mergeSeq <;> rfl

/-- Rows without a number count nothing. -/
theorem sum_counts_numbered {rows : List TimelineRow}
    (nothing : ∀ row ∈ rows, row.mergeSeq = none → row.pullRequestCountSincePrevious = none) :
    ((rows.filter fun row => row.mergeSeq.isSome).map fun row =>
        row.pullRequestCountSincePrevious.getD 0).sum =
      (rows.map fun row => row.pullRequestCountSincePrevious.getD 0).sum := by
  induction rows with
  | nil => rfl
  | cons row rest ih =>
    have later := ih fun other member => nothing other (List.mem_cons_of_mem _ member)
    cases its : row.mergeSeq with
    | none => simp [its, nothing row List.mem_cons_self its, later]
    | some seq => simp [its, later]

/-- A row of the timeline counts nothing when it has no number. -/
theorem count_of_unnumbered {wanted : Option Text} {row : TimelineRow}
    (member : row ∈ db.listReleaseTimeline collation wanted limit)
    (unnumbered : row.mergeSeq = none) : row.pullRequestCountSincePrevious = none := by
  unfold Database.listReleaseTimeline at member
  obtain ⟨pair, -, rfl⟩ := List.mem_map.mp member
  have none : pair.1.mergeSeq = none := unnumbered
  simp [Database.timelineRow, Database.pullRequestCountSincePrevious, none]

/-- The counts of the releases on a chain add up to the pull requests between the first and the
last. -/
theorem sum_counts_chain (single : db.SingleRows branch space.epoch) {ordered : List ReleaseRow}
    (sorted : ordered.Pairwise bySeq)
    (placed : ∀ row ∈ ordered, row.baseBranch = some branch ∧ row.seqEpoch = some space.epoch ∧
      row.mergeSeq.isSome = true) {first : Nat}
    (least : (ordered.filterMap ReleaseRow.mergeSeq).min? = some first)
    (greatest : (ordered.filterMap ReleaseRow.mergeSeq).max? = some latest) :
    ((lag none ordered).map fun pair =>
        (db.pullRequestCountSincePrevious pair.1 pair.2).getD 0).sum +
        db.countPullRequests branch space.epoch (fun seq => seq ≤ first) =
      db.countPullRequests branch space.epoch fun seq => seq ≤ latest := by
  cases ordered with
  | nil => cases least
  | cons row rest =>
    obtain ⟨named, inEpoch, numbered⟩ := placed row List.mem_cons_self
    obtain ⟨seq, its⟩ := Option.isSome_iff_exists.mp numbered
    rw [List.min?_eq_some_iff] at least
    rw [List.max?_eq_some_iff] at greatest
    obtain ⟨lowest, member, there⟩ := List.mem_filterMap.mp least.1
    -- the first row has the least number
    have same : seq = first := by
      refine le_antisymm ?_ (least.2 seq (List.mem_filterMap.mpr ⟨row, List.mem_cons_self, its⟩))
      rcases List.mem_cons.mp member with rfl | later
      · rw [its] at there
        exact (Option.some.inj there).le
      · have before := (List.pairwise_cons.mp sorted).1 lowest later
        simpa [bySeq, its, there] using before
    obtain ⟨top, inside, reached⟩ := List.mem_filterMap.mp greatest.1
    have sum := sum_counts_lag single (same ▸ its) sorted
      (fun other member => placed other (List.mem_cons_of_mem _ member)) ⟨top, inside, reached⟩
      (fun other member seq' at' => greatest.2 seq' (List.mem_filterMap.mpr ⟨other, member, at'⟩))
    have nothing : db.pullRequestCountSincePrevious row none = none := by
      simp [Database.pullRequestCountSincePrevious]
    simpa [lag, nothing] using sum

/-- A branch that owns its chain has a timeline that agrees. -/
theorem OwnsItsChain.agrees (owns : OwnsItsChain collation db branch)
    (unlimited : db.releases.rows.length ≤ limit) :
    TimelineAgrees db branch (db.listReleaseTimeline collation (some branch) limit) := by
  obtain ⟨ordered, perm, sorted, numbered⟩ := numbered_timeline_perm owns unlimited
  have numbers : ∀ seq, seq ∈ (db.listReleaseTimeline collation (some branch) limit).filterMap
      TimelineRow.mergeSeq ↔ seq ∈ ordered.filterMap ReleaseRow.mergeSeq := by
    intro seq
    have same := (numbered.filterMap TimelineRow.mergeSeq).mem_iff (a := seq)
    have listed := congrArg (List.filterMap ReleaseRow.mergeSeq)
      (map_fst_lag (ρ := ReleaseRow) : (lag none ordered).map Prod.fst = ordered)
    rw [List.filterMap_map] at listed
    rw [filterMap_mergeSeq, List.filterMap_map] at same
    rw [same, ← listed]
    rfl
  refine ⟨?_, ?_, ⟨ordered, perm, sorted, ?_⟩, ?_⟩
  · refine (numbered.map _).trans ?_
    rw [List.map_map]
    have listed := congrArg (List.map fun release : ReleaseRow =>
      (release.tagName, release.commitSha, release.mergeSeq))
      (map_fst_lag : (lag none ordered).map Prod.fst = ordered)
    rw [List.map_map] at listed
    exact (List.Perm.of_eq listed).trans (perm.map _)
  · rw [latestSeqOf_eq_max?]
    refine max?_congr fun seq => ?_
    rw [numbers, (perm.filterMap ReleaseRow.mergeSeq).mem_iff]
  · refine (numbered.map _).trans (List.Perm.of_eq ?_)
    have zipped : (lag none ordered).map (fun pair => (pair.1.tagName, pair.2.map ReleaseRow.tagName)) =
        (ordered.map ReleaseRow.tagName).zip (none :: (ordered.map ReleaseRow.tagName).map some) :=
      map_lag_zip ReleaseRow.tagName
    rw [← zipped, List.map_map]
    refine List.map_congr_left fun pair member => ?_
    have inside : pair.1 ∈ ordered := by
      have among := List.mem_map_of_mem (f := Prod.fst) member
      rwa [map_fst_lag] at among
    have has : pair.1.mergeSeq.isSome = true := by
      cases found : db.findSequenceSpace branch with
      | none =>
        have chain := perm.mem_iff.mp inside
        unfold Database.chainOf at chain
        rw [found] at chain
        cases chain
      | some space => exact (placed_of_mem_chainOf found (perm.mem_iff.mp inside)).2.2
    simp [Database.timelineRow, Option.isNone_eq_false_iff.mpr has]
  · intro space found single first least latest greatest
    have placed := fun row (member : row ∈ ordered) =>
      placed_of_mem_chainOf found (perm.mem_iff.mp member)
    rw [← sum_counts_numbered fun row member => count_of_unnumbered member,
      (numbered.map _).sum_eq, List.map_map]
    refine sum_counts_chain single sorted placed ?_ ?_
    · rw [← least]
      exact (min?_congr numbers).symm
    · rw [← greatest]
      exact (max?_congr numbers).symm

/-- The releases with a number in the timeline of a branch stand on its chain exactly when it owns its
chain. -/
theorem OwnsItsChain.of_agrees
    (agrees : TimelineAgrees db branch
      (db.listReleaseTimeline collation (some branch) db.releases.rows.length)) :
    OwnsItsChain collation db branch := by
  intro release inside space member same found
  subst same
  obtain ⟨seq, its⟩ := Option.isSome_iff_exists.mp found
  have chain : db.chainOf space.branch = db.onChain space.branch space.epoch := by
    unfold Database.chainOf
    rw [findSequenceSpace_eq_some.mpr ⟨member, rfl⟩]
  -- the release is listed with a number
  have listed : (release.tagName, release.commitSha, some seq) ∈
      (db.chainOf space.branch).map fun release =>
        (release.tagName, release.commitSha, release.mergeSeq) := by
    rw [chain]
    exact List.mem_map.mpr ⟨_, mem_onChain.mpr ⟨release, inside, seq, its, rfl⟩, rfl⟩
  obtain ⟨row, among, names⟩ := List.mem_map.mp (agrees.releases.mem_iff.mpr listed)
  obtain ⟨listing, numbered⟩ := List.mem_filter.mp among
  obtain ⟨pair, held, rfl⟩ := List.mem_map.mp
    ((listReleaseTimeline_perm le_rfl).mem_iff.mp listing)
  have given : pair.1 ∈ givenTo collation db space.branch := by
    have first := List.mem_map_of_mem (f := Prod.fst) held
    rw [map_fst_lag] at first
    exact (List.mem_insertionSort bySeq).mp first
  -- and it is the one that its tag names
  obtain ⟨other, stored, resolved, named⟩ := mem_givenTo.mp given
  have tags : other.tagName = release.tagName := by
    have tag : pair.1.tagName = release.tagName := congrArg Prod.fst names
    rw [← tag, ← resolved]
    rfl
  obtain rfl := db.releases.keyed.eq stored inside tags
  rw [← resolved] at named
  have isNumbered : (db.resolve collation other).mergeSeq.isSome = true := by
    rw [resolved]
    exact numbered
  obtain ⟨-, -, owned, -⟩ := (resolve_eq member).mp ⟨named, isNumbered⟩
  exact owned

/-- The timeline of a branch agrees with the other statements exactly when the releases whose commits
stand on its current chain are its own. -/
theorem timeline_agrees_iff (collation : Collation) (db : Database) (branch : Text) :
    (∀ limit, db.releases.rows.length ≤ limit →
      TimelineAgrees db branch (db.listReleaseTimeline collation (some branch) limit)) ↔
      OwnsItsChain collation db branch :=
  ⟨fun agrees => .of_agrees (agrees _ le_rfl), fun owns _ unlimited => owns.agrees unlimited⟩

end

/-- A tag on a commit that two branches share. -/
def sharedAncestor : Database where
  spaces := ⟨[⟨"main".toList, 1⟩, ⟨"release".toList, 1⟩], by decide⟩
  sequence := [⟨"main".toList, 1, 1, ['a'], some 7⟩, ⟨"release".toList, 1, 1, ['a'], some 7⟩]
  releases := ⟨[⟨"v1".toList, ['a'], some "main".toList, some 1, some 1, [], .gitTag⟩], by decide⟩
  distinct := by decide

/-- The timeline of the second branch leaves out the release that is its latest one. -/
theorem timeline_of_shared_ancestor :
    ¬ ∀ (collation : Collation) (db : Database) (branch : Text) (limit : Nat),
      db.releases.rows.length ≤ limit →
        TimelineAgrees db branch (db.listReleaseTimeline collation (some branch) limit) := by
  intro claimed
  have agrees := claimed (Collation.byCharacter fun _ => 0) sharedAncestor "release".toList 1 le_rfl
  have latest : sharedAncestor.latestSeqOf "release".toList = some 1 := by decide
  have listed : (sharedAncestor.listReleaseTimeline (Collation.byCharacter fun _ => 0)
      (some "release".toList) 1) = [] := by decide
  have same := agrees.latest
  rw [latest, listed] at same
  cases same

end PrSearch.Release
