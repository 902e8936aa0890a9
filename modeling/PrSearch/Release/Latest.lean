import PrSearch.Release.Refresh

/-! # The latest listing

A refresh writes what it has listed, however old that is, and one that finds the lock taken trusts
the other to have listed what it has. So the releases are those of the latest listing exactly as long
as the refreshes commit in the order in which they have listed, and no refresh that was skipped had
seen something newer than what is committed last.
-/
namespace PrSearch.Release

open Rows

section Definitions

variable {R : Type*}

/-- The rows say what the listing says, and nothing else. -/
def Shows (releases : ReleaseTable) (listing : Listing) : Prop :=
  ∀ facts, facts ∈ releases.rows.map ReleaseRow.facts ↔ facts ∈ listing.facts

/-- No refresh is under way. -/
def Quiet (s : Refreshes R) : Prop := ∀ r, (s.stage r).isIdle = true

/-- No commit comes after that of a later listing, and when all refreshes have ended the releases are
those of the latest listing that was committed or skipped. -/
structure LatestWins (s : Refreshes R) : Prop where
  increasing : s.committed.Pairwise fun earlier later => earlier.turn < later.turn
  shown : Quiet s → ∀ latest ∈ s.committed ++ s.skipped,
    (∀ other ∈ s.committed ++ s.skipped, other.turn ≤ latest.turn) → Shows s.releases latest

/-- What was listed for the last commit. -/
def lastFacts (committed : List Listing) : List TagFacts :=
  (committed.getLast?.map Listing.facts).getD []

/-- When the latest listing has been skipped, it says what was listed for the last commit. -/
def SkippedAlike (s : Refreshes R) : Prop :=
  ∀ latest ∈ s.skipped, (∀ other ∈ s.committed ++ s.skipped, other.turn ≤ latest.turn) →
    ∀ facts, facts ∈ latest.facts ↔ facts ∈ lastFacts s.committed

/-- A refresh commits after those that have listed before it. When the last refresh under way ends, a
later listing that was skipped says nothing else. -/
def InOrder (s : Refreshes R) : Action R → Prop
  | .refresh r .commit =>
      match s.stage r with
      | .writing listing _ _ _ => ∀ earlier ∈ s.committed, earlier.turn < listing.turn
      | _ => True
  | .refresh r .finish | .refresh r .fail =>
      (∀ other, other ≠ r → (s.stage other).isIdle = true) → SkippedAlike s
  | _ => True

/-- A draft has the rows of the tags that are written. -/
structure Drafted (listing : Listing) (draft : ReleaseTable) (rest : List MirrorTag) : Prop where
  written : ∃ done, listing.snapshot.tags = done ++ rest ∧
    ∀ tag ∈ done, listing.factsOf tag ∈ draft.rows.map ReleaseRow.facts
  tagged : ∀ row ∈ draft.rows, row.source ≠ .ciDeployment

/-- What holds in every order of the steps. -/
structure Kept (s : Refreshes R) : Prop where
  shown : ∀ facts, facts ∈ s.releases.rows.map ReleaseRow.facts ↔ facts ∈ lastFacts s.committed
  tagged : ∀ row ∈ s.releases.rows, row.source ≠ .ciDeployment
  drafted : ∀ r listing spaces draft rest, s.stage r = .writing listing spaces draft rest →
    Drafted listing draft rest
  held : ∀ r, s.lock = some r → (s.stage r).isWriting = true

end Definitions

/-! ### The rows of a commit -/

section Rows

variable {listing : Listing} {draft : ReleaseTable} {rest : List MirrorTag} {tag : MirrorTag}

theorem source_ne_ciDeployment (findSeqByCommit : Chain) (spaces : List Space) :
    (listing.releaseRow findSeqByCommit spaces tag).source ≠ .ciDeployment := by
  unfold Listing.releaseRow
  dsimp only
  split <;> decide

/-- Another tag is written. -/
theorem Drafted.put (drafted : Drafted listing draft (tag :: rest)) (findSeqByCommit : Chain)
    (spaces : List Space) :
    Drafted listing (draft.put (listing.releaseRow findSeqByCommit spaces tag)) rest := by
  obtain ⟨⟨done, tags, written⟩, tagged⟩ := drafted
  refine ⟨⟨done ++ [tag], by rw [tags]; simp, fun other member => ?_⟩, fun row member => ?_⟩
  · rcases List.mem_append.mp member with before | own
    · -- the row of a tag before has another name
      obtain ⟨row, inside, same⟩ := List.mem_map.mp (written other before)
      refine List.mem_map.mpr ⟨row, Table.mem_put.mpr (.inr ⟨inside, fun is => ?_⟩), same⟩
      have named : other.name = tag.name := (congrArg TagFacts.tagName same).symm.trans is
      have distinct := listing.snapshot.distinct
      rw [Keyed, tags, List.map_append, List.map_cons] at distinct
      refine (List.nodup_append.mp distinct).2.2 _ (List.mem_map_of_mem before) _
        List.mem_cons_self named
    · rw [List.mem_singleton.mp own]
      exact List.mem_map.mpr ⟨_, Table.mem_put.mpr (.inl rfl), rfl⟩
  · rcases Table.mem_put.mp member with rfl | ⟨inside, _⟩
    · exact source_ne_ciDeployment findSeqByCommit spaces
    · exact tagged row inside

theorem drafted_start {releases : ReleaseTable}
    (tagged : ∀ row ∈ releases.rows, row.source ≠ .ciDeployment) :
    Drafted listing releases listing.snapshot.tags :=
  ⟨⟨[], rfl, by simp⟩, tagged⟩

theorem mem_deleteReleasesNotIn {row : ReleaseRow} (tagged : row.source ≠ .ciDeployment) :
    row ∈ (deleteReleasesNotIn draft listing).rows ↔
      row ∈ draft.rows ∧ ∃ tag ∈ listing.snapshot.tags, tag.name = row.tagName := by
  refine Table.mem_delete.trans (and_congr_right fun _ => ?_)
  simp [Listing.isStale, tagged]

/-- When all tags are written, the rows that stay are those of the listing. -/
theorem Drafted.shows (drafted : Drafted listing draft []) :
    Shows (deleteReleasesNotIn draft listing) listing := by
  obtain ⟨⟨done, tags, written⟩, tagged⟩ := drafted
  obtain rfl : listing.snapshot.tags = done := tags.trans (List.append_nil done)
  intro facts
  constructor
  · intro member
    obtain ⟨row, inside, rfl⟩ := List.mem_map.mp member
    have stored := (Table.mem_delete.mp inside).1
    obtain ⟨_, tag, listed, named⟩ := (mem_deleteReleasesNotIn (tagged row stored)).mp inside
    -- the row of the tag has the same name, and so it is this row
    obtain ⟨other, stored', same⟩ := List.mem_map.mp (written tag listed)
    have name : other.tagName = row.tagName := (congrArg TagFacts.tagName same).trans named
    rw [← draft.keyed.eq stored' stored name, same]
    exact List.mem_map_of_mem listed
  · intro member
    obtain ⟨tag, listed, rfl⟩ := List.mem_map.mp member
    obtain ⟨row, stored, same⟩ := List.mem_map.mp (written tag listed)
    refine List.mem_map.mpr ⟨row, ?_, same⟩
    refine (mem_deleteReleasesNotIn (tagged row stored)).mpr ⟨stored, tag, listed, ?_⟩
    exact (congrArg TagFacts.tagName same).symm

end Rows

variable {stage : Stage}

variable {move : RefreshMove}

/-! ### Steps -/

section Steps

variable {R : Type*} [DecidableEq R] {s next : Refreshes R} {action : Action R}

omit [DecidableEq R] in
theorem kept_start (mirror : TagSnapshot) (spaces : List Space) (chain : Chain) :
    Kept (Refreshes.start mirror spaces chain : Refreshes R) where
  shown := by simp [Refreshes.start, Table.empty, lastFacts]
  tagged := by simp [Refreshes.start, Table.empty]
  drafted := by simp [Refreshes.start]
  held := by simp [Refreshes.start]

variable {r : R}

omit [DecidableEq R] in
theorem Kept.lock_ne (kept : Kept s) (is : (s.stage r).isWriting = false) : s.lock ≠ some r := by
  intro own
  rw [kept.held r own] at is
  cases is

-- A refresh goes on to a stage in which it writes nothing yet.
theorem Kept.goes (kept : Kept s) (busy : s.lock = some r → stage.isWriting = true)
    (drafted : ∀ listing spaces draft rest, stage = .writing listing spaces draft rest →
      Drafted listing draft rest) : Kept (s.goes r stage) := by
  refine ⟨kept.shown, kept.tagged, fun other listing spaces draft rest is => ?_,
    fun other lock => ?_⟩
  · by_cases own : other = r
    · subst own
      simp only [Refreshes.goes, Function.update_self] at is
      exact drafted listing spaces draft rest is
    · simp only [Refreshes.goes, Function.update_of_ne own] at is
      exact kept.drafted other listing spaces draft rest is
  · by_cases own : other = r
    · subst own
      simpa only [Refreshes.goes, Function.update_self] using busy lock
    · simpa only [Refreshes.goes, Function.update_of_ne own] using kept.held other lock

-- The one that gives the lock back may be idle.
theorem Kept.ends (kept : Kept s)
    (drafted : ∀ listing spaces draft rest, stage ≠ .writing listing spaces draft rest) :
    Kept ((s.goes r stage).unlock r) := by
  have others : ∀ other, other ≠ r → s.lock = some other →
      ((s.goes r stage).stage other).isWriting = true := by
    intro other apart lock
    simpa only [Refreshes.goes, Function.update_of_ne apart] using kept.held other lock
  have drafts : ∀ other listing spaces draft rest,
      (s.goes r stage).stage other = .writing listing spaces draft rest →
        Drafted listing draft rest := by
    intro other listing spaces draft rest is
    by_cases own : other = r
    · subst own
      simp only [Refreshes.goes, Function.update_self] at is
      exact absurd is (drafted listing spaces draft rest)
    · simp only [Refreshes.goes, Function.update_of_ne own] at is
      exact kept.drafted other listing spaces draft rest is
  unfold Refreshes.unlock
  split
  next => exact ⟨kept.shown, kept.tagged, drafts, by simp⟩
  next away =>
    refine ⟨kept.shown, kept.tagged, drafts, fun other lock => others other ?_ lock⟩
    rintro rfl
    exact away lock

@[simp] theorem committed_unlock : (s.unlock r).committed = s.committed := by
  unfold Refreshes.unlock
  split <;> rfl

@[simp] theorem skipped_unlock : (s.unlock r).skipped = s.skipped := by
  unfold Refreshes.unlock
  split <;> rfl

@[simp] theorem stage_unlock : (s.unlock r).stage = s.stage := by
  unfold Refreshes.unlock
  split <;> rfl

theorem Kept.turn (kept : Kept s) (turn : Turn s r move next) : Kept next := by
  have free {stage : Stage} (is : s.stage r = stage) (away : stage.isWriting = false) :
      s.lock ≠ some r := kept.lock_ne (is ▸ away)
  cases turn with
  | @list releases is =>
    have on : Kept (s.goes r (.listed ⟨s.listings, s.mirror, releases⟩)) :=
      kept.goes (fun own => absurd own (free is rfl)) (by simp)
    exact ⟨on.shown, on.tagged, on.drafted, on.held⟩
  | epochs is => exact kept.goes (fun own => absurd own (free is rfl)) (by simp)
  | @lock listing spaces is none =>
    have on : Kept (s.goes r (.writing listing spaces s.releases listing.snapshot.tags)) := by
      refine kept.goes (fun _ => rfl) ?_
      rintro _ _ _ _ ⟨⟩
      exact drafted_start kept.tagged
    refine ⟨on.shown, on.tagged, on.drafted, ?_⟩
    rintro _ ⟨⟩
    simp [Refreshes.goes, Stage.isWriting]
  | locked is held =>
    have on : Kept (s.goes r .idle) :=
      kept.goes (fun own => absurd own (free is rfl)) (by simp)
    exact ⟨on.shown, on.tagged, on.drafted, on.held⟩
  | upsert is =>
    refine kept.goes (fun _ => rfl) ?_
    rintro _ _ _ _ ⟨⟩
    exact (kept.drafted _ _ _ _ _ is).put _ _
  | @commit listing spaces draft is =>
    have drafted := kept.drafted _ _ _ _ _ is
    have on : Kept ((s.goes r .projecting).unlock r) := kept.ends (by simp)
    refine ⟨fun facts => ?_, fun row member => ?_, on.drafted, on.held⟩
    · simpa [lastFacts] using drafted.shows facts
    · exact drafted.tagged row (Table.mem_delete.mp member).1
  | finish is => exact kept.goes (fun own => absurd own (free is rfl)) (by simp)
  | fail busy => exact kept.ends (by simp)

theorem Kept.step (kept : Kept s) (stepped : s.step action = some next) : Kept next := by
  cases action with
  | fetch mirror =>
    obtain rfl := Option.some.inj stepped
    exact ⟨kept.shown, kept.tagged, kept.drafted, kept.held⟩
  | sequence spaces chain =>
    obtain rfl := Option.some.inj stepped
    exact ⟨kept.shown, kept.tagged, kept.drafted, kept.held⟩
  | refresh r move => exact kept.turn (turn_of_refreshStep stepped)

omit [DecidableEq R] in
/-- What the rows show is what was committed last, and so it is all about the order. -/
theorem latestWins_iff (kept : Kept s) : LatestWins s ↔
    (s.committed.Pairwise fun earlier later => earlier.turn < later.turn) ∧
      (Quiet s → SkippedAlike s) := by
  constructor
  · rintro ⟨increasing, shown⟩
    refine ⟨increasing, fun quiet latest skipped greatest facts => ?_⟩
    have shows := shown quiet latest (List.mem_append_right _ skipped) greatest
    exact (shows facts).symm.trans (kept.shown facts)
  · rintro ⟨increasing, alike⟩
    refine ⟨increasing, fun quiet latest member greatest facts => ?_⟩
    rcases List.mem_append.mp member with inside | skipped
    · -- the latest one that was committed was committed last
      obtain ⟨before, last, is⟩ := (List.eq_nil_or_concat s.committed).resolve_left
        (List.ne_nil_of_mem inside)
      rw [List.concat_eq_append] at is
      rw [is] at increasing
      have later := (List.pairwise_append.mp increasing).2.2
      have own : latest = last := by
        rw [is] at inside
        rcases List.mem_append.mp inside with early | own
        · have behind := later latest early last (List.mem_singleton_self last)
          have ahead := greatest last (List.mem_append_left _ (by rw [is]; simp))
          omega
        · exact List.mem_singleton.mp own
      rw [kept.shown facts, is, own]
      simp [lastFacts]
    · exact (kept.shown facts).trans (alike quiet latest skipped greatest facts).symm

-- A refresh that goes on to a busy stage is under way.
theorem not_quiet_goes (busy : stage.isIdle = false) : ¬ Quiet (s.goes r stage) := by
  intro quiet
  have idle := quiet r
  simp only [Refreshes.goes, Function.update_self, busy] at idle
  cases idle

theorem quiet_goes_idle :
    Quiet (s.goes r .idle) ↔ ∀ other, other ≠ r → (s.stage other).isIdle = true := by
  constructor
  · intro quiet other apart
    simpa only [Refreshes.goes, Function.update_of_ne apart] using quiet other
  · intro idle other
    by_cases own : other = r
    · subst own
      simp [Refreshes.goes, Stage.isIdle]
    · simpa only [Refreshes.goes, Function.update_of_ne own] using idle other own

theorem latestWins_turn (kept : Kept s) (good : LatestWins s) (turn : Turn s r move next) :
    LatestWins next ↔ InOrder s (.refresh r move) := by
  have later := kept.turn turn
  rw [latestWins_iff later]
  cases turn with
  | list is =>
    refine iff_of_true ⟨good.increasing, fun quiet => ?_⟩ trivial
    exact absurd quiet (not_quiet_goes rfl)
  | epochs is =>
    refine iff_of_true ⟨good.increasing, fun quiet => ?_⟩ trivial
    exact absurd quiet (not_quiet_goes rfl)
  | lock is none =>
    refine iff_of_true ⟨good.increasing, fun quiet => ?_⟩ trivial
    exact absurd quiet (not_quiet_goes rfl)
  | @locked listing spaces holder is held =>
    -- the one that holds the lock is still under way
    refine iff_of_true ⟨good.increasing, fun quiet => ?_⟩ trivial
    have writing := kept.held holder held
    have apart : holder ≠ r := by
      rintro rfl
      rw [is] at writing
      cases writing
    have idle := quiet_goes_idle.mp quiet holder apart
    cases stage : s.stage holder <;> simp_all [Stage.isIdle, Stage.isWriting]
  | upsert is =>
    refine iff_of_true ⟨good.increasing, fun quiet => ?_⟩ trivial
    exact absurd quiet (not_quiet_goes rfl)
  | @commit listing spaces draft is =>
    have busy : ¬ Quiet ((s.goes r .projecting).unlock r) := by
      intro quiet
      have writing : Stage.isIdle (.projecting : Stage) = false := rfl
      refine not_quiet_goes (s := s) (r := r) writing fun other => ?_
      simpa only [stage_unlock] using quiet other
    simp only [InOrder, is, List.pairwise_append, List.pairwise_singleton, List.mem_singleton,
      forall_eq, good.increasing, true_and]
    exact and_iff_left fun quiet => absurd quiet busy
  | finish is =>
    rw [quiet_goes_idle]
    exact and_iff_right good.increasing
  | fail busy =>
    have quiet : Quiet ((s.goes r .idle).unlock r) ↔
        ∀ other, other ≠ r → (s.stage other).isIdle = true := by
      rw [← quiet_goes_idle, Quiet, Quiet, stage_unlock]
    simp only [quiet, SkippedAlike, committed_unlock, skipped_unlock]
    exact and_iff_right good.increasing

theorem latestWins_step (kept : Kept s) (good : LatestWins s) (stepped : s.step action = some next) :
    LatestWins next ↔ InOrder s action := by
  cases action with
  | fetch mirror =>
    obtain rfl := Option.some.inj stepped
    exact iff_of_true ⟨good.increasing, good.shown⟩ trivial
  | sequence spaces chain =>
    obtain rfl := Option.some.inj stepped
    exact iff_of_true ⟨good.increasing, good.shown⟩ trivial
  | refresh r move => exact latestWins_turn kept good (turn_of_refreshStep stepped)

/-- The latest listing wins in every state of a run exactly when the run is in order. -/
theorem latest_listing_wins (mirror : TagSnapshot) (spaces : List Space) (chain : Chain)
    (actions : List (Action R)) :
    (∀ s ∈ automaton.visited actions (.start mirror spaces chain), LatestWins s) ↔
      ∀ turn ∈ automaton.taken actions (.start mirror spaces chain), InOrder turn.1 turn.2 := by
  refine Automaton.visited_iff_taken (fun _ _ _ kept stepped => ?_)
    (fun _ _ _ kept good stepped => ?_) (kept_start mirror spaces chain) ?_
  · exact Kept.step kept stepped
  · exact latestWins_step kept good stepped
  · exact ⟨List.Pairwise.nil, fun _ latest none => absurd none List.not_mem_nil⟩

/-- One tag, and then another one. -/
def tagsOf (names : List String) : List MirrorTag :=
  names.map fun name => ⟨name.toList, "2026-01-01".toList, "c0ffee".toList⟩

def before : TagSnapshot := ⟨tagsOf ["v1"], by decide⟩

def after : TagSnapshot := ⟨tagsOf ["v1", "v2"], by decide⟩

/-- The first refresh has listed before the second tag came, and commits after the second one. -/
def overtaken : List (Action Bool) :=
  [.refresh false (.list []), .fetch after, .refresh true (.list []), .refresh true .epochs,
    .refresh true .lock, .refresh true .upsert, .refresh true .upsert, .refresh true .commit,
    .refresh true .finish, .refresh false .epochs, .refresh false .lock, .refresh false .upsert,
    .refresh false .commit, .refresh false .finish]

/-- The second refresh has seen the second tag, and is skipped while the first one writes. -/
def lockedOut : List (Action Bool) :=
  [.refresh false (.list []), .refresh false .epochs, .refresh false .lock, .fetch after,
    .refresh true (.list []), .refresh true .epochs, .refresh true .lock, .refresh false .upsert,
    .refresh false .commit, .refresh false .finish]

/-- In both runs all refreshes end, and the second tag is not shown. -/
theorem stale_listing_wins :
    (¬ ∀ s ∈ automaton.visited overtaken (.start before [] fun _ _ => none), LatestWins s) ∧
      ¬ ∀ s ∈ automaton.visited lockedOut (.start before [] fun _ _ => none), LatestWins s := by
  have ends : ∀ actions ∈ [overtaken, lockedOut],
      ∃ s ∈ automaton.visited actions (.start before [] fun _ _ => none),
        (∀ r, (s.stage r).isIdle = true) ∧ ∃ latest ∈ s.committed ++ s.skipped,
          (∀ other ∈ s.committed ++ s.skipped, other.turn ≤ latest.turn) ∧
            ∃ facts ∈ latest.facts, facts ∉ s.releases.rows.map ReleaseRow.facts := by decide
  have fails : ∀ actions ∈ [overtaken, lockedOut],
      ¬ ∀ s ∈ automaton.visited actions (.start before [] fun _ _ => none), LatestWins s := by
    intro actions member wins
    obtain ⟨s, reached, quiet, latest, listed, greatest, facts, told, missing⟩ := ends actions member
    exact missing (((wins s reached).shown quiet latest listed greatest facts).mpr told)
  exact ⟨fails _ List.mem_cons_self, fails _ (List.mem_cons_of_mem _ List.mem_cons_self)⟩

end Steps

end PrSearch.Release
