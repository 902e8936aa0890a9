import PrSearch.Links.QueueSteps

/-! # What has changed stays queued

The document of a commit shows its links unless the row of the commit waits. That holds as long as the
writers ask for what they change, no worker whose lease has ended writes into a document that has no
generation yet, and no row is parked for a generation that has passed.
-/
namespace PrSearch.Links

open PrSearch.Relation (Sha)
open Index.CommitLinks
open Rows

/-! ### Documents -/

def generationOf (document : Option LinkSource) : Option Int := document.bind LinkSource.generation

/-- What has been shown of a commit. -/
def shownLinkView (document : Option LinkSource) : LinkView :=
  ((document.bind LinkSource.numbers).getD [], (document.bind LinkSource.state).getD .verified)

/-- No links. -/
def noLinks : LinkView := ([], .verified)

/-- A view that goes into a document as it is. -/
structure Normal (view : LinkView) : Prop where
  numbers : normalizeLinkNumbers view.1 = view.1
  state : view.1 = [] → view.2 = .verified

def CommitLinkProjection.view (canonical : CommitLinkProjection) : LinkView :=
  (canonical.numbers.map fun (n : Nat) => (n : Int),
    if canonical.verified then .verified else .partial_)

theorem normal_currentLinkView {tables : LinkTables} (valid : Valid tables) (sha : Sha) :
    Normal (currentLinkView tables sha) where
  numbers := by
    have positive : ∀ n ∈ listLinkedPullRequestNumbers tables sha, PrChk n := by
      intro n inside
      obtain ⟨_, ⟨link, held, key⟩, _⟩ := mem_listLinkedPullRequestNumbers.mp inside
      have same : link.prNumber = n := congrArg Prod.fst key
      exact same ▸ valid link held
    have all : ∀ value ∈ (currentLinkView tables sha).1,
        decide (-maxSafeInteger ≤ value ∧ value ≤ maxSafeInteger ∧ 0 < value) = true := by
      intro value inside
      obtain ⟨n, member, rfl⟩ := List.mem_map.mp inside
      have bounds := positive n member
      simp only [PrChk] at bounds
      refine decide_eq_true ?_
      change -9007199254740991 ≤ (n : Int) ∧ (n : Int) ≤ 9007199254740991 ∧ 0 < (n : Int)
      omega
    have distinct : (currentLinkView tables sha).1.Nodup :=
      nodup_listLinkedPullRequestNumbers.map fun _ _ => Int.ofNat.inj
    have sorted : (currentLinkView tables sha).1.Pairwise (· ≤ ·) :=
      List.pairwise_map.mpr <| sorted_listLinkedPullRequestNumbers.imp Int.ofNat_le.mpr
    rw [normalizeLinkNumbers, List.filter_eq_self.mpr all, distinct.dedup]
    exact sorted.insertionSort_eq
  state empty := by
    have none : ∀ n, n ∉ listLinkedPullRequestNumbers tables sha := by
      intro n inside
      rw [List.map_eq_nil_iff.mp empty] at inside
      cases inside
    refine if_pos (verifiedLinks_iff.mpr fun n evidence counted => ?_)
    exact absurd (mem_listLinkedPullRequestNumbers.mpr ⟨evidence, counted⟩) (none n)

section Writing

variable {update : CommitLinkUpdate} {document : Option LinkSource}

/-- What the reading of the document concludes, and why. -/
inductive Got (update : CommitLinkUpdate) (document : Option LinkSource) :
    Option CommitLinkOutcome → Prop
  | missing (none : document = none) : Got update document (some .documentMissing)
  | stale (passed : ∃ g, generationOf document = some g ∧ update.generation < g) :
      Got update document (some .stale)
  | conflict : Got update document (some .conflict)
  | admitted (there : document.isSome) : Got update document none

theorem got_read (update : CommitLinkUpdate) (document : Option LinkSource) :
    Got update document (applyCommitLinks.read update document) := by
  cases document with
  | none => exact .missing rfl
  | some source =>
    change Got update (some source) (readLinks update (some source))
    simp only [readLinks]
    split
    next passed =>
      obtain ⟨g, is, less⟩ := (Option.any_eq_true _ _).mp passed
      exact .stale ⟨g, is, by simpa using less⟩
    next =>
      split
      · exact .conflict
      · exact .admitted rfl

/-- What the script leaves of a document that is there. -/
inductive Scripted (update : CommitLinkUpdate) (document : Option LinkSource) :
    Option (Option LinkSource) → Prop
  | noop (reached : ∃ g, generationOf document = some g ∧ update.generation ≤ g) :
      Scripted update document none
  | written (notPassed : ∀ g, generationOf document = some g → g ≤ update.generation) :
      Scripted update document (some (some ⟨some (normalizeLinkNumbers update.numbers),
        some update.generation, some update.state⟩))

theorem scripted_update (update : CommitLinkUpdate) (there : document.isSome) :
    Scripted update document (applyCommitLinks.update update document) := by
  obtain ⟨source, rfl⟩ := Option.isSome_iff_exists.mp there
  change Scripted update (some source) ((linkScript update source).map some)
  unfold linkScript
  simp only []
  split
  next passed =>
    obtain ⟨g, is, less⟩ := (Option.any_eq_true _ _).mp passed
    exact .noop ⟨g, is, Int.le_of_lt (by simpa using less)⟩
  next notPassed =>
    split
    next same => exact .noop ⟨update.generation, same.1, Int.le_refl _⟩
    next =>
      refine .written fun g is => ?_
      have is : source.generation = some g := is
      simpa [is] using notPassed

end Writing

/-! ### The invariant -/

variable {W : Type} [DecidableEq W]

def Phase.rows : Phase W → List (CommitLinkStateRow W)
  | .idle => []
  | .claimed rows => rows
  | .busy row _ _ rest => row :: rest

section Definitions

variable (s : World W)

/-- A row waits unless its generation has been shown; then its document has the generation, or there
was no document to show that it has no links. -/
structure RowOk (row : CommitLinkStateRow W) : Prop where
  within : row.projectedGeneration ≤ row.generation
  done : row.state = .done ↔ row.projectedGeneration = row.generation
  shown : row.projectedGeneration = row.generation →
    generationOf (s.documents row.commitSha) = some row.generation ∨
      (generationOf (s.documents row.commitSha) = none ∧
        currentLinkView s.tables row.commitSha = noLinks)
  parked : row.state = .parked → s.givenUp row.commitSha = some row.generation ∧
    (maxRetries ≤ row.attemptCount ∨ row.lastReason = some generationConflict)

/-- A document shows what there is to be shown when it has the generation of the row. -/
structure CommitOk (sha : Sha) : Prop where
  row : ∀ row, findCommitLinkState s.states sha = some row → RowOk s row
  unlinked : findCommitLinkState s.states sha = none →
    (∀ prNumber evidence, ¬ Linked s.tables.store.links prNumber sha evidence) ∧
      generationOf (s.documents sha) = none
  plain : generationOf (s.documents sha) = none → shownLinkView (s.documents sha) = noLinks
  document : ∀ g, generationOf (s.documents sha) = some g →
    ∀ row, findCommitLinkState s.states sha = some row →
      g ≤ row.generation ∧
        (g = row.generation → shownLinkView (s.documents sha) = currentLinkView s.tables sha)

/-- The worker still has the lease. -/
def Holds (lease : CommitLinkStateRow W) : Prop :=
  ∃ row, findCommitLinkState s.states lease.commitSha = some row ∧ row.state = .leased ∧
    row.leaseToken = lease.leaseToken

/-- A row that a worker has leased. -/
structure LeaseOk (worker : W) (lease : CommitLinkStateRow W) : Prop where
  own : ∃ n, lease.leaseToken = some (worker, n)
  attempts : ∀ row, findCommitLinkState s.states lease.commitSha = some row → row.state = .leased →
    row.leaseToken = lease.leaseToken → row.attemptCount = lease.attemptCount

/-- What a worker has read is there to be shown as long as the generation has not been raised. -/
structure ReadOk (lease : CommitLinkStateRow W) (canonical : CommitLinkProjection) : Prop where
  normal : Normal canonical.view
  current : ∃ row, findCommitLinkState s.states lease.commitSha = some row ∧
    canonical.generation ≤ row.generation ∧
      (canonical.generation = row.generation →
        canonical.view = currentLinkView s.tables lease.commitSha)

/-- What the worker knows of the document. -/
def StageOk (lease : CommitLinkStateRow W) (canonical : CommitLinkProjection) : Stage → Prop
  | .read | .answered (.error _) | .answered (.outcome .conflict) => True
  | .admitted => (s.documents lease.commitSha).isSome
  | .answered (.outcome .documentMissing) =>
      Holds s lease → generationOf (s.documents lease.commitSha) = none
  | .answered (.outcome .updated) | .answered (.outcome .noop) | .answered (.outcome .stale) =>
      ∃ g, generationOf (s.documents lease.commitSha) = some g ∧ canonical.generation ≤ g

def PhaseOk (worker : W) (phase : Phase W) : Prop :=
  (∀ lease ∈ phase.rows, LeaseOk s worker lease) ∧
    ∀ lease canonical stage rest, phase = .busy lease canonical stage rest →
      ReadOk s lease canonical ∧ StageOk s lease canonical stage

structure Inv : Prop where
  commits : ∀ sha, CommitOk s sha
  valid : Valid s.tables
  phases : ∀ worker, PhaseOk s worker (s.phase worker)

end Definitions

/-! ### What stays true for a worker -/

/-- What a step may do to the commits that a worker is at, when it is not a step of its own. -/
structure Later (worker : W) (s s' : World W) : Prop where
  row : ∀ sha row, findCommitLinkState s.states sha = some row →
    ∃ row', findCommitLinkState s'.states sha = some row' ∧ row.generation ≤ row'.generation ∧
      (row.generation = row'.generation → currentLinkView s'.tables sha = currentLinkView s.tables sha)
  lease : ∀ lease : CommitLinkStateRow W, (∃ n, lease.leaseToken = some (worker, n)) →
    ∀ row', findCommitLinkState s'.states lease.commitSha = some row' → row'.state = .leased →
      row'.leaseToken = lease.leaseToken →
        ∃ row, findCommitLinkState s.states lease.commitSha = some row ∧ row.state = .leased ∧
          row.leaseToken = lease.leaseToken ∧ row'.attemptCount = row.attemptCount
  there : ∀ sha, (s.documents sha).isSome → (s'.documents sha).isSome
  generation : ∀ sha g, generationOf (s.documents sha) = some g →
    ∃ g', generationOf (s'.documents sha) = some g' ∧ g ≤ g'
  none : ∀ lease : CommitLinkStateRow W, (∃ n, lease.leaseToken = some (worker, n)) →
    Holds s lease → generationOf (s.documents lease.commitSha) = none →
      generationOf (s'.documents lease.commitSha) = none

section Later

variable {worker : W} {s s' : World W} {lease : CommitLinkStateRow W}
  {canonical : CommitLinkProjection} {stage : Stage}

theorem Later.holds (later : Later worker s s') (own : ∃ n, lease.leaseToken = some (worker, n))
    (holds : Holds s' lease) : Holds s lease := by
  obtain ⟨row', found, leased, token⟩ := holds
  obtain ⟨row, found, leased, token, _⟩ := later.lease lease own row' found leased token
  exact ⟨row, found, leased, token⟩

theorem LeaseOk.later (ok : LeaseOk s worker lease) (later : Later worker s s') :
    LeaseOk s' worker lease where
  own := ok.own
  attempts row' found leased token := by
    obtain ⟨row, found, leased, token, same⟩ := later.lease lease ok.own row' found leased token
    exact same.trans (ok.attempts row found leased token)

theorem ReadOk.later (ok : ReadOk s lease canonical) (later : Later worker s s') :
    ReadOk s' lease canonical where
  normal := ok.normal
  current := by
    obtain ⟨row, found, reached, current⟩ := ok.current
    obtain ⟨row', found', grown, same⟩ := later.row lease.commitSha row found
    refine ⟨row', found', Int.le_trans reached grown, fun is => ?_⟩
    have still : row.generation = row'.generation := by omega
    rw [same still]
    exact current (is.trans still.symm)

theorem StageOk.later (ok : StageOk s lease canonical stage) (later : Later worker s s')
    (own : ∃ n, lease.leaseToken = some (worker, n)) : StageOk s' lease canonical stage := by
  have reached : (∃ g, generationOf (s.documents lease.commitSha) = some g ∧
      canonical.generation ≤ g) →
        ∃ g, generationOf (s'.documents lease.commitSha) = some g ∧ canonical.generation ≤ g := by
    rintro ⟨g, is, least⟩
    obtain ⟨g', is', grown⟩ := later.generation lease.commitSha g is
    exact ⟨g', is', Int.le_trans least grown⟩
  cases stage with
  | read => trivial
  | admitted => exact later.there _ ok
  | answered answer =>
    cases answer with
    | error reason => trivial
    | outcome outcome =>
      cases outcome with
      | updated => exact reached ok
      | noop => exact reached ok
      | stale => exact reached ok
      | conflict => trivial
      | documentMissing =>
        intro holds
        have held := later.holds own holds
        exact later.none lease own held (ok held)

theorem PhaseOk.later {phase : Phase W} (ok : PhaseOk s worker phase) (later : Later worker s s') :
    PhaseOk s' worker phase := by
  refine ⟨fun lease inside => (ok.1 lease inside).later later, ?_⟩
  rintro lease canonical stage rest rfl
  obtain ⟨read, stage⟩ := ok.2 lease canonical _ rest rfl
  exact ⟨read.later later, stage.later later (ok.1 lease List.mem_cons_self).own⟩

end Later

end PrSearch.Links
