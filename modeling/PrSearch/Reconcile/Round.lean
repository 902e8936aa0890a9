import Mathlib.Data.List.Basic

/-! # A reconciliation round

The pull requests of a repository are read page by page, the last updated first, until one is older than the
window. Each of them is looked up in the index, and what is missing there is projected again. GitHub's list
changes while it is read, and cancellation, the rate limit and exceptions end a round early.
-/
namespace PrSearch.Reconcile

/-- A pull request of GitHub's list; `readable` is whether `Date.parse` understands its `updated_at`. -/
structure PullRequestSummary where
  number : Int
  updatedAt : Int
  readable : Bool
  deriving DecidableEq, Repr

inductive PageFailure
  | rateLimited
  | other (message : String)
  deriving DecidableEq, Repr

/-- What a round meets: GitHub's list when a page is read, and the answers to its questions in their order.
An answer may be an exception. -/
structure Surroundings where
  now : Int
  listing : Nat → List PullRequestSummary
  failure : Nat → Option PageFailure
  indexed : Nat → Int → Except String Bool
  cancelled : Option (Nat → Except String Bool)
  reproject : Nat → Int → Except String Bool
  scheduleHeadSequence : Except String Bool
  recordFails : Bool

/-- `RECONCILE_WINDOW_MS` -/
def reconcileWindowMs : Int := 24 * 60 * 60 * 1000

/-- `PAGE_SIZE` -/
def pageSize : Nat := 100

/-- A pull request that was asked for in the index, with the answer. -/
structure Check where
  number : Int
  indexed : Bool
  deriving DecidableEq, Repr

/-- The counts of a round; `asked` counts the questions about cancellation, `checks` lists the ones to the
index. -/
structure Progress where
  scanned : Nat
  missing : Nat
  reprojected : Nat
  stopped : Bool
  asked : Nat
  checks : List Check
  deriving DecidableEq, Repr

def Progress.none_ : Progress := ⟨0, 0, 0, false, 0, []⟩

structure ReconcileResult where
  progress : Progress
  sequenceScheduled : Bool
  deferred : Bool
  /-- The count that `recordCompletedReconciliation` has written. -/
  recorded : Option Nat

section

variable (env : Surroundings)

def cutoff : Int := env.now - reconcileWindowMs

/-- `listPullRequestsPage`, with pages counted from one. -/
def pageOf (page : Nat) : List PullRequestSummary :=
  ((env.listing page).drop ((page - 1) * pageSize)).take pageSize

def shouldStop (progress : Progress) : Except String (Bool × Progress) :=
  if progress.stopped then .ok (true, progress)
  else
    match env.cancelled with
    | none => .ok (false, progress)
    | some cancelled =>
        match cancelled progress.asked with
        | .error thrown => .error thrown
        | .ok stop => .ok (stop, { progress with stopped := stop, asked := progress.asked + 1 })

/-- The window has ended, as what follows is older still. -/
def isOld (summary : PullRequestSummary) : Bool :=
  summary.readable && summary.updatedAt < cutoff env

/-- The items of a page; `true` is for `break scan`. -/
def scanItems : List PullRequestSummary → Progress → Except String (Bool × Progress)
  | [], progress => .ok (false, progress)
  | summary :: rest, progress =>
      if isOld env summary then .ok (true, progress)
      else
        match env.indexed progress.scanned summary.number with
        | .error thrown => .error thrown
        | .ok true =>
            scanItems rest { progress with
              scanned := progress.scanned + 1
              checks := progress.checks ++ [⟨summary.number, true⟩] }
        | .ok false =>
            match shouldStop env { progress with
                scanned := progress.scanned + 1
                missing := progress.missing + 1
                checks := progress.checks ++ [⟨summary.number, false⟩] } with
            | .error thrown => .error thrown
            | .ok (true, progress) => .ok (true, progress)
            | .ok (false, progress) =>
                match env.reproject progress.missing summary.number with
                | .error thrown => .error thrown
                | .ok true => scanItems rest { progress with reprojected := progress.reprojected + 1 }
                | .ok false => scanItems rest progress

/-- The loop over the pages; the flag is `deferred`. -/
def scan : Nat → Nat → Progress → Option (Except String (Bool × Progress))
  | 0, _, _ => none
  | fuel + 1, page, progress =>
      match shouldStop env progress with
      | .error thrown => some (.error thrown)
      | .ok (true, progress) => some (.ok (false, progress))
      | .ok (false, progress) =>
          match env.failure page with
          | some .rateLimited => some (.ok (true, progress))
          | some (.other message) => some (.error message)
          | none =>
              match scanItems env (pageOf env page) progress with
              | .error thrown => some (.error thrown)
              | .ok (true, progress) => some (.ok (false, progress))
              | .ok (false, progress) =>
                  if (pageOf env page).length < pageSize then some (.ok (false, progress))
                  else scan fuel (page + 1) progress

/-- What follows the scan. -/
def finish (deferred : Bool) (progress : Progress) : Except String ReconcileResult :=
  match shouldStop env progress with
  | .error thrown => .error thrown
  | .ok (true, progress) => .ok ⟨progress, false, deferred, none⟩
  | .ok (false, progress) =>
      match env.scheduleHeadSequence with
      | .error thrown => .error thrown
      | .ok scheduled =>
          .ok ⟨progress, scheduled, deferred,
            if deferred ∨ env.recordFails then none else some progress.missing⟩

/-- A round that reads at most so many pages. -/
def reconcileRepository (fuel : Nat) : Option (Except String ReconcileResult) :=
  (scan env fuel 1 .none_).map fun scanned =>
    match scanned with
    | .error thrown => .error thrown
    | .ok (deferred, progress) => finish env deferred progress

end
end PrSearch.Reconcile
