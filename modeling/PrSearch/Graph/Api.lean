import PrSearch.Lib.Dag
import PrSearch.Sequence.System

/-! # Commit graphs over the API and over a mirror

`ApiCommitGraph` lists the commits that are reachable from the end of a range, page by page, and
follows first parents through the list. `MirrorCommitGraph` asks `git log --first-parent` of a
mirror. `FallbackCommitGraph` asks the second and, when it fails, the first. A walk along first
parents of a list that is not a history need not end: it is run with fuel, and `none` says that the
fuel was used up.
-/
namespace PrSearch.Graph

open Sequence (Sha Instant Fault FirstParentCommit)

/-- `/^[0-9a-f]{40}$/` -/
def isFullSha (value : Sha) : Bool :=
  value.toList.length = 40 ∧ value.toList.all fun c => '0' ≤ c ∧ c ≤ '9' ∨ 'a' ≤ c ∧ c ≤ 'f'

structure RevRange where
  fromSha : Option Sha
  toSha : Sha
  deriving DecidableEq, Repr

/-- Both ends of a range are checked before anything is asked. -/
def RevRange.check (thrown : String → Fault) (range : RevRange) : Except Fault Unit :=
  if isFullSha range.toSha = false then
    .error (thrown ("구간의 끝이 40자 SHA가 아니다: " ++ range.toSha))
  else
    match range.fromSha with
    | none => .ok ()
    | some fromSha =>
        if isFullSha fromSha = false then
          .error (thrown ("구간의 시작이 40자 SHA가 아니다: " ++ fromSha))
        else .ok ()

/-! ### Pages -/

structure PagedResult (α : Type) where
  items : List α
  truncated : Bool
  maxItems : Nat
  deriving Repr

/-- The loop of `getAllPaged`. A turn that goes on has collected something, so `maxItems + 1` turns
are enough. -/
def getPages {α : Type} (perPage maxItems : Nat) (get : Nat → Except Fault (List α)) :
    Nat → Nat → List α → Except Fault (List α)
  | 0, _, collected => .ok collected
  | turns + 1, page, collected =>
      if collected.length ≤ maxItems then
        match get page with
        | .error fault => .error fault
        | .ok batch =>
            if batch.length = 0 then .ok collected
            else if batch.length < perPage then .ok (collected ++ batch)
            else getPages perPage maxItems get turns (page + 1) (collected ++ batch)
      else .ok collected

def getAllPaged {α : Type} (perPage maxItems : Nat) (get : Nat → Except Fault (List α)) :
    Except Fault (PagedResult α) :=
  match getPages perPage maxItems get (maxItems + 1) 1 [] with
  | .error fault => .error fault
  | .ok collected => .ok ⟨collected.take maxItems, maxItems < collected.length, maxItems⟩

/-! ### The API graph -/

/-- An entry of the commit list; `committerDate` is missing when the response has no date or an
empty one. -/
structure CommitSummary where
  sha : Sha
  parents : List Sha
  committerDate : Option Instant
  deriving DecidableEq, Repr

/-- `new Map(commits.map((commit) => [commit.sha, commit])).get(sha)` -/
def findCommit (commits : List CommitSummary) (sha : Sha) : Option CommitSummary :=
  commits.reverse.find? fun commit => commit.sha = sha

/-- What the loop of `firstParentChain` ends with: the chain so far and the cursor. -/
def chainEnd (fromSha : Option Sha) (toSha : Sha) (cursor : Option Sha) (chain : List Sha) :
    Except Fault (List Sha) :=
  if fromSha ≠ none ∧ cursor ≠ fromSha then
    .error (.error ("구간의 시작 " ++ fromSha.getD "" ++ "이 " ++ toSha ++
      "의 first-parent 체인에 없다"))
  else .ok chain.reverse

/-- `while (cursor !== null && cursor !== from) { … }` -/
def walk (commits : List CommitSummary) (toSha : Sha) (fromSha : Option Sha) :
    Nat → Option Sha → List Sha → Option (Except Fault (List Sha))
  | 0, _, _ => none
  | _ + 1, none, chain => some (chainEnd fromSha toSha none chain)
  | fuel + 1, some sha, chain =>
      if some sha = fromSha then some (chainEnd fromSha toSha (some sha) chain)
      else
        match findCommit commits sha with
        | none =>
            some (.error (.error ("부모 체인이 끊겼다: " ++ sha ++ "를 목록에서 찾을 수 없다")))
        | some node => walk commits toSha fromSha fuel node.parents.head? (chain ++ [sha])

def firstParentChain (fuel : Nat) (commits : List CommitSummary) (range : RevRange) :
    Option (Except Fault (List Sha)) :=
  walk commits range.toSha range.fromSha fuel (some range.toSha) []

/-- What the server answers: pages of `GET /commits?sha=…`. -/
structure ApiCommitGraph where
  listCommits : Sha → (perPage page : Nat) → Except Fault (List CommitSummary)
  perPage : Nat := 100
  maxCommits : Option Nat := none

def defaultMaxApiCommits : Nat := 5000

namespace ApiCommitGraph

def max (graph : ApiCommitGraph) : Nat := graph.maxCommits.getD defaultMaxApiCommits

/-- The list and the chain of one answer. -/
def loadChain (graph : ApiCommitGraph) (fuel : Nat) (range : RevRange) :
    Option (Except Fault (List CommitSummary × List Sha)) :=
  match range.check (.graph "api") with
  | .error fault => some (.error fault)
  | .ok () =>
      match getAllPaged graph.perPage graph.max (graph.listCommits range.toSha graph.perPage) with
      | .error fault => some (.error fault)
      | .ok page =>
          if page.truncated then
            some (.error (.graph "api" ("체인 재구성에 필요한 커밋이 상한 " ++ toString graph.max ++
              "건을 넘는다 — 잘린 체인으로 채번하지 않는다")))
          else
            match firstParentChain fuel page.items range with
            | none => none
            | some (.error (.error message)) => some (.error (.graph "api" message))
            | some (.error fault) => some (.error fault)
            | some (.ok chain) => some (.ok (page.items, chain))

def firstParentRevList (graph : ApiCommitGraph) (fuel : Nat) (range : RevRange) :
    Option (Except Fault (List Sha)) :=
  (graph.loadChain fuel range).map fun
    | .error fault => .error fault
    | .ok (_, chain) => .ok chain

/-- The last date that the list has for a commit. -/
def dateBySha (items : List CommitSummary) (sha : Sha) : Option Instant :=
  (items.reverse.find? fun commit => commit.sha = sha ∧ commit.committerDate.isSome).bind
    CommitSummary.committerDate

def withDate (items : List CommitSummary) (sha : Sha) : Except Fault FirstParentCommit :=
  match dateBySha items sha with
  | none => .error (.graph "api" ("커밋 시각을 주지 않았다: " ++ sha))
  | some committedAt => .ok ⟨sha, committedAt⟩

def firstParentCommits (graph : ApiCommitGraph) (fuel : Nat) (range : RevRange) :
    Option (Except Fault (List FirstParentCommit)) :=
  (graph.loadChain fuel range).map fun
    | .error fault => .error fault
    | .ok (items, chain) => chain.mapM (withDate items)

end ApiCommitGraph

/-! ### The mirror and the fallback -/

/-- `git log --first-parent --reverse` on a mirror of `g`: the first-parent chain of the end without
what the start reaches along any parents. A commit that the mirror does not have is refused. -/
def mirrorRevList (g : Dag Sha) (range : RevRange) : Except Fault (List Sha) :=
  match range.check .error with
  | .error fault => .error fault
  | .ok () =>
      if range.toSha ∈ g ∧ ∀ base ∈ range.fromSha, base ∈ g then
        .ok (g.range range.fromSha range.toSha)
      else .error (.graph "mirror" "git log 실패 (128): bad object")

/-- `#try`: the fallback answers when the primary throws. -/
def fallback {α : Type} (primary : Except Fault α) (secondary : Option (Except Fault α)) :
    Option (Except Fault α) :=
  match primary with
  | .ok answer => some (.ok answer)
  | .error _ => secondary

end PrSearch.Graph
