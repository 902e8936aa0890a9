import Mathlib.Logic.Function.Basic
import PrSearch.Lib.Automaton

/-! # Access scopes and their caches

`AccessScopeResolver.resolveCached` for one user, in any number of processes: Redis, then the
`permission_cache` row, then a refresh from the source that the calls of one process share. A
refresh reads the user's version first and its row is written only while that version stands; an
invalidation raises the version and deletes the row at once, and deletes the Redis key afterwards.
Every port call is one step, and any of them may fail; the caller's clock is read anew at each step.
Slots for refreshes, which other users take as well, only delay the step after `readUser`.

Beside each scope the model keeps the version of the user at the moment its fetch began, and beside
each call the version that the last invalidation completed before it had left.
-/
namespace PrSearch.Authz

/-- Milliseconds. -/
abbrev Instant := Int

def cacheTtlMs : Int := 5 * 60 * 1000

structure CachedScope where
  repositoryIds : List Int
  orgIds : List Int
  teamIds : List Int
  visibilities : List String
  refreshedAt : Instant
  version : Nat
  deriving DecidableEq, Repr

structure RawAccessScope where
  repositoryIds : List Int
  orgIds : List Int
  teamIds : List Int
  visibilities : List String
  deriving DecidableEq, Repr

/-- A scope, and the version of the user when its source fetch began. -/
structure Fetched where
  scope : CachedScope
  began : Nat
  deriving DecidableEq, Repr

def isFresh (now : Instant) (scope : CachedScope) : Prop := now - scope.refreshedAt < cacheTtlMs

instance (now : Instant) (scope : CachedScope) : Decidable (isFresh now scope) :=
  inferInstanceAs (Decidable (_ < _))

/-- `Math.ceil((scope.refreshedAt + CACHE_TTL_MS - now) / 1000)` -/
def remaining (now : Instant) (scope : CachedScope) : Int :=
  -((now - (scope.refreshedAt + cacheTtlMs)) / 1000)

/-- Where a `resolveCached` call is, with the version that was revoked up to when it started. -/
inductive Call
  | idle
  | readingRedis (revoked : Nat)
  | readingCache (revoked : Nat)
  | writingBack (revoked : Nat) (scope : Fetched)
  | waiting (revoked : Nat)
  | returned (revoked : Nat) (scope : Fetched)
  | thrown
  deriving DecidableEq, Repr

/-- Where `#refreshOnce` is. -/
inductive Refresh
  | readingUser
  | acquiring (versionAtStart : Nat)
  | fetching (versionAtStart began : Nat)
  | writingCache (scope : Fetched)
  | writingRedis (scope : Fetched)
  | ended (scope : Option Fetched)
  deriving DecidableEq, Repr

/-- One user: the row of `app_user`, the two caches, the refresh in flight in each process, the
calls, and the versions of invalidations whose Redis key is still to be deleted. -/
structure World (P C : Type) where
  version : Nat
  cache : Option Fetched
  redis : Option Fetched
  inFlight : P → Option Refresh
  calls : C → Call
  forgetting : List Nat
  /-- The version that the latest completed invalidation left. -/
  revoked : Nat

inductive Action (P C : Type)
  | resolve (c : C)
  | readRedis (c : C) (now : Instant) (fails : Bool)
  | readCache (c : C) (now : Instant)
  | writeBack (c : C) (now : Instant) (fails : Bool)
  | readUser (p : P)
  | fetch (p : P)
  | fetched (p : P) (raw : RawAccessScope) (now : Instant)
  | writeCache (p : P) (refreshedAt : Instant)
  | writeRedis (p : P) (now : Instant) (fails : Bool)
  /-- The call that a refresh waits for throws, or the user is not registered. -/
  | refreshFails (p : P)
  /-- `readCache` throws. -/
  | callFails (c : C)
  | settle (p : P)
  /-- The Redis key runs out. -/
  | expire
  | invalidateUsers
  | forget (version : Nat)

namespace World

variable {P C : Type} [DecidableEq P] [DecidableEq C]

def initial (version : Nat) : World P C where
  version := version
  cache := none
  redis := none
  inFlight := fun _ => none
  calls := fun _ => .idle
  forgetting := []
  revoked := 0

def setCall (s : World P C) (c : C) (call : Call) : World P C :=
  { s with calls := Function.update s.calls c call }

def setRefresh (s : World P C) (p : P) (refresh : Option Refresh) : World P C :=
  { s with inFlight := Function.update s.inFlight p refresh }

/-- `#writeRedis`: a scope about to run out is not written, and a failure is swallowed. -/
def storeRedis (s : World P C) (now : Instant) (fails : Bool) (scope : Fetched) : World P C :=
  if remaining now scope.scope ≤ 0 ∨ fails then s else { s with redis := some scope }

/-- `#refresh`: join the refresh in flight, or start one. -/
def refresh (s : World P C) (p : P) : World P C :=
  match s.inFlight p with
  | some _ => s
  | none => s.setRefresh p (some .readingUser)

/-- `writePermissionCache`: the row is written only while the version stands. -/
def writePermissionCache (s : World P C) (scope : Fetched) (refreshedAt : Instant) :
    Option (World P C) :=
  if s.version = scope.scope.version ∧
      ∀ row ∈ s.cache, row.scope.version ≤ scope.scope.version then
    some { s with cache := some ⟨{ scope.scope with refreshedAt := refreshedAt }, scope.began⟩ }
  else none

def step (home : C → P) (s : World P C) : Action P C → Option (World P C)
  | .resolve c =>
      match s.calls c with
      | .idle => some (s.setCall c (.readingRedis s.revoked))
      | _ => none
  | .readRedis c now fails =>
      match s.calls c with
      | .readingRedis revoked =>
          match s.redis with
          | none => some (s.setCall c (.readingCache revoked))
          | some scope =>
              if fails = false ∧ isFresh now scope.scope then
                some (s.setCall c (.returned revoked scope))
              else some (s.setCall c (.readingCache revoked))
      | _ => none
  | .readCache c now =>
      match s.calls c with
      | .readingCache revoked =>
          match s.cache with
          | none => some ((s.refresh (home c)).setCall c (.waiting revoked))
          | some scope =>
              if isFresh now scope.scope then some (s.setCall c (.writingBack revoked scope))
              else some ((s.refresh (home c)).setCall c (.waiting revoked))
      | _ => none
  | .writeBack c now fails =>
      match s.calls c with
      | .writingBack revoked scope =>
          some ((s.storeRedis now fails scope).setCall c (.returned revoked scope))
      | _ => none
  | .readUser p =>
      match s.inFlight p with
      | some .readingUser => some (s.setRefresh p (some (.acquiring s.version)))
      | _ => none
  | .fetch p =>
      match s.inFlight p with
      | some (.acquiring versionAtStart) =>
          some (s.setRefresh p (some (.fetching versionAtStart s.version)))
      | _ => none
  | .fetched p raw now =>
      match s.inFlight p with
      | some (.fetching versionAtStart began) =>
          some (s.setRefresh p (some (.writingCache ⟨⟨raw.repositoryIds, raw.orgIds, raw.teamIds,
            raw.visibilities, now, versionAtStart⟩, began⟩)))
      | _ => none
  | .writeCache p refreshedAt =>
      match s.inFlight p with
      | some (.writingCache scope) =>
          match s.writePermissionCache scope refreshedAt with
          | some written => some (written.setRefresh p (some (.writingRedis scope)))
          | none => some (s.setRefresh p (some (.ended (some scope))))
      | _ => none
  | .writeRedis p now fails =>
      match s.inFlight p with
      | some (.writingRedis scope) =>
          some ((s.storeRedis now fails scope).setRefresh p (some (.ended (some scope))))
      | _ => none
  | .refreshFails p =>
      match s.inFlight p with
      | some .readingUser | some (.fetching ..) | some (.writingCache _) =>
          some (s.setRefresh p (some (.ended none)))
      | _ => none
  | .callFails c =>
      match s.calls c with
      | .readingCache _ => some (s.setCall c .thrown)
      | _ => none
  | .settle p =>
      match s.inFlight p with
      | some (.ended answer) =>
          some { s.setRefresh p none with
            calls := fun c =>
              match s.calls c with
              | .waiting revoked =>
                  if home c = p then
                    match answer with
                    | some scope => .returned revoked scope
                    | none => .thrown
                  else .waiting revoked
              | call => call }
      | _ => none
  | .expire => some { s with redis := none }
  | .invalidateUsers =>
      some { s with
        version := s.version + 1
        cache := none
        forgetting := (s.version + 1) :: s.forgetting }
  | .forget version =>
      if version ∈ s.forgetting then
        some { s with
          redis := none
          forgetting := s.forgetting.erase version
          revoked := max s.revoked version }
      else none

end World

def resolving {P C : Type} [DecidableEq P] [DecidableEq C] (home : C → P) :
    Automaton (World P C) (Action P C) :=
  ⟨World.step home⟩

/-! ### What is promised -/

/-- The version at which the fetch of a refresh began, once it has. -/
def Refresh.began : Refresh → Option Nat
  | fetching _ began => some began
  | writingCache scope | writingRedis scope => some scope.began
  | ended scope => scope.map Fetched.began
  | _ => none

/-- The scope that Redis is about to be written with. -/
def Refresh.writing : Refresh → Option Fetched
  | writingRedis scope => some scope
  | _ => none

def Call.writing : Call → Option Fetched
  | writingBack _ scope => some scope
  | _ => none

/-- What was revoked before a call that is about to read the row. -/
def Call.reading : Call → Option Nat
  | readingCache revoked => some revoked
  | _ => none

namespace World

variable {P C : Type}

/-- No call has returned a scope whose fetch began before an invalidation that had been completed
when the call started. -/
def RevokedStaysAway (s : World P C) : Prop :=
  ∀ c revoked scope, s.calls c = .returned revoked scope → revoked ≤ scope.began

/-- Redis is written before an invalidation completes that began after the scope's version was read,
and a call does not join a fetch that began before an invalidation completed before the call. -/
def Timely (home : C → P) (s : World P C) : Action P C → Prop
  | .writeBack c _ _ => ∀ scope ∈ (s.calls c).writing, s.revoked ≤ scope.scope.version
  | .writeRedis p _ _ =>
      ∀ refresh ∈ s.inFlight p, ∀ scope ∈ refresh.writing, s.revoked ≤ scope.scope.version
  | .readCache c now =>
      ∀ revoked ∈ (s.calls c).reading, (∀ row ∈ s.cache, ¬ isFresh now row.scope) →
        ∀ refresh ∈ s.inFlight (home c), ∀ began ∈ refresh.began, revoked ≤ began
  | _ => True

instance (home : C → P) (s : World P C) : DecidablePred (s.Timely home)
  | .writeBack .. => inferInstanceAs (Decidable (∀ _ ∈ _, _))
  | .writeRedis .. => inferInstanceAs (Decidable (∀ _ ∈ _, ∀ _ ∈ _, _))
  | .readCache .. =>
      inferInstanceAs (Decidable (∀ _ ∈ _, (∀ _ ∈ _, _) → ∀ _ ∈ _, ∀ _ ∈ _, _))
  | .resolve .. | .readRedis .. | .readUser .. | .fetch .. | .fetched .. | .writeCache ..
  | .refreshFails .. | .callFails .. | .settle .. | .expire | .invalidateUsers | .forget .. =>
      inferInstanceAs (Decidable True)

end World
end PrSearch.Authz
