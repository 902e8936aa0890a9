import Mathlib.Data.Fintype.Basic
import PrSearch.Authz.ScopeForms

/-! # Invalidation by repository

`applyInvalidation` for any number of events, among the refreshes of any number of users in any
number of processes. An invalidation collects users from four lookups, one statement each, raises
their versions and deletes their rows in one statement, and forgets their Redis keys. A refresh reads
the version of its user, fetches, and writes the row while that version stands.

The repository lookup goes by the rows of `permission_cache`, so it does not see a user whose row is
not there while a refresh of theirs is in flight.

The answer that a fetch will give is carried from its start. Beside it the model keeps how many
invalidations had started by then, and with each invalidation the how manieth it is. When a row was
refreshed, which no lookup reads, is left out. With no user to invalidate the last two statements do
nothing, and stand for the early return.
-/
namespace PrSearch.Authz.Invalidation

/-- A fetch of one user's scope, or the row it became. -/
structure Fetch where
  raw : RawAccessScope
  version : Nat
  began : Nat
  deriving DecidableEq, Repr

/-- The scope holds the repository, by its identifier or through its organisation. -/
def Fetch.includes (fetch : Fetch) (repositoryId : Int) (orgId : Option Int) : Bool :=
  repositoryId ∈ fetch.raw.repositoryIds ||
    (shouldUseOrgTeamScope fetch.raw.repositoryIds.length && orgId.any (· ∈ fetch.raw.orgIds))

/-- Where `#refreshOnce` is. -/
inductive Refresh
  | acquiring (versionAtStart : Nat)
  | fetching (fetch : Fetch)
  | writing (fetch : Fetch)
  deriving DecidableEq, Repr

namespace Refresh

def fetch : Refresh → Option Fetch
  | acquiring _ => none
  | fetching fetch | writing fetch => some fetch

def version : Refresh → Nat
  | acquiring versionAtStart => versionAtStart
  | fetching fetch | writing fetch => fetch.version

theorem version_of_fetch {refresh : Refresh} {carried : Fetch}
    (carries : refresh.fetch = some carried) : refresh.version = carried.version := by
  cases refresh with
  | acquiring versionAtStart => cases carries
  | fetching other => cases carries; rfl
  | writing other => cases carries; rfl

end Refresh

/-- `PermissionInvalidated` -/
structure Payload where
  userIds : List Int
  logins : List String
  teamId : Option Int
  repositoryId : Option Int
  deriving DecidableEq, Repr

structure Context where
  org : Option String
  teamSlug : Option String
  orgId : Option Int
  deriving DecidableEq, Repr

/-- The statement that comes next. -/
inductive Phase
  | findingByGithubIds
  | findingByLogins
  | listingTeam
  | askingGitHub
  | deletingTeam
  | insertingTeam
  | relistingTeam
  | findingAffected
  | invalidating
  | forgetting
  | completed
  | failed
  deriving DecidableEq, Repr

/-- The users are not known yet, or never will be. -/
def Phase.looking : Phase → Bool
  | invalidating | forgetting | completed => false
  | _ => true

/-- A call of `applyInvalidation` with the answers of its lookups. -/
structure Call (U : Type) where
  payload : Payload
  context : Context
  started : Nat
  phase : Phase
  byGithubIds : U → Bool
  byLogins : U → Bool
  /-- Listed as members of the team, before its refresh or after. -/
  members : U → Bool
  /-- What GitHub answered, by the users it is about. -/
  answered : U → Bool
  affected : U → Bool

/-- The user is found by what the payload names, not by the repository. -/
def Call.named {U : Type} (call : Call U) (user : U) : Bool :=
  call.byGithubIds user || call.byLogins user || call.members user

def Call.targets {U : Type} (call : Call U) (user : U) : Bool :=
  call.named user || call.affected user

/-- What does not change: the accounts of the users, whether there is a GitHub client, and the
organisation of each repository. -/
structure Setting (U : Type) where
  githubUserId : U → Option Int
  login : U → String
  canRefresh : Bool
  orgOf : Int → Option Int

structure World (U P I : Type) where
  /-- How many invalidations have started. -/
  now : Nat
  version : U → Nat
  cache : U → Option Fetch
  inFlight : P → U → Option Refresh
  teamMembers : Int → U → Bool
  calls : I → Option (Call U)

/-- One statement of a call, or one question to GitHub with its answer. -/
inductive Statement
  | findUserIdsByGithubIds
  | findUserIdsByLogins
  | listTeamMembers
  | askGitHub (members : List Int)
  | deleteTeamMembers
  | insertTeamMembers
  | relistTeamMembers
  | findUsersAffectedByRepository
  | invalidateUsers
  | forgetCached

def Statement.phase : Statement → Phase
  | findUserIdsByGithubIds => .findingByGithubIds
  | findUserIdsByLogins => .findingByLogins
  | listTeamMembers => .listingTeam
  | askGitHub _ => .askingGitHub
  | deleteTeamMembers => .deletingTeam
  | insertTeamMembers => .insertingTeam
  | relistTeamMembers => .relistingTeam
  | findUsersAffectedByRepository => .findingAffected
  | invalidateUsers => .invalidating
  | forgetCached => .forgetting

inductive Action (U P I : Type)
  | readUser (p : P) (user : U)
  | fetch (p : P) (user : U) (raw : RawAccessScope)
  | fetched (p : P) (user : U)
  | writeCache (p : P) (user : U)
  /-- The refresh throws, or the process ends. -/
  | refreshFails (p : P) (user : U)
  | applyInvalidation (i : I) (payload : Payload) (context : Context)
  | perform (i : I) (statement : Statement)
  /-- A port throws, or the process ends. -/
  | callFails (i : I)

namespace World

variable {U P I : Type} [DecidableEq U] [DecidableEq P] [DecidableEq I]

def initial (version : U → Nat) : World U P I where
  now := 0
  version := version
  cache := fun _ => none
  inFlight := fun _ _ => none
  teamMembers := fun _ _ => false
  calls := fun _ => none

def setRefresh (s : World U P I) (p : P) (user : U) (refresh : Option Refresh) : World U P I :=
  { s with inFlight := Function.update s.inFlight p (Function.update (s.inFlight p) user refresh) }

def setCall (s : World U P I) (i : I) (call : Call U) : World U P I :=
  { s with calls := Function.update s.calls i (some call) }

/-- `writePermissionCache`, whether the row is written or not. -/
def writePermissionCache (s : World U P I) (user : U) (fetch : Fetch) : World U P I :=
  if s.version user = fetch.version ∧ ∀ row ∈ s.cache user, row.version ≤ fetch.version then
    { s with cache := Function.update s.cache user (some fetch) }
  else s

/-- After the team was listed: GitHub is asked when there is a client and the team has a name. -/
def afterListing (setting : Setting U) (context : Context) : Phase :=
  if setting.canRefresh ∧ context.org.isSome ∧ context.teamSlug.isSome then .askingGitHub
  else .findingAffected

def setTeam (s : World U P I) (teamId : Option Int) (members : Int → U → Bool) : World U P I :=
  match teamId with
  | none => s
  | some teamId =>
      { s with teamMembers := Function.update s.teamMembers teamId (members teamId) }

/-- `invalidateUsers`: the versions are raised and the rows deleted in one statement. -/
def invalidateUsers (s : World U P I) (targets : U → Bool) : World U P I :=
  { s with
    version := fun user => if targets user then s.version user + 1 else s.version user
    cache := fun user => if targets user then none else s.cache user }

def perform (setting : Setting U) (s : World U P I) (i : I) (call : Call U) :
    Statement → World U P I
  | .findUserIdsByGithubIds =>
      s.setCall i { call with
        phase := .findingByLogins
        byGithubIds := fun user => (setting.githubUserId user).any (· ∈ call.payload.userIds) }
  | .findUserIdsByLogins =>
      s.setCall i { call with
        phase := if call.payload.teamId.isSome then .listingTeam else .findingAffected
        byLogins := fun user => setting.login user ∈ call.payload.logins }
  | .listTeamMembers =>
      s.setCall i { call with
        phase := afterListing setting call.context
        members := fun user => call.payload.teamId.any (s.teamMembers · user) }
  | .askGitHub members =>
      s.setCall i { call with
        phase := .deletingTeam
        answered := fun user => (setting.githubUserId user).any (· ∈ members) }
  | .deleteTeamMembers =>
      (s.setTeam call.payload.teamId fun _ _ => false).setCall i
        { call with phase := .insertingTeam }
  | .insertTeamMembers =>
      (s.setTeam call.payload.teamId fun teamId user =>
        s.teamMembers teamId user || call.answered user).setCall i
          { call with phase := .relistingTeam }
  | .relistTeamMembers =>
      s.setCall i { call with
        phase := .findingAffected
        members := fun user =>
          call.members user || call.payload.teamId.any (s.teamMembers · user) }
  | .findUsersAffectedByRepository =>
      s.setCall i { call with
        phase := .invalidating
        affected := fun user => call.payload.repositoryId.any fun repositoryId =>
          (s.cache user).any (·.includes repositoryId call.context.orgId) }
  | .invalidateUsers =>
      (s.invalidateUsers call.targets).setCall i { call with phase := .forgetting }
  | .forgetCached => s.setCall i { call with phase := .completed }

def step (setting : Setting U) (s : World U P I) : Action U P I → Option (World U P I)
  | .readUser p user =>
      match s.inFlight p user with
      | none => some (s.setRefresh p user (some (.acquiring (s.version user))))
      | some _ => none
  | .fetch p user raw =>
      match s.inFlight p user with
      | some (.acquiring versionAtStart) =>
          some (s.setRefresh p user (some (.fetching ⟨raw, versionAtStart, s.now⟩)))
      | _ => none
  | .fetched p user =>
      match s.inFlight p user with
      | some (.fetching fetch) => some (s.setRefresh p user (some (.writing fetch)))
      | _ => none
  | .writeCache p user =>
      match s.inFlight p user with
      | some (.writing fetch) =>
          some ((s.writePermissionCache user fetch).setRefresh p user none)
      | _ => none
  | .refreshFails p user => some (s.setRefresh p user none)
  | .applyInvalidation i payload context =>
      match s.calls i with
      | none =>
          some ({ s with now := s.now + 1 }.setCall i
            ⟨payload, context, s.now + 1, .findingByGithubIds, fun _ => false, fun _ => false,
              fun _ => false, fun _ => false, fun _ => false⟩)
      | some _ => none
  | .perform i statement =>
      match s.calls i with
      | some call =>
          if call.phase = statement.phase then some (s.perform setting i call statement) else none
      | none => none
  | .callFails i =>
      match s.calls i with
      | some call =>
          if call.phase = .completed then none else some (s.setCall i { call with phase := .failed })
      | none => none

end World

def invalidating {U P I : Type} [DecidableEq U] [DecidableEq P] [DecidableEq I]
    (setting : Setting U) : Automaton (World U P I) (Action U P I) :=
  ⟨World.step setting⟩

/-! ### What is promised -/

namespace World

variable {U P I : Type} (setting : Setting U)

/-- The user holds the repository from a fetch that began before the given invalidation: in the row,
or in a refresh in flight. -/
def Holds (s : World U P I) (user : U) (repositoryId : Int) (started : Nat) : Prop :=
  (∃ row ∈ s.cache user, row.began < started ∧
      row.includes repositoryId (setting.orgOf repositoryId) = true) ∨
    ∃ p, ∃ refresh ∈ s.inFlight p user, ∃ fetch ∈ refresh.fetch, fetch.began < started ∧
      fetch.includes repositoryId (setting.orgOf repositoryId) = true

/-- No row holds the repository from before the invalidation, and the version of every user with
such a refresh in flight was raised since the refresh read it, so that it will not become a row. -/
def Fenced (s : World U P I) (call : Call U) : Prop :=
  ∀ repositoryId ∈ call.payload.repositoryId, ∀ user,
    (∀ row ∈ s.cache user, row.includes repositoryId (setting.orgOf repositoryId) = true →
        call.started ≤ row.began) ∧
      ∀ p, ∀ refresh ∈ s.inFlight p user, ∀ fetch ∈ refresh.fetch,
        fetch.includes repositoryId (setting.orgOf repositoryId) = true →
          call.started ≤ fetch.began ∨ fetch.version < s.version user

/-- The repository is out of reach once its invalidation has completed. -/
def Reached (s : World U P I) : Prop :=
  ∀ i, ∀ call ∈ s.calls i, call.phase = .completed → s.Fenced setting call

/-- When the rows are looked up, each user who holds the repository from before is named by the
payload or has a row that the query finds. -/
def Findable (s : World U P I) : Action U P I → Prop
  | .perform i .findUsersAffectedByRepository =>
      ∀ call ∈ s.calls i, ∀ repositoryId ∈ call.payload.repositoryId, ∀ user,
        s.Holds setting user repositoryId call.started → call.named user = true ∨
          ∃ row ∈ s.cache user, row.includes repositoryId call.context.orgId = true
  | _ => True

instance [Fintype P] (s : World U P I) (user : U) (repositoryId : Int) (started : Nat) :
    Decidable (s.Holds setting user repositoryId started) :=
  inferInstanceAs (Decidable (_ ∨ ∃ _, ∃ _ ∈ _, ∃ _ ∈ _, _))

instance [Fintype U] [Fintype P] (s : World U P I) : DecidablePred (s.Findable setting)
  | .perform _ .findUsersAffectedByRepository =>
      inferInstanceAs (Decidable (∀ _ ∈ _, ∀ _ ∈ _, ∀ _, _ → _ ∨ ∃ _ ∈ _, _))
  | .readUser .. | .fetch .. | .fetched .. | .writeCache .. | .refreshFails ..
  | .applyInvalidation .. | .callFails .. | .perform _ .findUserIdsByGithubIds
  | .perform _ .findUserIdsByLogins | .perform _ .listTeamMembers | .perform _ (.askGitHub _)
  | .perform _ .deleteTeamMembers | .perform _ .insertTeamMembers | .perform _ .relistTeamMembers
  | .perform _ .invalidateUsers | .perform _ .forgetCached => inferInstanceAs (Decidable True)

/-! ### What a step can do -/

/-- A row was there before or comes from a refresh on the present version; a fetch in flight was in
flight before or begins now. -/
structure Evolves (s next : World U P I) : Prop where
  now : s.now ≤ next.now
  version : ∀ user, s.version user ≤ next.version user
  rows : ∀ user row, next.cache user = some row → s.cache user = some row ∨
    ∃ p refresh, s.inFlight p user = some refresh ∧ refresh.fetch = some row ∧
      row.version = s.version user
  fetches : ∀ p user refresh fetch, next.inFlight p user = some refresh →
    refresh.fetch = some fetch →
      (∃ old, s.inFlight p user = some old ∧ old.fetch = some fetch) ∨ s.now ≤ fetch.began
  versions : ∀ p user refresh, next.inFlight p user = some refresh →
    refresh.version ≤ s.version user ∨
      ∃ old, s.inFlight p user = some old ∧ old.version = refresh.version

variable {user : U} {call : Call U} {i : I}

section Steps

variable [DecidableEq U] [DecidableEq P] [DecidableEq I]

theorem Evolves.of_same {s next : World U P I} (now : s.now ≤ next.now)
    (version : next.version = s.version) (cache : next.cache = s.cache)
    (inFlight : next.inFlight = s.inFlight) : s.Evolves next where
  now := now
  version user := by rw [version]
  rows user row held := .inl (by rwa [cache] at held)
  fetches p user refresh fetch held carried := .inl ⟨refresh, by rwa [inFlight] at held, carried⟩
  versions p user refresh held := .inr ⟨refresh, by rwa [inFlight] at held, rfl⟩

theorem inFlight_setRefresh (s : World U P I) (p q : P) (user other : U)
    (refresh : Option Refresh) :
    (s.setRefresh p user refresh).inFlight q other =
      if q = p ∧ other = user then refresh else s.inFlight q other := by
  rw [World.setRefresh]
  by_cases process : q = p
  · subst process
    by_cases same : other = user
    · subst same
      simp
    · simp [same]
  · simp [process]

/-- One refresh moves on. -/
theorem Evolves.setRefresh {s : World U P I} {p : P} {refresh : Option Refresh}
    (carries : ∀ moved, refresh = some moved → ∀ fetch, moved.fetch = some fetch →
      (∃ old, s.inFlight p user = some old ∧ old.fetch = some fetch) ∨ s.now ≤ fetch.began)
    (version : ∀ moved, refresh = some moved → moved.version ≤ s.version user ∨
      ∃ old, s.inFlight p user = some old ∧ old.version = moved.version) :
    s.Evolves (s.setRefresh p user refresh) where
  now := le_rfl
  version _ := le_rfl
  rows _ _ held := .inl held
  fetches q other moved fetch held carried := by
    rw [inFlight_setRefresh] at held
    split_ifs at held with here
    · obtain ⟨rfl, rfl⟩ := here
      exact carries moved held fetch carried
    · exact .inl ⟨moved, held, carried⟩
  versions q other moved held := by
    rw [inFlight_setRefresh] at held
    split_ifs at held with here
    · obtain ⟨rfl, rfl⟩ := here
      exact version moved held
    · exact .inr ⟨moved, held, rfl⟩

/-- The refresh ends, and its row is written while the version stands. -/
theorem Evolves.writeCache {s : World U P I} {p : P} {fetch : Fetch}
    (writing : s.inFlight p user = some (.writing fetch)) :
    s.Evolves ((s.writePermissionCache user fetch).setRefresh p user none) := by
  have others : (s.writePermissionCache user fetch).inFlight = s.inFlight := by
    rw [writePermissionCache]
    split_ifs <;> rfl
  have versions : (s.writePermissionCache user fetch).version = s.version := by
    rw [writePermissionCache]
    split_ifs <;> rfl
  refine ⟨?_, fun other => ?_, fun other row held => ?_, fun q other refresh carried held taken => ?_,
    fun q other refresh held => ?_⟩
  · rw [writePermissionCache]
    split_ifs <;> exact le_rfl
  · exact (congrFun versions other).ge
  · rw [World.setRefresh, writePermissionCache] at held
    split_ifs at held with stands
    · by_cases same : other = user
      · subst same
        obtain rfl : fetch = row := by simpa using held
        exact .inr ⟨p, .writing fetch, writing, rfl, stands.1.symm⟩
      · exact .inl (by simpa [same] using held)
    · exact .inl held
  · rw [inFlight_setRefresh, others] at held
    split_ifs at held
    exact .inl ⟨refresh, held, taken⟩
  · rw [inFlight_setRefresh, others] at held
    split_ifs at held
    exact .inr ⟨refresh, held, rfl⟩

theorem Evolves.invalidateUsers (s : World U P I) (targets : U → Bool) :
    s.Evolves (s.invalidateUsers targets) where
  now := le_rfl
  version user := by
    rw [World.invalidateUsers]
    dsimp only
    split_ifs
    · exact Nat.le_succ _
    · exact le_rfl
  rows user row held := by
    rw [World.invalidateUsers] at held
    dsimp only at held
    split_ifs at held
    exact .inl held
  fetches p user refresh fetch held carried := .inl ⟨refresh, held, carried⟩
  versions p user refresh held := .inr ⟨refresh, held, rfl⟩

end Steps

/-! ### The invariant -/

/-- What is true of a call: the lookups have found all users who hold the repository from before it,
and once they are invalidated none of them does. -/
structure Settled (s : World U P I) (call : Call U) : Prop where
  started : call.started ≤ s.now
  found : call.phase = .invalidating → ∀ repositoryId ∈ call.payload.repositoryId, ∀ user,
    s.Holds setting user repositoryId call.started → call.targets user = true
  fenced : call.phase = .forgetting ∨ call.phase = .completed → s.Fenced setting call

structure Inv (s : World U P I) : Prop where
  versions : ∀ p user refresh, s.inFlight p user = some refresh → refresh.version ≤ s.version user
  calls : ∀ i call, s.calls i = some call → s.Settled setting call

section Keeping

variable {setting} {s next : World U P I}

theorem Evolves.holds (evolves : s.Evolves next) {repositoryId : Int} {started : Nat}
    (earlier : started ≤ s.now) (holds : next.Holds setting user repositoryId started) :
    s.Holds setting user repositoryId started := by
  rcases holds with ⟨row, held, before, included⟩ | ⟨p, refresh, held, fetch, carried, before, included⟩
  · rcases evolves.rows user row held with kept | ⟨p, refresh, held, carried, _⟩
    · exact .inl ⟨row, kept, before, included⟩
    · exact .inr ⟨p, refresh, held, row, carried, before, included⟩
  · rcases evolves.fetches p user refresh fetch held carried with ⟨old, was, had⟩ | begins
    · exact .inr ⟨p, old, was, fetch, had, before, included⟩
    · omega

theorem Evolves.fenced (evolves : s.Evolves next) (earlier : call.started ≤ s.now)
    (fenced : s.Fenced setting call) : next.Fenced setting call := by
  intro repositoryId mine user
  obtain ⟨rows, refreshes⟩ := fenced repositoryId mine user
  constructor
  · intro row held included
    rcases evolves.rows user row held with kept | ⟨p, refresh, was, carried, version⟩
    · exact rows row kept included
    · -- a refresh that was overtaken does not write its row
      rcases refreshes p refresh was row carried included with later | overtaken
      · exact later
      · omega
  · intro p refresh held fetch carried included
    rcases evolves.fetches p user refresh fetch held carried with ⟨old, was, had⟩ | begins
    · have higher := evolves.version user
      rcases refreshes p old was fetch had included with later | overtaken
      · exact .inl later
      · exact .inr (by omega)
    · exact .inl (by omega)

theorem Evolves.settled (evolves : s.Evolves next) (settled : s.Settled setting call) :
    next.Settled setting call where
  started := settled.started.trans evolves.now
  found phase repositoryId mine user holds :=
    settled.found phase repositoryId mine user (evolves.holds settled.started holds)
  fenced phase := evolves.fenced settled.started (settled.fenced phase)

/-- What a step keeps, if it leaves the calls alone or the call it changes is settled. -/
theorem Evolves.inv (evolves : s.Evolves next) (inv : s.Inv setting)
    (changed : ∀ i call, next.calls i = some call →
      s.calls i = some call ∨ next.Settled setting call) : next.Inv setting where
  versions p user refresh held := by
    have higher := evolves.version user
    rcases evolves.versions p user refresh held with within | ⟨old, was, same⟩
    · exact within.trans higher
    · exact same ▸ (inv.versions p user old was).trans higher
  calls i call held := by
    rcases changed i call held with same | settled
    · exact evolves.settled (inv.calls i call same)
    · exact settled

/-- A call that is still looking users up, or has failed. -/
theorem Settled.of_looking (started : call.started ≤ s.now) (looking : call.phase.looking = true) :
    s.Settled setting call where
  started := started
  found phase := by
    rw [phase] at looking
    cases looking
  fenced phase := by
    rcases phase with phase | phase
    all_goals
      rw [phase] at looking
      cases looking

/-- Whoever is a target is fenced by the raised version, and nobody else holds the repository. -/
theorem Inv.fenced_invalidateUsers (inv : s.Inv setting)
    (found : ∀ repositoryId ∈ call.payload.repositoryId, ∀ user,
      s.Holds setting user repositoryId call.started → call.targets user = true) :
    (s.invalidateUsers call.targets).Fenced setting call := by
  intro repositoryId mine user
  by_cases target : call.targets user = true
  · constructor
    · intro row held
      simp [World.invalidateUsers, target] at held
    · intro p refresh held fetch carried _
      have within := inv.versions p user refresh held
      rw [Refresh.version_of_fetch carried] at within
      right
      simp only [World.invalidateUsers, target, if_true]
      omega
  · have nothing := mt (found repositoryId mine user) target
    rw [Holds, not_or] at nothing
    constructor
    · intro row held included
      by_contra before
      simp only [World.invalidateUsers, target] at held
      exact nothing.1 ⟨row, held, by omega, included⟩
    · intro p refresh held fetch carried included
      by_contra before
      rw [not_or] at before
      exact nothing.2 ⟨p, refresh, held, fetch, carried, by omega, included⟩

variable [DecidableEq U] [DecidableEq P] [DecidableEq I]

theorem calls_setCall {j : I} {other : Call U} (held : (s.setCall i call).calls j = some other) :
    s.calls j = some other ∨ other = call := by
  change Function.update s.calls i (some call) j = some other at held
  by_cases same : j = i
  · subst same
    rw [Function.update_self] at held
    exact .inr (Option.some.inj held).symm
  · rw [Function.update_of_ne same] at held
    exact .inl held

theorem Evolves.setCall (s : World U P I) (i : I) (call : Call U) :
    s.Evolves (s.setCall i call) :=
  .of_same le_rfl rfl rfl rfl

/-- A step that touches one call only. -/
theorem Inv.setCall (inv : s.Inv setting) (settled : (s.setCall i call).Settled setting call) :
    (s.setCall i call).Inv setting := by
  refine (Evolves.setCall s i call).inv inv fun j other held => ?_
  rcases calls_setCall held with same | rfl
  · exact .inl same
  · exact .inr settled

theorem Inv.setTeam (inv : s.Inv setting) (teamId : Option Int) (members : Int → U → Bool) :
    (s.setTeam teamId members).Inv setting := by
  cases teamId with
  | none => exact inv
  | some teamId =>
    have evolves : s.Evolves (s.setTeam (some teamId) members) := .of_same le_rfl rfl rfl rfl
    exact evolves.inv inv fun i call held => .inl held

omit [DecidableEq U] [DecidableEq P] [DecidableEq I] in
theorem now_setTeam (s : World U P I) (teamId : Option Int) (members : Int → U → Bool) :
    (s.setTeam teamId members).now = s.now := by
  cases teamId <;> rfl

theorem Inv.perform (inv : s.Inv setting) {statement : Statement} (here : s.calls i = some call)
    (phase : call.phase = statement.phase) (findable : s.Findable setting (.perform i statement)) :
    (s.perform setting i call statement).Inv setting := by
  have settled := inv.calls i call here
  cases statement with
  | findUserIdsByGithubIds =>
    exact inv.setCall (.of_looking settled.started rfl)
  | findUserIdsByLogins =>
    refine inv.setCall (.of_looking settled.started ?_)
    dsimp only
    split_ifs <;> rfl
  | listTeamMembers =>
    refine inv.setCall (.of_looking settled.started ?_)
    dsimp only [afterListing]
    split_ifs <;> rfl
  | askGitHub members => exact inv.setCall (.of_looking settled.started rfl)
  | deleteTeamMembers =>
    refine (inv.setTeam _ _).setCall (.of_looking ?_ rfl)
    exact settled.started.trans (now_setTeam s _ _).ge
  | insertTeamMembers =>
    refine (inv.setTeam _ _).setCall (.of_looking ?_ rfl)
    exact settled.started.trans (now_setTeam s _ _).ge
  | relistTeamMembers => exact inv.setCall (.of_looking settled.started rfl)
  | findUsersAffectedByRepository =>
    refine inv.setCall ⟨settled.started, fun _ repositoryId mine user holds => ?_, ?_⟩
    · have before := (Evolves.setCall s i _).holds settled.started holds
      rcases findable call here repositoryId mine user before with named | ⟨row, held, included⟩
      · exact Bool.or_eq_true_iff.mpr (.inl named)
      · refine Bool.or_eq_true_iff.mpr (.inr ?_)
        have asked : call.payload.repositoryId = some repositoryId := mine
        have there : s.cache user = some row := held
        dsimp only
        rw [asked, there, Option.any_some, Option.any_some, included]
    · rintro (wrong | wrong) <;> cases wrong
  | invalidateUsers =>
    have fenced := inv.fenced_invalidateUsers (settled.found phase)
    have evolves := Evolves.invalidateUsers s call.targets
    have raised : (s.invalidateUsers call.targets).Inv setting :=
      evolves.inv inv fun j other held => .inl held
    refine raised.setCall ⟨settled.started, fun wrong => ?_, fun _ => ?_⟩
    · cases wrong
    · exact (Evolves.setCall _ i _).fenced settled.started fenced
  | forgetCached =>
    refine inv.setCall ⟨settled.started, fun wrong => ?_, fun _ => ?_⟩
    · cases wrong
    · exact (Evolves.setCall s i _).fenced settled.started (settled.fenced (.inl phase))

theorem Inv.step (inv : s.Inv setting) {action : Action U P I}
    (findable : s.Findable setting action) (stepped : World.step setting s action = some next) :
    next.Inv setting := by
  cases action with
  | readUser p user =>
    cases there : s.inFlight p user with
    | some refresh => simp [World.step, there] at stepped
    | none =>
      simp only [World.step, there, Option.some.injEq] at stepped
      subst stepped
      refine (Evolves.setRefresh ?_ ?_).inv inv fun i call held => .inl held
      · rintro moved ⟨⟩ fetch ⟨⟩
      · rintro moved ⟨⟩
        exact .inl le_rfl
  | fetch p user raw =>
    simp only [World.step] at stepped
    split at stepped
    next versionAtStart there =>
      cases stepped
      refine (Evolves.setRefresh ?_ ?_).inv inv fun i call held => .inl held
      · rintro moved ⟨⟩ fetch ⟨⟩
        exact .inr le_rfl
      · rintro moved ⟨⟩
        exact .inr ⟨_, there, rfl⟩
    · cases stepped
  | fetched p user =>
    simp only [World.step] at stepped
    split at stepped
    next fetch there =>
      cases stepped
      refine (Evolves.setRefresh ?_ ?_).inv inv fun i call held => .inl held
      · rintro moved ⟨⟩ carried ⟨⟩
        exact .inl ⟨_, there, rfl⟩
      · rintro moved ⟨⟩
        exact .inr ⟨_, there, rfl⟩
    · cases stepped
  | writeCache p user =>
    simp only [World.step] at stepped
    split at stepped
    next fetch there =>
      cases stepped
      have calls : ((s.writePermissionCache user fetch).setRefresh p user none).calls =
          s.calls := by
        rw [World.setRefresh, writePermissionCache]
        split_ifs <;> rfl
      exact (Evolves.writeCache there).inv inv fun i call held => .inl (calls ▸ held)
    · cases stepped
  | refreshFails p user =>
    obtain rfl := Option.some.inj stepped
    refine (Evolves.setRefresh ?_ ?_).inv inv fun i call held => .inl held
    · rintro moved ⟨⟩
    · rintro moved ⟨⟩
  | applyInvalidation i payload context =>
    cases there : s.calls i with
    | some call => simp [World.step, there] at stepped
    | none =>
      simp only [World.step, there, Option.some.injEq] at stepped
      subst stepped
      have evolves : s.Evolves { s with now := s.now + 1 } :=
        .of_same (Nat.le_succ _) rfl rfl rfl
      have ticked : ({ s with now := s.now + 1 } : World U P I).Inv setting :=
        evolves.inv inv fun j other held => .inl held
      exact ticked.setCall (.of_looking le_rfl rfl)
  | perform i statement =>
    cases there : s.calls i with
    | none => simp [World.step, there] at stepped
    | some call =>
      simp only [World.step, there] at stepped
      split_ifs at stepped with phase
      obtain rfl := Option.some.inj stepped
      exact inv.perform there phase findable
  | callFails i =>
    cases there : s.calls i with
    | none => simp [World.step, there] at stepped
    | some call =>
      simp only [World.step, there] at stepped
      split_ifs at stepped
      obtain rfl := Option.some.inj stepped
      exact inv.setCall (.of_looking (inv.calls i call there).started rfl)

omit [DecidableEq U] [DecidableEq P] [DecidableEq I] in
theorem Inv.initial (version : U → Nat) : (World.initial version : World U P I).Inv setting where
  versions _ _ _ held := by cases held
  calls _ _ held := by cases held

end Keeping

end World

variable {U P I : Type} [DecidableEq U] [DecidableEq P] [DecidableEq I]

/-- In a run in which every repository lookup can find all who hold the repository, no row holds it
from before an invalidation that has completed, and no refresh in flight can write one. -/
theorem invalidation_reaches_holders (setting : Setting U) (version : U → Nat)
    (actions : List (Action U P I))
    (findable : ∀ turn ∈ (invalidating setting).taken actions (.initial version),
      turn.1.Findable setting turn.2) :
    ∀ s ∈ (invalidating setting).visited actions (.initial version), s.Reached setting := by
  have step : ∀ (s : World U P I) action next, s.Inv setting → s.Findable setting action →
      (invalidating setting).step s action = some next → next.Inv setting :=
    fun _ _ _ inv found stepped => inv.step found stepped
  intro s visited i call held completed
  have inv := Automaton.visited_of_taken step (World.Inv.initial version) findable s visited
  exact (inv.calls i call held).fenced (.inr completed)

/-! ### A refresh that no row tells of -/

def acme : Setting Unit where
  githubUserId _ := some 100
  login _ := "kim"
  canRefresh := false
  orgOf _ := some 1

def repositoryEvent : Payload := ⟨[], [], none, some 7⟩

/-- The user has no row; a refresh has fetched repository 7 when the event comes, and writes the row
when the invalidation is over. -/
def unseen : List (Action Unit Unit Unit) :=
  [.readUser () (), .fetch () () ⟨[7], [], [], []⟩, .fetched () (),
    .applyInvalidation () repositoryEvent ⟨some "acme", none, some 1⟩,
    .perform () .findUserIdsByGithubIds, .perform () .findUserIdsByLogins,
    .perform () .findUsersAffectedByRepository, .perform () .invalidateUsers,
    .perform () .forgetCached, .writeCache () ()]

theorem unseen_refresh_writes_its_row :
    ¬ ∀ actions : List (Action Unit Unit Unit), ∀ s ∈ (invalidating acme).visited actions
      (.initial fun _ => 0), s.Reached acme := by
  intro promised
  have revived : ∃ s ∈ (invalidating acme).visited unseen (.initial fun _ => 0),
      s.cache () = some ⟨⟨[7], [], [], []⟩, 0, 0⟩ ∧
        (s.calls ()).map (fun call => (call.phase, call.started, call.payload)) =
          some (.completed, 1, repositoryEvent) := by
    decide
  obtain ⟨s, visited, row, done⟩ := revived
  obtain ⟨call, held, facts⟩ := Option.map_eq_some_iff.mp done
  obtain ⟨phase, started, payload⟩ : call.phase = .completed ∧ call.started = 1 ∧
      call.payload = repositoryEvent := by simpa using facts
  have fenced := promised unseen s visited () call held phase 7 (by rw [payload]; rfl) ()
  have later := fenced.1 _ row (by decide)
  rw [started] at later
  exact absurd later (by decide)

/-- With the row written before the event, the lookup finds the user. -/
def seen : List (Action Unit Unit Unit) :=
  [.readUser () (), .fetch () () ⟨[7], [], [], []⟩, .fetched () (), .writeCache () (),
    .applyInvalidation () repositoryEvent ⟨some "acme", none, some 1⟩,
    .perform () .findUserIdsByGithubIds, .perform () .findUserIdsByLogins,
    .perform () .findUsersAffectedByRepository, .perform () .invalidateUsers,
    .perform () .forgetCached]

theorem seen_refresh_is_reached :
    (∃ s ∈ (invalidating acme).visited seen (.initial fun _ => 0),
        (s.calls ()).map Call.phase = some .completed) ∧
      ∀ s ∈ (invalidating acme).visited seen (.initial fun _ => 0), s.Reached acme := by
  constructor
  · decide
  · exact invalidation_reaches_holders acme (fun _ => 0) seen (by decide)

end PrSearch.Authz.Invalidation
