import Mathlib.Data.List.Induction
import Mathlib.Data.List.Sort
import PrSearch.Authz.Scope
import PrSearch.Index.Query

/-! # The forms of an access scope

`GheAccessScopeSource.fetch` asks GitHub for the registered repositories a user can read. Up to 500
of them are a list of identifiers; beyond that `toAccessScope` puts organisations, visibilities and
teams in their place. `scopeFilter` makes a filter of either form, and `isRepositoryInScope` decides
the same in the process.

Both forms are meant to admit the same documents. The second one only reaches the organisations of
which the user is a member, and there what is not private or is granted to one of the user's teams.
-/
namespace PrSearch.Authz

open Lib Index

inductive Visibility
  | pub
  | internal
  | priv
  deriving DecidableEq, Repr

def Visibility.name : Visibility → String
  | .pub => "public"
  | .internal => "internal"
  | .priv => "private"

structure Repository where
  repositoryId : Int
  owner : String
  name : String
  orgId : Int
  visibility : Visibility
  allowedTeamIds : List Int
  deriving DecidableEq, Repr

structure Team where
  id : Int
  slug : String
  deriving DecidableEq, Repr

inductive LookupStage
  | registeredRepositories
  | collaboratorPermission
  | orgMembership
  | orgTeams
  | teamMembership
  deriving DecidableEq, Repr

structure AccessScopeLookupError (ε : Type) where
  stage : LookupStage
  cause : ε

structure GhePermissionApi (ε : Type) where
  collaboratorPermission (owner name username : String) : Except ε (Option String)
  listOrgTeams (org : String) : Except ε (List Team)
  teamMembership (org teamSlug username : String) : Except ε Bool
  isOrgMember (org username : String) : Except ε Bool

def readablePermissions : List String :=
  ["read", "write", "writer", "pull", "triage", "push", "maintain", "admin"]

def isReadable (permission : String) : Bool := permission ∈ readablePermissions

def explicitScopeLimit : Nat := 500

def shouldUseOrgTeamScope (repositoryCount : Nat) : Bool := repositoryCount > explicitScopeLimit

/-! ### Fetching -/

section Fetch

variable {ε α β : Type}

def atStage (stage : LookupStage) (call : Except ε α) : Except (AccessScopeLookupError ε) α :=
  call.mapError fun cause => ⟨stage, cause⟩

/-- Ask one after the other; the first failure ends it. -/
def gather (ask : α → Except ε (List β)) : List α → Except ε (List β)
  | [] => .ok []
  | one :: rest => do
      let here ← ask one
      let others ← gather ask rest
      pure (here ++ others)

variable (api : GhePermissionApi ε) (login : String)

def askRepository (repository : Repository) : Except (AccessScopeLookupError ε) (List Int) := do
  let permission ← atStage .collaboratorPermission
    (api.collaboratorPermission repository.owner repository.name login)
  pure (if permission.any isReadable then [repository.repositoryId] else [])

/-- The answers come in any order; sorted, they are the same list. -/
def readableRepositories (registered : List Repository) :
    Except (AccessScopeLookupError ε) (List Int) := do
  let readable ← gather (askRepository api login) registered
  pure (readable.insertionSort (· ≤ ·))

/-- The name of each organisation is that of its first repository. -/
def uniqueOrgs (registered : List Repository) : List (Int × String) :=
  registered.foldl (fun orgs repository =>
    if repository.orgId ∈ orgs.map Prod.fst then orgs
    else orgs ++ [(repository.orgId, repository.owner)]) []

def askTeam (owner : String) (team : Team) : Except (AccessScopeLookupError ε) (List Int) := do
  let isMember ← atStage .teamMembership (api.teamMembership owner team.slug login)
  pure (if isMember then [team.id] else [])

/-- An organisation of which the user is a member, with the user's teams in it. -/
def askOrg (org : Int × String) : Except (AccessScopeLookupError ε) (List (String × List Int)) := do
  let isMember ← atStage .orgMembership (api.isOrgMember org.2 login)
  if isMember then
    let teams ← atStage .orgTeams (api.listOrgTeams org.2)
    let teamIds ← gather (askTeam api login org.2) teams
    pure [(org.2, teamIds)]
  else pure []

def fetch (listRegistered : Except ε (List Repository)) :
    Except (AccessScopeLookupError ε) RawAccessScope := do
  let registered ← atStage .registeredRepositories listRegistered
  if registered.isEmpty then pure ⟨[], [], [], []⟩
  else
    let repositoryIds ← readableRepositories api login registered
    if shouldUseOrgTeamScope repositoryIds.length then
      let orgs := uniqueOrgs registered
      let members ← gather (askOrg api login) orgs
      let orgIds := (orgs.filter fun org => org.2 ∈ members.map Prod.fst).map Prod.fst
      pure ⟨repositoryIds, orgIds, members.flatMap Prod.snd,
        if orgIds.isEmpty then [] else ["public", "internal"]⟩
    else pure ⟨repositoryIds, [], [], []⟩

end Fetch

/-! ### Forms -/

inductive AccessScope
  | explicit (repositoryIds : List Int)
  | orgTeam (orgIds teamIds : List Int) (visibilities : List String)
  deriving DecidableEq, Repr

def toAccessScope (scope : CachedScope) : AccessScope :=
  if shouldUseOrgTeamScope scope.repositoryIds.length then
    .orgTeam scope.orgIds scope.teamIds scope.visibilities
  else .explicit scope.repositoryIds

def scopeFilter : AccessScope → Query
  | .explicit repositoryIds => .terms "repository_id" (repositoryIds.map .number)
  | .orgTeam orgIds teamIds visibilities =>
      .bool [] [.terms "org_id" (orgIds.map .number)]
        [.terms "visibility" (visibilities.map .string),
          .terms "allowed_team_ids" (teamIds.map .number)] [] 1

inductive AccessScopeUnavailableError
  | noRepository
  | noOrganisation
  deriving DecidableEq, Repr

def applyMandatoryScopeFilter (query : Query) (scope : AccessScope) :
    Except AccessScopeUnavailableError Query :=
  match scope with
  | .explicit [] => .error .noRepository
  | .orgTeam [] _ _ => .error .noOrganisation
  | _ => .ok (.bool [query] [scopeFilter scope] [] [] 0)

def isRepositoryInScope (repository : Repository) : AccessScope → Bool
  | .explicit repositoryIds => repository.repositoryId ∈ repositoryIds
  | .orgTeam orgIds teamIds visibilities =>
      if repository.orgId ∉ orgIds then false
      else if repository.visibility.name ∈ visibilities then true
      else repository.allowedTeamIds.any fun teamId => teamId ∈ teamIds

/-- The fields of every document of a repository that a scope filter looks at. -/
def Repository.document (repository : Repository) : Document
  | "repository_id" => [.number repository.repositoryId]
  | "org_id" => [.number repository.orgId]
  | "visibility" => [.string repository.visibility.name]
  | "allowed_team_ids" => repository.allowedTeamIds.map .number
  | _ => []

/-! ### Permissions -/

/-- What one user is granted. -/
structure Permissions where
  member : Int → Bool
  teams : Int → List Team
  onTeam : Int → Bool
  direct : Int → Bool

/-- The effective permission: public, internal to an organisation of the user, granted to a team of
the user or granted to the user directly. -/
def Permissions.reads (permissions : Permissions) (repository : Repository) : Bool :=
  repository.visibility = .pub ||
    (repository.visibility = .internal && permissions.member repository.orgId) ||
      repository.allowedTeamIds.any permissions.onTeam || permissions.direct repository.repositoryId

/-- The answers of the API, where it answers, are those permissions. -/
structure Permissions.Answered {ε : Type} (permissions : Permissions) (api : GhePermissionApi ε)
    (login : String) (registered : List Repository) : Prop where
  permission : ∀ repository ∈ registered, ∀ answer,
    api.collaboratorPermission repository.owner repository.name login = .ok answer →
      answer.any isReadable = permissions.reads repository
  member : ∀ repository ∈ registered, ∀ answer,
    api.isOrgMember repository.owner login = .ok answer → answer = permissions.member repository.orgId
  teams : ∀ repository ∈ registered, ∀ answer,
    api.listOrgTeams repository.owner = .ok answer → answer = permissions.teams repository.orgId
  onTeam : ∀ repository ∈ registered, ∀ team ∈ permissions.teams repository.orgId, ∀ answer,
    api.teamMembership repository.owner team.slug login = .ok answer →
      answer = permissions.onTeam team.id

/-- A repository that organisations and teams account for. -/
def Permissions.Covers (permissions : Permissions) (registered : List Repository)
    (repository : Repository) : Prop :=
  permissions.member repository.orgId = true ∧
    (repository.visibility ≠ .priv ∨ ∃ teamId ∈ repository.allowedTeamIds,
      permissions.onTeam teamId = true ∧ ∃ other ∈ registered,
        permissions.member other.orgId = true ∧ ∃ team ∈ permissions.teams other.orgId,
          team.id = teamId)

variable {repository : Repository} {raw : RawAccessScope}

variable {members : List (String × List Int)}

/-! ### What a successful fetch says -/

section Answers

variable {ε α β : Type}

variable {call : Except ε α}

theorem bind_ok {next : α → Except ε β} {result : β} (succeeded : call >>= next = .ok result) :
    ∃ value, call = .ok value ∧ next value = .ok result := by
  cases call with
  | error cause => cases succeeded
  | ok value => exact ⟨value, rfl, succeeded⟩

theorem atStage_ok {stage : LookupStage} {value : α} (succeeded : atStage stage call = .ok value) :
    call = .ok value := by
  cases call with
  | error cause => cases succeeded
  | ok answer => cases succeeded; rfl

theorem gather_ok {ask : α → Except ε (List β)} {expected : α → List β} {asked : List α}
    {result : List β} (answers : ∀ one ∈ asked, ∀ answer, ask one = .ok answer → answer = expected one)
    (succeeded : gather ask asked = .ok result) :
    result = asked.flatMap expected ∧ ∀ one ∈ asked, ask one = .ok (expected one) := by
  induction asked generalizing result with
  | nil =>
    cases succeeded
    simp
  | cons one rest ih =>
    obtain ⟨here, answered, succeeded⟩ := bind_ok succeeded
    obtain ⟨others, gathered, succeeded⟩ := bind_ok succeeded
    cases succeeded
    obtain ⟨rfl, each⟩ := ih (fun other inside => answers other (List.mem_cons_of_mem _ inside))
      gathered
    obtain rfl := answers one List.mem_cons_self here answered
    refine ⟨rfl, fun other inside => ?_⟩
    rcases List.mem_cons.mp inside with rfl | later
    · exact answered
    · exact each other later

theorem flatMap_if (asked : List α) (holds : α → Bool) (answer : α → β) :
    (asked.flatMap fun one => if holds one then [answer one] else []) =
      (asked.filter holds).map answer := by
  induction asked with
  | nil => rfl
  | cons one rest ih => cases here : holds one <;> simp [here, ih]

variable {api : GhePermissionApi ε} {login : String} {registered : List Repository}
  {permissions : Permissions} (answered : permissions.Answered api login registered)
include answered

theorem readableRepositories_ok {repositoryIds : List Int}
    (succeeded : readableRepositories api login registered = .ok repositoryIds) :
    repositoryIds.Perm ((registered.filter permissions.reads).map Repository.repositoryId) := by
  obtain ⟨readable, gathered, sorted⟩ := bind_ok succeeded
  cases sorted
  have each : ∀ repository ∈ registered, ∀ answer,
      askRepository api login repository = .ok answer →
        answer = if permissions.reads repository then [repository.repositoryId] else [] := by
    intro repository inside answer succeeded
    obtain ⟨permission, asked, succeeded⟩ := bind_ok succeeded
    cases succeeded
    rw [answered.permission repository inside permission (atStage_ok asked)]
  obtain ⟨rfl, _⟩ := gather_ok each gathered
  rw [flatMap_if]
  exact List.perm_insertionSort _ _

/-- The teams of an organisation in which the user is. -/
def Permissions.teamIds (permissions : Permissions) (orgId : Int) : List Int :=
  ((permissions.teams orgId).filter fun team => permissions.onTeam team.id).map Team.id

theorem askOrg_ok (inside : repository ∈ registered) {answer : List (String × List Int)}
    (succeeded : askOrg api login (repository.orgId, repository.owner) = .ok answer) :
    answer = if permissions.member repository.orgId then
      [(repository.owner, permissions.teamIds repository.orgId)] else [] := by
  obtain ⟨isMember, asked, succeeded⟩ := bind_ok succeeded
  obtain rfl := answered.member repository inside isMember (atStage_ok asked)
  cases isMember : permissions.member repository.orgId with
  | false =>
    rw [isMember] at succeeded
    cases succeeded
    rfl
  | true =>
    rw [isMember] at succeeded
    obtain ⟨teams, listed, succeeded⟩ := bind_ok succeeded
    obtain ⟨teamIds, gathered, succeeded⟩ := bind_ok succeeded
    cases succeeded
    obtain rfl := answered.teams repository inside teams (atStage_ok listed)
    have each : ∀ team ∈ permissions.teams repository.orgId, ∀ answer,
        askTeam api login repository.owner team = .ok answer →
          answer = if permissions.onTeam team.id then [team.id] else [] := by
      intro team among answer succeeded
      obtain ⟨onTeam, asked, succeeded⟩ := bind_ok succeeded
      cases succeeded
      rw [answered.onTeam repository inside team among onTeam (atStage_ok asked)]
    obtain ⟨rfl, _⟩ := gather_ok each gathered
    rw [flatMap_if, if_pos rfl, Permissions.teamIds]

omit answered in
theorem uniqueOrgs_spec (registered : List Repository) :
    (∀ org ∈ uniqueOrgs registered, ∃ repository ∈ registered,
        (repository.orgId, repository.owner) = org) ∧
      ∀ repository ∈ registered, repository.orgId ∈ (uniqueOrgs registered).map Prod.fst := by
  induction registered using List.reverseRecOn with
  | nil => simp [uniqueOrgs]
  | append_singleton before repository ih =>
    obtain ⟨listed, complete⟩ := ih
    have next : uniqueOrgs (before ++ [repository]) =
        if repository.orgId ∈ (uniqueOrgs before).map Prod.fst then uniqueOrgs before
        else uniqueOrgs before ++ [(repository.orgId, repository.owner)] := by
      rw [uniqueOrgs, List.foldl_append]
      rfl
    rw [next]
    by_cases known : repository.orgId ∈ (uniqueOrgs before).map Prod.fst
    · rw [if_pos known]
      constructor
      · intro org inside
        obtain ⟨other, among, same⟩ := listed org inside
        exact ⟨other, List.mem_append_left _ among, same⟩
      · intro other inside
        rcases List.mem_append.mp inside with earlier | last
        · exact complete other earlier
        · obtain rfl := List.mem_singleton.mp last
          exact known
    · rw [if_neg known]
      constructor
      · intro org inside
        rcases List.mem_append.mp inside with earlier | last
        · obtain ⟨other, among, same⟩ := listed org earlier
          exact ⟨other, List.mem_append_left _ among, same⟩
        · exact ⟨repository, by simp, (List.mem_singleton.mp last).symm⟩
      · intro other inside
        rw [List.map_append]
        rcases List.mem_append.mp inside with earlier | last
        · exact List.mem_append_left _ (complete other earlier)
        · obtain rfl := List.mem_singleton.mp last
          simp

theorem members_ok (succeeded : gather (askOrg api login) (uniqueOrgs registered) = .ok members) :
    members = ((uniqueOrgs registered).filter fun org => permissions.member org.1).map
        (fun org => (org.2, permissions.teamIds org.1)) ∧
      ∀ org ∈ uniqueOrgs registered, askOrg api login org =
        .ok (if permissions.member org.1 then [(org.2, permissions.teamIds org.1)] else []) := by
  have each : ∀ org ∈ uniqueOrgs registered, ∀ answer, askOrg api login org = .ok answer →
      answer = if permissions.member org.1 then [(org.2, permissions.teamIds org.1)] else [] := by
    intro org inside answer succeeded
    obtain ⟨repository, among, rfl⟩ := (uniqueOrgs_spec registered).1 org inside
    exact askOrg_ok answered among succeeded
  rw [← flatMap_if]
  exact gather_ok each succeeded

/-- Organisations of one name are one question, so they have one answer. -/
theorem mem_orgIds (succeeded : gather (askOrg api login) (uniqueOrgs registered) = .ok members)
    (orgId : Int) :
    orgId ∈ ((uniqueOrgs registered).filter fun org => org.2 ∈ members.map Prod.fst).map Prod.fst ↔
      orgId ∈ (uniqueOrgs registered).map Prod.fst ∧ permissions.member orgId = true := by
  obtain ⟨rfl, asked⟩ := members_ok answered succeeded
  constructor
  · intro inside
    obtain ⟨org, kept, rfl⟩ := List.mem_map.mp inside
    obtain ⟨listed, named⟩ := List.mem_filter.mp kept
    refine ⟨List.mem_map_of_mem listed, ?_⟩
    obtain ⟨pair, answer, sameName⟩ := List.mem_map.mp (of_decide_eq_true named)
    obtain ⟨other, answering, rfl⟩ := List.mem_map.mp answer
    obtain ⟨among, isMember⟩ := List.mem_filter.mp answering
    have sameQuestion : askOrg api login org = askOrg api login other := by
      rw [askOrg, askOrg, show org.2 = other.2 from sameName.symm]
    rw [asked org listed, asked other among, if_pos isMember] at sameQuestion
    by_contra notMember
    rw [if_neg notMember] at sameQuestion
    cases sameQuestion
  · rintro ⟨inside, isMember⟩
    obtain ⟨org, listed, rfl⟩ := List.mem_map.mp inside
    have answering : org ∈ (uniqueOrgs registered).filter fun org => permissions.member org.1 :=
      List.mem_filter.mpr ⟨listed, isMember⟩
    refine List.mem_map_of_mem (List.mem_filter.mpr ⟨listed, decide_eq_true ?_⟩)
    exact List.mem_map.mpr ⟨_, List.mem_map_of_mem answering, rfl⟩

theorem mem_teamIds (succeeded : gather (askOrg api login) (uniqueOrgs registered) = .ok members)
    (teamId : Int) :
    teamId ∈ members.flatMap Prod.snd ↔ permissions.onTeam teamId = true ∧
      ∃ other ∈ registered, permissions.member other.orgId = true ∧
        ∃ team ∈ permissions.teams other.orgId, team.id = teamId := by
  obtain ⟨rfl, _⟩ := members_ok answered succeeded
  obtain ⟨listed, complete⟩ := uniqueOrgs_spec registered
  constructor
  · intro inside
    obtain ⟨pair, kept, among⟩ := List.mem_flatMap.mp inside
    obtain ⟨org, answering, rfl⟩ := List.mem_map.mp kept
    obtain ⟨known, isMember⟩ := List.mem_filter.mp answering
    obtain ⟨team, mine, rfl⟩ := List.mem_map.mp among
    obtain ⟨isTeam, onTeam⟩ := List.mem_filter.mp mine
    obtain ⟨repository, inside, rfl⟩ := listed org known
    exact ⟨onTeam, repository, inside, isMember, team, isTeam, rfl⟩
  · rintro ⟨onTeam, repository, inside, isMember, team, isTeam, rfl⟩
    obtain ⟨org, known, sameOrg⟩ := List.mem_map.mp (complete repository inside)
    refine List.mem_flatMap.mpr ⟨_, List.mem_map_of_mem (List.mem_filter.mpr ⟨known, ?_⟩), ?_⟩
    · rw [sameOrg, isMember]
    · rw [sameOrg]
      exact List.mem_map_of_mem (List.mem_filter.mpr ⟨isTeam, onTeam⟩)

end Answers

/-! ### The filters -/

section Filters

variable (engine : Engine)

theorem admits_explicit (repositoryIds : List Int) (repository : Repository) :
    (scopeFilter (.explicit repositoryIds)).admits engine repository.document = true ↔
      repository.repositoryId ∈ repositoryIds := by
  rw [scopeFilter, Query.admits_terms]
  simp [Repository.document]

theorem admits_orgTeam (orgIds teamIds : List Int) (visibilities : List String)
    (repository : Repository) :
    (scopeFilter (.orgTeam orgIds teamIds visibilities)).admits engine repository.document = true ↔
      repository.orgId ∈ orgIds ∧ (repository.visibility.name ∈ visibilities ∨
        ∃ teamId ∈ repository.allowedTeamIds, teamId ∈ teamIds) := by
  rw [scopeFilter, Query.admits_filter_should]
  simp only [List.forall_mem_cons, List.exists_mem_cons_iff, Query.admits_terms,
    Repository.document]
  simp

/-- The predicate of the process and the filter decide the same. -/
theorem isRepositoryInScope_eq_admits (repository : Repository) (scope : AccessScope) :
    isRepositoryInScope repository scope =
      (scopeFilter scope).admits engine repository.document := by
  rw [Bool.eq_iff_iff]
  cases scope with
  | explicit repositoryIds =>
    rw [admits_explicit]
    simp [isRepositoryInScope]
  | orgTeam orgIds teamIds visibilities =>
    rw [admits_orgTeam, isRepositoryInScope]
    by_cases inOrg : repository.orgId ∈ orgIds
    · by_cases visible : repository.visibility.name ∈ visibilities
      · simp [inOrg, visible]
      · simp [inOrg, visible]
    · simp [inOrg]

end Filters

/-! ### Agreement -/

/-- What is put in the cache. -/
def RawAccessScope.cached (raw : RawAccessScope) (refreshedAt : Instant) (version : Nat) :
    CachedScope :=
  ⟨raw.repositoryIds, raw.orgIds, raw.teamIds, raw.visibilities, refreshedAt, version⟩

section Agreement

variable {ε : Type} {api : GhePermissionApi ε} {login : String} {registered : List Repository}
  {permissions : Permissions} (answered : permissions.Answered api login registered)

theorem Permissions.Covers.reads (covered : permissions.Covers registered repository) :
    permissions.reads repository = true := by
  obtain ⟨isMember, notPrivate | ⟨teamId, allowed, onTeam, _⟩⟩ := covered
  · cases visibility : repository.visibility with
    | pub => simp [Permissions.reads, visibility]
    | internal => simp [Permissions.reads, visibility, isMember]
    | priv => exact absurd visibility notPrivate
  · have granted : repository.allowedTeamIds.any permissions.onTeam = true :=
      List.any_eq_true.mpr ⟨teamId, allowed, onTeam⟩
    simp [Permissions.reads, granted]

include answered

/-- The two kinds of answer a fetch gives. -/
theorem fetch_ok (fetched : fetch api login (.ok registered) = .ok raw) :
    raw.repositoryIds.Perm ((registered.filter permissions.reads).map Repository.repositoryId) ∧
      (shouldUseOrgTeamScope raw.repositoryIds.length = true →
        ∃ members, gather (askOrg api login) (uniqueOrgs registered) = .ok members ∧
          raw.orgIds = ((uniqueOrgs registered).filter fun org =>
            org.2 ∈ members.map Prod.fst).map Prod.fst ∧
          raw.teamIds = members.flatMap Prod.snd ∧
          raw.visibilities = if raw.orgIds.isEmpty then [] else ["public", "internal"]) := by
  obtain ⟨listed, asked, fetched⟩ := bind_ok fetched
  obtain rfl : registered = listed := Except.ok.inj asked
  by_cases none : registered.isEmpty
  · rw [if_pos none] at fetched
    cases fetched
    rw [List.isEmpty_iff.mp none]
    exact ⟨.refl [], fun large => absurd large (by decide)⟩
  · rw [if_neg none] at fetched
    obtain ⟨repositoryIds, readable, fetched⟩ := bind_ok fetched
    have ids := readableRepositories_ok answered readable
    by_cases large : shouldUseOrgTeamScope repositoryIds.length = true
    · rw [if_pos large] at fetched
      obtain ⟨members, gathered, fetched⟩ := bind_ok fetched
      cases fetched
      exact ⟨ids, fun _ => ⟨members, gathered, rfl, rfl, rfl⟩⟩
    · rw [if_neg large] at fetched
      cases fetched
      exact ⟨ids, fun large' => absurd large' large⟩

theorem mem_repositoryIds (distinct : (registered.map Repository.repositoryId).Nodup)
    (fetched : fetch api login (.ok registered) = .ok raw) (inside : repository ∈ registered) :
    repository.repositoryId ∈ raw.repositoryIds ↔ permissions.reads repository = true := by
  rw [(fetch_ok answered fetched).1.mem_iff, List.mem_map]
  constructor
  · rintro ⟨other, kept, sameId⟩
    obtain ⟨among, reads⟩ := List.mem_filter.mp kept
    rwa [← List.inj_on_of_nodup_map distinct among inside sameId]
  · intro reads
    exact ⟨repository, List.mem_filter.mpr ⟨inside, reads⟩, rfl⟩

/-- The organisation form admits what organisations and teams account for. -/
theorem admits_orgTeam_iff (engine : Engine) (fetched : fetch api login (.ok registered) = .ok raw)
    (large : shouldUseOrgTeamScope raw.repositoryIds.length = true)
    (inside : repository ∈ registered) :
    (scopeFilter (.orgTeam raw.orgIds raw.teamIds raw.visibilities)).admits engine
        repository.document = true ↔ permissions.Covers registered repository := by
  obtain ⟨members, gathered, orgIds, teamIds, visibilities⟩ := (fetch_ok answered fetched).2 large
  have known := (uniqueOrgs_spec registered).2 repository inside
  have inOrg : repository.orgId ∈ raw.orgIds ↔ permissions.member repository.orgId = true := by
    rw [orgIds, mem_orgIds answered gathered]
    exact and_iff_right known
  have byTeam : (∃ teamId ∈ repository.allowedTeamIds, teamId ∈ raw.teamIds) ↔
      ∃ teamId ∈ repository.allowedTeamIds, permissions.onTeam teamId = true ∧
        ∃ other ∈ registered, permissions.member other.orgId = true ∧
          ∃ team ∈ permissions.teams other.orgId, team.id = teamId := by
    simp only [teamIds, mem_teamIds answered gathered]
  rw [admits_orgTeam, byTeam, Permissions.Covers, ← inOrg]
  apply and_congr_right
  intro isMember
  -- some organisation is listed, so both visibilities are
  have listed : raw.orgIds.isEmpty = false := by
    rw [List.isEmpty_eq_false_iff]
    exact List.ne_nil_of_mem isMember
  rw [visibilities, listed]
  apply or_congr_left
  cases repository.visibility <;> decide

/-- Beyond the limit, the forms agree when all that the user reads is accounted for. -/
theorem orgTeam_agrees_iff (engine : Engine)
    (distinct : (registered.map Repository.repositoryId).Nodup)
    (fetched : fetch api login (.ok registered) = .ok raw)
    (large : shouldUseOrgTeamScope raw.repositoryIds.length = true) :
    (∀ repository ∈ registered,
        (scopeFilter (.orgTeam raw.orgIds raw.teamIds raw.visibilities)).admits engine
            repository.document =
          (scopeFilter (.explicit raw.repositoryIds)).admits engine repository.document) ↔
      ∀ repository ∈ registered, permissions.reads repository = true →
        permissions.Covers registered repository := by
  refine forall₂_congr fun repository inside => ?_
  rw [Bool.eq_iff_iff, admits_orgTeam_iff answered engine fetched large inside, admits_explicit,
    mem_repositoryIds answered distinct fetched inside]
  exact ⟨fun same => same.mpr, fun covered => ⟨fun known => known.reads, covered⟩⟩

theorem large_iff (fetched : fetch api login (.ok registered) = .ok raw) :
    shouldUseOrgTeamScope raw.repositoryIds.length = true ↔
      explicitScopeLimit < registered.countP permissions.reads := by
  rw [(fetch_ok answered fetched).1.length_eq, List.length_map, ← List.countP_eq_length_filter,
    shouldUseOrgTeamScope, decide_eq_true_eq, gt_iff_lt]

/-- The documents admitted by the form that `toAccessScope` chooses are those of the list exactly
when the user reads at most 500 repositories, or reads none that organisations and teams do not
account for. The predicate of the process always decides as the filter does. -/
theorem scope_forms_agree (engine : Engine)
    (distinct : (registered.map Repository.repositoryId).Nodup) {raw : RawAccessScope}
    (fetched : fetch api login (.ok registered) = .ok raw) (refreshedAt : Instant)
    (version : Nat) :
    ((∀ repository ∈ registered,
        (scopeFilter (toAccessScope (raw.cached refreshedAt version))).admits engine
            repository.document =
          (scopeFilter (.explicit raw.repositoryIds)).admits engine repository.document) ↔
      registered.countP permissions.reads ≤ explicitScopeLimit ∨
        ∀ repository ∈ registered, permissions.reads repository = true →
          permissions.Covers registered repository) ∧
      ∀ scope repository, isRepositoryInScope repository scope =
        (scopeFilter scope).admits engine repository.document := by
  refine ⟨?_, fun scope repository => isRepositoryInScope_eq_admits engine repository scope⟩
  have limit := large_iff answered fetched
  by_cases large : shouldUseOrgTeamScope raw.repositoryIds.length = true
  · have form : toAccessScope (raw.cached refreshedAt version) =
        .orgTeam raw.orgIds raw.teamIds raw.visibilities := if_pos large
    rw [form, orgTeam_agrees_iff answered engine distinct fetched large]
    have above := limit.mp large
    exact ⟨.inr, fun either => either.resolve_left (by omega)⟩
  · have form : toAccessScope (raw.cached refreshedAt version) = .explicit raw.repositoryIds :=
      if_neg large
    rw [form]
    have within := mt limit.mpr large
    exact ⟨fun _ => .inl (by omega), fun _ _ _ => rfl⟩

end Agreement

/-! ### A private repository, and 501 public ones -/

/-- A member of the organisation and of its team 3. -/
def insider : Permissions where
  member _ := true
  teams _ := [⟨3, "pay"⟩]
  onTeam teamId := teamId = 3
  direct _ := false

def insiderApi : GhePermissionApi Unit where
  collaboratorPermission _ _ _ := .ok (some "read")
  listOrgTeams _ := .ok [⟨3, "pay"⟩]
  teamMembership _ _ _ := .ok true
  isOrgMember _ _ := .ok true

theorem insider_answered :
    insider.Answered insiderApi "kim" [⟨7, "acme", "pay", 1, .priv, [3]⟩] where
  permission := by
    rintro repository inside answer ⟨⟩
    obtain rfl := List.mem_singleton.mp inside
    decide
  member := by rintro _ _ answer ⟨⟩; rfl
  teams := by rintro _ _ answer ⟨⟩; rfl
  onTeam := by
    rintro repository inside team among answer ⟨⟩
    obtain rfl := List.mem_singleton.mp among
    rfl

theorem insider_forms_agree :
    insider.Answered insiderApi "kim" [⟨7, "acme", "pay", 1, .priv, [3]⟩] ∧
      ∀ engine, (scopeFilter (toAccessScope ⟨[7], [], [], [], 0, 0⟩)).admits engine
          (Repository.document ⟨7, "acme", "pay", 1, .priv, [3]⟩) =
        (scopeFilter (.explicit [7])).admits engine
          (Repository.document ⟨7, "acme", "pay", 1, .priv, [3]⟩) :=
  ⟨insider_answered, fun engine =>
    (scope_forms_agree insider_answered engine (List.nodup_singleton 7) rfl 0 0).1.mpr
      (.inl (by decide)) _ List.mem_cons_self⟩

/-- A user of no organisation, who reads what is public. -/
def outsider : Permissions where
  member _ := false
  teams _ := []
  onTeam _ := false
  direct _ := false

def outsiderApi : GhePermissionApi Unit where
  collaboratorPermission _ _ _ := .ok (some "read")
  listOrgTeams _ := .ok []
  teamMembership _ _ _ := .ok false
  isOrgMember _ _ := .ok false

def publicRepositories (count : Nat) : List Repository :=
  (List.range count).map fun number : Nat => ⟨number, "acme", s!"public-{number}", 1, .pub, []⟩

theorem distinct_publicRepositories (count : Nat) :
    ((publicRepositories count).map Repository.repositoryId).Nodup := by
  rw [publicRepositories, List.map_map]
  exact List.Nodup.map (fun _ _ => Int.ofNat.inj) List.nodup_range

theorem outsider_reads (count : Nat) :
    (publicRepositories count).countP outsider.reads = count := by
  have each : ∀ repository ∈ publicRepositories count, outsider.reads repository = true := by
    intro repository inside
    obtain ⟨number, _, rfl⟩ := List.mem_map.mp inside
    rfl
  rw [List.countP_eq_length.mpr each, publicRepositories, List.length_map, List.length_range]

theorem outsider_answered (count : Nat) :
    outsider.Answered outsiderApi "lee" (publicRepositories count) where
  permission := by
    rintro repository inside answer ⟨⟩
    obtain ⟨number, _, rfl⟩ := List.mem_map.mp inside
    rfl
  member := by rintro _ _ answer ⟨⟩; rfl
  teams := by rintro _ _ answer ⟨⟩; rfl
  onTeam := by rintro _ _ team among; exact absurd among List.not_mem_nil

theorem gather_of_ok {ε α β : Type} {ask : α → Except ε (List β)} {answer : α → List β}
    {asked : List α} (answers : ∀ one ∈ asked, ask one = .ok (answer one)) :
    gather ask asked = .ok (asked.flatMap answer) := by
  induction asked with
  | nil => rfl
  | cons one rest ih =>
    rw [gather, answers one List.mem_cons_self,
      ih fun other inside => answers other (List.mem_cons_of_mem _ inside)]
    rfl

theorem fetch_outsider (count : Nat) :
    ∃ raw, fetch outsiderApi "lee" (.ok (publicRepositories count)) = .ok raw := by
  have readable : gather (askRepository outsiderApi "lee") (publicRepositories count) =
      .ok ((publicRepositories count).flatMap fun repository => [repository.repositoryId]) :=
    gather_of_ok fun _ _ => rfl
  have members : gather (askOrg outsiderApi "lee") (uniqueOrgs (publicRepositories count)) =
      .ok ((uniqueOrgs (publicRepositories count)).flatMap fun _ => []) :=
    gather_of_ok fun _ _ => rfl
  simp only [fetch, readableRepositories, atStage, Except.mapError, bind, Except.bind, pure,
    Except.pure, readable, members]
  split_ifs
  all_goals exact ⟨_, rfl⟩

/-- The list admits the public repositories to someone who is a member of nothing, the other form
does not. -/
theorem outsider_forms_differ :
    ¬ ∀ (permissions : Permissions) (api : GhePermissionApi Unit) (login : String)
      (registered : List Repository), permissions.Answered api login registered →
        (registered.map Repository.repositoryId).Nodup →
        ∀ raw, fetch api login (.ok registered) = .ok raw → ∀ engine, ∀ repository ∈ registered,
          (scopeFilter (toAccessScope (raw.cached 0 0))).admits engine repository.document =
            (scopeFilter (.explicit raw.repositoryIds)).admits engine repository.document := by
  intro promised
  obtain ⟨raw, fetched⟩ := fetch_outsider 501
  have answered := outsider_answered 501
  have distinct := distinct_publicRepositories 501
  have large : shouldUseOrgTeamScope raw.repositoryIds.length = true := by
    rw [large_iff answered fetched, outsider_reads]
    decide
  let engine : Engine := ⟨fun _ _ _ _ => false, fun _ _ => false⟩
  have agree := promised outsider outsiderApi "lee" _ answered distinct raw fetched engine
  have form : toAccessScope (raw.cached 0 0) =
      .orgTeam raw.orgIds raw.teamIds raw.visibilities := if_pos large
  rw [form, orgTeam_agrees_iff answered engine distinct fetched large] at agree
  have first : (⟨0, "acme", "public-0", 1, .pub, []⟩ : Repository) ∈ publicRepositories 501 :=
    List.mem_map.mpr ⟨0, List.mem_range.mpr (by decide), rfl⟩
  exact absurd (agree _ first rfl).1 (by decide)

end PrSearch.Authz
