import PrSearch.Authz.Scope

/-! # Revoked access does not come back

The fence of `writePermissionCache` guards the row: a row that is stored was fetched at the version
that stands. Redis and the shared refresh have no such fence. As long as Redis is written before a
later invalidation completes, and no call joins a fetch that an invalidation before it has overtaken,
every answer was fetched after the invalidations that its call could know of. Otherwise a revoked
scope is served from Redis until it runs out.
-/
namespace PrSearch.Authz

variable {version : Nat} {call : Call} {scope : Fetched}

namespace World

variable {P C : Type}

/-! ### The invariant -/

/-- What a refresh has read is not ahead of the version, and its fetch began no earlier than it read
the version. -/
def RefreshFenced (version : Nat) : Refresh → Prop
  | .readingUser => True
  | .acquiring versionAtStart => versionAtStart ≤ version
  | .fetching versionAtStart began => versionAtStart ≤ began ∧ began ≤ version
  | .writingCache scope => scope.scope.version ≤ scope.began ∧ scope.began ≤ version
  | .writingRedis scope => scope.scope.version ≤ scope.began ∧ scope.began ≤ version
  | .ended _ => True

/-- A call that started after some invalidations gets what was fetched after them. -/
def CallFenced (home : C → P) (s : World P C) (c : C) : Call → Prop
  | .readingRedis revoked | .readingCache revoked => revoked ≤ s.revoked
  | .writingBack revoked scope => scope.scope.version ≤ scope.began ∧ revoked ≤ scope.began
  | .waiting revoked =>
      revoked ≤ s.revoked ∧
        ∀ refresh ∈ s.inFlight (home c), ∀ began ∈ refresh.began, revoked ≤ began
  | .returned revoked scope => revoked ≤ scope.began
  | .idle | .thrown => True

structure Fenced (home : C → P) (s : World P C) : Prop where
  revoked : s.revoked ≤ s.version
  forgetting : ∀ version ∈ s.forgetting, version ≤ s.version
  cache : ∀ row ∈ s.cache, row.scope.version ≤ row.began ∧ s.version ≤ row.began
  redis : ∀ scope ∈ s.redis, s.revoked ≤ scope.began
  refreshes : ∀ p, ∀ refresh ∈ s.inFlight p, RefreshFenced s.version refresh
  calls : ∀ c, CallFenced home s c (s.calls c)

variable {home : C → P} {s next : World P C}

theorem Fenced.revokedStaysAway (fenced : s.Fenced home) : s.RevokedStaysAway := by
  intro c revoked scope returned
  have call := fenced.calls c
  rw [returned] at call
  exact call

theorem RefreshFenced.mono {later : Nat} (grows : version ≤ later) {refresh : Refresh}
    (fenced : RefreshFenced version refresh) : RefreshFenced later refresh := by
  cases refresh with
  | readingUser => trivial
  | acquiring versionAtStart => exact Nat.le_trans fenced grows
  | fetching versionAtStart began => exact ⟨fenced.1, Nat.le_trans fenced.2 grows⟩
  | writingCache scope => exact ⟨fenced.1, Nat.le_trans fenced.2 grows⟩
  | writingRedis scope => exact ⟨fenced.1, Nat.le_trans fenced.2 grows⟩
  | ended scope => trivial

/-- More invalidations and the same refreshes leave a call fenced. -/
theorem CallFenced.mono {c : C} (fenced : CallFenced home s c call)
    (grows : s.revoked ≤ next.revoked) (same : next.inFlight (home c) = s.inFlight (home c)) :
    CallFenced home next c call := by
  cases call with
  | idle => trivial
  | thrown => trivial
  | readingRedis revoked => exact Nat.le_trans fenced grows
  | readingCache revoked => exact Nat.le_trans fenced grows
  | writingBack revoked scope => exact fenced
  | waiting revoked =>
    refine ⟨Nat.le_trans fenced.1 grows, ?_⟩
    rw [same]
    exact fenced.2
  | returned revoked scope => exact fenced

theorem Fenced.initial (home : C → P) (version : Nat) :
    (World.initial version : World P C).Fenced home where
  revoked := Nat.zero_le _
  forgetting := List.forall_mem_nil _
  cache := fun _ stored => by cases stored
  redis := fun _ stored => by cases stored
  refreshes := fun _ _ running => by cases running
  calls := fun _ => trivial

/-! ### Writing the caches -/

theorem Fenced.storeRedis (fenced : s.Fenced home) (now : Instant) (fails : Bool)
    (timely : s.revoked ≤ scope.began) : (s.storeRedis now fails scope).Fenced home := by
  unfold World.storeRedis
  split
  · exact fenced
  · constructor
    · exact fenced.revoked
    · exact fenced.forgetting
    · exact fenced.cache
    · intro stored written
      cases written
      exact timely
    · exact fenced.refreshes
    · exact fun c => (fenced.calls c).mono (Nat.le_refl _) rfl

theorem storeRedis_calls (s : World P C) (now : Instant) (fails : Bool) (scope : Fetched) :
    (s.storeRedis now fails scope).inFlight = s.inFlight ∧
      (s.storeRedis now fails scope).revoked = s.revoked ∧
      (s.storeRedis now fails scope).version = s.version := by
  unfold World.storeRedis
  split
  · exact ⟨rfl, rfl, rfl⟩
  · exact ⟨rfl, rfl, rfl⟩

/-- The fence: what is written was fetched at the version that stands. -/
theorem Fenced.writePermissionCache {written : World P C} (fenced : s.Fenced home)
    {refreshedAt : Instant} (kept : scope.scope.version ≤ scope.began ∧ scope.began ≤ s.version)
    (writes : s.writePermissionCache scope refreshedAt = some written) :
    written.Fenced home ∧ written.version = s.version ∧ written.inFlight = s.inFlight := by
  unfold World.writePermissionCache at writes
  split at writes
  next stands =>
    cases writes
    refine ⟨⟨fenced.revoked, fenced.forgetting, ?_, fenced.redis, fenced.refreshes, ?_⟩, rfl, rfl⟩
    · intro row stored
      cases stored
      have fetched : s.version ≤ scope.began := stands.1 ▸ kept.1
      exact ⟨kept.1, fetched⟩
    · exact fun c => (fenced.calls c).mono (Nat.le_refl _) rfl
  · cases writes

/-! ### Calls and refreshes -/

section Calls

variable [DecidableEq C]

theorem Fenced.setCall (fenced : s.Fenced home) (c : C) (kept : CallFenced home s c call) :
    (s.setCall c call).Fenced home where
  revoked := fenced.revoked
  forgetting := fenced.forgetting
  cache := fenced.cache
  redis := fenced.redis
  refreshes := fenced.refreshes
  calls := by
    intro other
    by_cases same : other = c
    · subst same
      simp only [World.setCall, Function.update_self]
      exact kept.mono (Nat.le_refl _) rfl
    · simp only [World.setCall, Function.update_of_ne same]
      exact (fenced.calls other).mono (Nat.le_refl _) rfl

end Calls

section Refreshes

variable [DecidableEq P]

/-- A refresh moves on, keeping the moment its fetch began once it has begun. -/
theorem Fenced.setRefresh (fenced : s.Fenced home) (p : P) {refresh : Option Refresh}
    (kept : ∀ running ∈ refresh, RefreshFenced s.version running)
    (began : ∀ running ∈ refresh, ∀ began ∈ running.began, s.version ≤ began ∨
      ∃ before ∈ s.inFlight p, began ∈ before.began) :
    (s.setRefresh p refresh).Fenced home where
  revoked := fenced.revoked
  forgetting := fenced.forgetting
  cache := fenced.cache
  redis := fenced.redis
  refreshes := by
    intro other running inFlight
    by_cases same : other = p
    · subst same
      simp only [World.setRefresh, Function.update_self] at inFlight
      exact kept running inFlight
    · simp only [World.setRefresh, Function.update_of_ne same] at inFlight
      exact fenced.refreshes other running inFlight
  calls := by
    intro c
    have call := fenced.calls c
    by_cases same : home c = p
    · cases here : s.calls c with
      | waiting revoked =>
        rw [here] at call
        have phase : (s.setRefresh p refresh).calls c = .waiting revoked := here
        rw [phase]
        refine ⟨call.1, ?_⟩
        intro running inFlight moment isMoment
        simp only [World.setRefresh, same, Function.update_self] at inFlight
        rcases began running inFlight moment isMoment with later | ⟨before, was, begins⟩
        · exact Nat.le_trans call.1 (Nat.le_trans fenced.revoked later)
        · exact call.2 before (same ▸ was) moment begins
      | idle | readingRedis | readingCache | writingBack | returned | thrown =>
        have phase : (s.setRefresh p refresh).calls c = s.calls c := rfl
        rw [phase, here]
        rw [here] at call
        exact call
    · have other : (s.setRefresh p refresh).inFlight (home c) = s.inFlight (home c) := by
        simp only [World.setRefresh, Function.update_of_ne same]
      exact call.mono (Nat.le_refl _) other

theorem Fenced.refreshed (fenced : s.Fenced home) (p : P) {refresh : Refresh}
    (kept : RefreshFenced s.version refresh)
    (began : ∀ began ∈ refresh.began, s.version ≤ began ∨
      ∃ before ∈ s.inFlight p, began ∈ before.began) :
    (s.setRefresh p (some refresh)).Fenced home := by
  apply fenced.setRefresh
  · rintro _ ⟨⟩
    exact kept
  · rintro _ ⟨⟩
    exact began

theorem Fenced.refresh (fenced : s.Fenced home) (p : P) : (s.refresh p).Fenced home := by
  unfold World.refresh
  split
  · exact fenced
  · exact fenced.refreshed p trivial (by rintro _ ⟨⟩)

end Refreshes

variable [DecidableEq P] [DecidableEq C]

/-- A call that joins waits for a fetch that is late enough. -/
theorem Fenced.join (fenced : s.Fenced home) (c : C) {revoked : Nat}
    (reading : s.calls c = .readingCache revoked)
    (timely : ∀ refresh ∈ s.inFlight (home c), ∀ began ∈ refresh.began, revoked ≤ began) :
    ((s.refresh (home c)).setCall c (.waiting revoked)).Fenced home := by
  have call := fenced.calls c
  rw [reading] at call
  apply (fenced.refresh (home c)).setCall
  constructor
  · unfold World.refresh
    split
    · exact call
    · exact call
  · intro refresh running began isBegan
    unfold World.refresh at running
    split at running
    · exact timely refresh running began isBegan
    · simp only [World.setRefresh, Function.update_self, Option.mem_some] at running
      subst running
      cases isBegan

theorem Fenced.settle (fenced : s.Fenced home) {p : P}
    (settled : World.step home s (.settle p) = some next) : next.Fenced home := by
  simp only [World.step] at settled
  split at settled
  next answer ended =>
    cases settled
    constructor
    · exact fenced.revoked
    · exact fenced.forgetting
    · exact fenced.cache
    · exact fenced.redis
    · intro other running inFlight
      by_cases same : other = p
      · subst same
        simp [World.setRefresh] at inFlight
      · simp only [World.setRefresh, Function.update_of_ne same] at inFlight
        exact fenced.refreshes other running inFlight
    · intro c
      have call := fenced.calls c
      cases here : s.calls c with
      | waiting revoked =>
        rw [here] at call
        by_cases same : home c = p
        · subst same
          simp only [here, if_true]
          cases answer with
          | none => trivial
          | some scope => exact call.2 _ ended scope.began rfl
        · have other : (s.setRefresh p none).inFlight (home c) = s.inFlight (home c) := by
            simp only [World.setRefresh, Function.update_of_ne same]
          have kept : CallFenced home s c (.waiting revoked) := call
          simp only [here, same, if_false]
          exact kept.mono (Nat.le_refl _) other
      | idle | readingRedis | readingCache | writingBack | returned | thrown =>
        rw [here] at call
        simp only [here]
        exact call
  · cases settled

/-! ### Invalidations -/

theorem Fenced.invalidateUsers (fenced : s.Fenced home)
    (invalidated : World.step home s .invalidateUsers = some next) : next.Fenced home := by
  cases invalidated
  constructor
  · exact Nat.le_succ_of_le fenced.revoked
  · intro version forgetting
    rcases List.mem_cons.mp forgetting with rfl | earlier
    · exact Nat.le_refl _
    · exact Nat.le_succ_of_le (fenced.forgetting version earlier)
  · intro row stored
    cases stored
  · exact fenced.redis
  · exact fun p refresh running => (fenced.refreshes p refresh running).mono (Nat.le_succ _)
  · exact fun c => (fenced.calls c).mono (Nat.le_refl _) rfl

theorem Fenced.forget (fenced : s.Fenced home)
    (forgotten : World.step home s (.forget version) = some next) : next.Fenced home := by
  simp only [World.step] at forgotten
  split at forgotten
  next forgetting =>
    cases forgotten
    constructor
    · exact Nat.max_le.mpr ⟨fenced.revoked, fenced.forgetting version forgetting⟩
    · exact fun other more => fenced.forgetting other (List.mem_of_mem_erase more)
    · exact fenced.cache
    · intro scope stored
      cases stored
    · exact fenced.refreshes
    · exact fun c => (fenced.calls c).mono (Nat.le_max_left _ _) rfl
  · cases forgotten

/-! ### Every step -/

theorem Fenced.step (fenced : s.Fenced home) {action : Action P C} (timely : s.Timely home action)
    (stepped : World.step home s action = some next) : next.Fenced home := by
  cases action <;> simp only [World.step] at stepped
  case resolve c =>
    split at stepped
    · cases stepped
      have started : s.revoked ≤ s.revoked := Nat.le_refl _
      exact fenced.setCall c started
    · cases stepped
  case readRedis c now fails =>
    split at stepped
    next revoked reading =>
      have call := fenced.calls c
      rw [reading] at call
      have goesOn : CallFenced home s c (.readingCache revoked) := call
      split at stepped
      · cases stepped
        exact fenced.setCall c goesOn
      next scope stored =>
        split at stepped
        · cases stepped
          have late : revoked ≤ scope.began := Nat.le_trans call (fenced.redis scope stored)
          exact fenced.setCall c late
        · cases stepped
          exact fenced.setCall c goesOn
    · cases stepped
  case readCache c now =>
    split at stepped
    next revoked reading =>
      have inTime := timely revoked (by rw [reading]; rfl)
      have call := fenced.calls c
      rw [reading] at call
      split at stepped
      next missing =>
        cases stepped
        apply fenced.join c reading
        apply inTime
        intro row stored
        rw [missing] at stored
        cases stored
      next scope stored =>
        split at stepped
        · cases stepped
          have row := fenced.cache scope stored
          have late : revoked ≤ scope.began :=
            Nat.le_trans call (Nat.le_trans fenced.revoked row.2)
          exact fenced.setCall c ⟨row.1, late⟩
        next stale =>
          cases stepped
          apply fenced.join c reading
          apply inTime
          intro row isRow
          rw [stored] at isRow
          cases isRow
          exact stale
    · cases stepped
  case writeBack c now fails =>
    split at stepped
    next revoked scope writing =>
      have inTime := timely scope (by rw [writing]; rfl)
      cases stepped
      have call := fenced.calls c
      rw [writing] at call
      have stored := fenced.storeRedis now fails (Nat.le_trans inTime call.1)
      have late : revoked ≤ scope.began := call.2
      exact stored.setCall c late
    · cases stepped
  case readUser p =>
    split at stepped
    · cases stepped
      exact fenced.refreshed p (Nat.le_refl _) (by rintro _ ⟨⟩)
    · cases stepped
  case fetch p =>
    split at stepped
    next versionAtStart acquiring =>
      cases stepped
      have before := fenced.refreshes p _ acquiring
      refine fenced.refreshed p ⟨before, Nat.le_refl _⟩ ?_
      rintro _ ⟨⟩
      exact .inl (Nat.le_refl _)
    · cases stepped
  case fetched p raw now =>
    split at stepped
    next versionAtStart began fetching =>
      cases stepped
      have before := fenced.refreshes p _ fetching
      exact fenced.refreshed p before fun _ isBegan => .inr ⟨_, fetching, isBegan⟩
    · cases stepped
  case writeCache p refreshedAt =>
    split at stepped
    next scope writing =>
      have before := fenced.refreshes p _ writing
      split at stepped
      next written writes =>
        cases stepped
        obtain ⟨kept, version, inFlight⟩ := fenced.writePermissionCache before writes
        refine kept.refreshed p (version ▸ before) fun _ isBegan => ?_
        rw [inFlight]
        exact .inr ⟨_, writing, isBegan⟩
      · cases stepped
        exact fenced.refreshed p trivial fun _ isBegan => .inr ⟨_, writing, isBegan⟩
    · cases stepped
  case writeRedis p now fails =>
    split at stepped
    next scope writing =>
      have inTime := timely _ writing scope rfl
      cases stepped
      have before := fenced.refreshes p _ writing
      have stored := fenced.storeRedis now fails (Nat.le_trans inTime before.1)
      obtain ⟨inFlight, -, version⟩ := storeRedis_calls s now fails scope
      refine stored.refreshed p trivial fun _ isBegan => ?_
      rw [inFlight]
      exact .inr ⟨_, writing, isBegan⟩
    · cases stepped
  case refreshFails p =>
    have failed : (s.setRefresh p (some (.ended none))).Fenced home :=
      fenced.refreshed p trivial (by rintro _ ⟨⟩)
    split at stepped
    · cases stepped
      exact failed
    · cases stepped
      exact failed
    · cases stepped
      exact failed
    · cases stepped
  case callFails c =>
    split at stepped
    · cases stepped
      have thrown : CallFenced home s c .thrown := trivial
      exact fenced.setCall c thrown
    · cases stepped
  case settle p => exact fenced.settle stepped
  case expire =>
    cases stepped
    constructor
    · exact fenced.revoked
    · exact fenced.forgetting
    · exact fenced.cache
    · intro scope stored
      cases stored
    · exact fenced.refreshes
    · exact fun c => (fenced.calls c).mono (Nat.le_refl _) rfl
  case invalidateUsers => exact fenced.invalidateUsers stepped
  case forget version => exact fenced.forget stepped

end World

section

variable {P C : Type} [DecidableEq P] [DecidableEq C]

/-- In every run in which Redis is written and refreshes are joined in time, no call returns a scope
that was revoked before it started. -/
theorem revoked_access_stays_away (home : C → P) (version : Nat) (actions : List (Action P C))
    (timely : ∀ turn ∈ (resolving home).taken actions (.initial version),
      turn.1.Timely home turn.2) :
    ∀ s ∈ (resolving home).visited actions (.initial version), s.RevokedStaysAway := by
  have fenced : ∀ s ∈ (resolving home).visited actions (.initial version), s.Fenced home := by
    apply Automaton.visited_of_taken _ (World.Fenced.initial home version) timely
    intro s action next kept inTime stepped
    exact kept.step inTime stepped
  exact fun s reached => (fenced s reached).revokedStaysAway

end

/-- Two calls in one process. -/
def together (_ : Fin 2) : Unit := ()

/-- Repository 7 may be read. -/
def readable : RawAccessScope := ⟨[7], [], [], []⟩

/-- Call 0 finds both caches empty; its refresh has written the row and has Redis left to write. -/
def refreshed : List (Action Unit (Fin 2)) :=
  [.resolve 0, .readRedis 0 0 false, .readCache 0 0, .readUser (), .fetch (),
    .fetched () readable 0, .writeCache () 0]

/-- The refresh ends, the access is revoked, and call 1 asks again. -/
def quick : List (Action Unit (Fin 2)) :=
  refreshed ++ [.writeRedis () 0 false, .settle (), .invalidateUsers, .forget 1, .resolve 1,
    .readRedis 1 1 false, .readCache 1 1]

theorem revoked_access_stays_away_quick :
    (∀ turn ∈ (resolving together).taken quick (.initial 0), turn.1.Timely together turn.2) ∧
      ∀ s ∈ (resolving together).visited quick (.initial 0), s.RevokedStaysAway := by
  have timely : ∀ turn ∈ (resolving together).taken quick (.initial 0),
      turn.1.Timely together turn.2 := by decide
  exact ⟨timely, revoked_access_stays_away together 0 quick timely⟩

/-- The access is revoked, and the Redis key deleted, before the refresh writes Redis. -/
def overtaken : List (Action Unit (Fin 2)) :=
  refreshed ++ [.invalidateUsers, .forget 1, .writeRedis () 0 false, .settle (), .resolve 1,
    .readRedis 1 1000 false]

theorem overtaken_serves_revoked_scope :
    ¬ ∀ actions, ∀ s ∈ (resolving together).visited actions (.initial 0), s.RevokedStaysAway := by
  intro promised
  have served : ∃ s ∈ (resolving together).visited overtaken (.initial 0),
      s.calls 1 = .returned 1 ⟨⟨[7], [], [], [], 0, 0⟩, 0⟩ := by
    decide
  obtain ⟨s, reached, returned⟩ := served
  have late := promised overtaken s reached 1 1 _ returned
  exact absurd late (by decide)

end PrSearch.Authz
