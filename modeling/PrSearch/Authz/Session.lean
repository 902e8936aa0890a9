import Mathlib.Algebra.Ring.Int.Defs
import Mathlib.Algebra.Ring.Nat
import Mathlib.Logic.Function.Basic
import PrSearch.Lib.Automaton
import PrSearch.Lib.Json

/-! # Sessions

A session is one Redis key: JSON with a time to live. It ends at the earlier of two deadlines, eight
hours after it was last seen and twelve hours after it was issued. `load` reads the key, judges the
session by the clock of its own process and, when it was last seen a minute ago or more, writes it
back with a new `lastSeenAt`. `destroy` deletes the key; `destroyAllForUser` scans the keys and
deletes those of one user. Every command to Redis is one step and may fail, before it is carried out
or after. Redis has a clock of its own.

Beside the store the model keeps when each session was issued, the sessions whose key a logout has
deleted, those whose logout has completed, and for each `load` whether a logout of its session had
completed when it started.
-/
namespace PrSearch.Authz.Session

open Lib

structure SessionRecord where
  sessionId : String
  userId : String
  login : String
  email : Option String
  roles : List String
  issuedAt : Int
  lastSeenAt : Int
  correlationId : Option String
  githubUserId : Option Int
  deriving DecidableEq, Repr

/-- `Number.isSafeInteger(value) && value > 0` -/
def isGithubUserId (value : Int) : Bool := 0 < value && value ≤ 2 ^ 53 - 1

def stringOrNull (value : Option String) : Json := (value.map Json.string).getD .null

/-- `JSON.stringify(session)` -/
def SessionRecord.json (session : SessionRecord) : Json :=
  .object ([("sessionId", .string session.sessionId), ("userId", .string session.userId),
    ("login", .string session.login), ("email", stringOrNull session.email),
    ("roles", .array (session.roles.map .string)), ("issuedAt", .number session.issuedAt),
    ("lastSeenAt", .number session.lastSeenAt),
    ("correlationId", stringOrNull session.correlationId)] ++
    (session.githubUserId.map fun value => ("githubUserId", Json.number value)).toList)

/-- A field that must be a string. -/
def textField (fields : List (String × Json)) (key : String) : Option String :=
  (fields.lookup key).bind Json.asString

def numberField (fields : List (String × Json)) (key : String) : Option Int :=
  (fields.lookup key).bind Json.asNumber

/-- What the stored text says; a text that is no JSON counts as `null`. -/
def parseSession : Json → Option SessionRecord
  | .object value => do
      let sessionId ← textField value "sessionId"
      let userId ← textField value "userId"
      let login ← textField value "login"
      let issuedAt ← numberField value "issuedAt"
      let lastSeenAt ← numberField value "lastSeenAt"
      let roles ← (value.lookup "roles").bind Json.asStrings
      if sessionId = "" ∨ userId = "" then none
      else
        some ⟨sessionId, userId, login, textField value "email", roles, issuedAt, lastSeenAt,
          textField value "correlationId",
          (numberField value "githubUserId").filter isGithubUserId⟩
  | _ => none

/-! ### Deadlines -/

def idleTimeoutMs : Int := 8 * 60 * 60 * 1000

def absoluteTimeoutMs : Int := 12 * 60 * 60 * 1000

def touchIntervalMs : Int := 60 * 1000

/-- Milliseconds, as `issuedAt` and `lastSeenAt`. -/
structure SessionDeadlines where
  idleExpiresAt : Int
  absoluteExpiresAt : Int
  deriving DecidableEq, Repr

def deadlinesOf (session : SessionRecord) : SessionDeadlines where
  idleExpiresAt := session.lastSeenAt + idleTimeoutMs
  absoluteExpiresAt := session.issuedAt + absoluteTimeoutMs

inductive ExpiryReason
  | idle
  | absolute
  deriving DecidableEq, Repr

def expiryOf (session : SessionRecord) (now : Int) : Option ExpiryReason :=
  let deadlines := deadlinesOf session
  if deadlines.absoluteExpiresAt ≤ now then some .absolute
  else if deadlines.idleExpiresAt ≤ now then some .idle
  else none

/-- `Math.max(1, Math.ceil((until - now) / 1000))` -/
def remainingTtlSeconds (session : SessionRecord) (now : Int) : Int :=
  let deadlines := deadlinesOf session
  let untilAt := min deadlines.idleExpiresAt deadlines.absoluteExpiresAt
  max 1 (-((now - untilAt) / 1000))

theorem before_deadlines {session : SessionRecord} {now : Int}
    (alive : expiryOf session now = none) :
    now < session.issuedAt + absoluteTimeoutMs ∧ now < session.lastSeenAt + idleTimeoutMs := by
  by_cases absolute : session.issuedAt + absoluteTimeoutMs ≤ now
  · simp [expiryOf, deadlinesOf, absolute] at alive
  by_cases idle : session.lastSeenAt + idleTimeoutMs ≤ now
  · simp [expiryOf, deadlinesOf, absolute, idle] at alive
  exact ⟨Int.not_le.mp absolute, Int.not_le.mp idle⟩

/-- A touch moves the idle deadline only. -/
def SessionRecord.touch (session : SessionRecord) (now : Int) : SessionRecord :=
  { session with lastSeenAt := now }

/-! ### What is read back was written -/

@[simp] theorem asString_string (value : String) : (Json.string value).asString = some value := rfl

@[simp] theorem asString_stringOrNull (value : Option String) :
    (stringOrNull value).asString = value := by
  cases value <;> rfl

@[simp] theorem asNumber_number (value : Int) : (Json.number value).asNumber = some value := rfl

@[simp] theorem asStrings_array (values : List String) :
    (Json.array (values.map .string)).asStrings = some values := by
  induction values with
  | nil => rfl
  | cons value rest ih =>
    simp only [Json.asStrings] at ih ⊢
    simp [ih]

/-- Only a `githubUserId` that is none is lost. -/
theorem parseSession_json (session : SessionRecord) (named : session.sessionId ≠ "")
    (owned : session.userId ≠ "") :
    parseSession session.json =
      some { session with githubUserId := session.githubUserId.filter isGithubUserId } := by
  cases github : session.githubUserId with
  | none =>
    simp [SessionRecord.json, parseSession, textField, numberField, List.lookup_cons, named, owned,
      github]
  | some value =>
    simp [SessionRecord.json, parseSession, textField, numberField, List.lookup_cons, named, owned,
      github]

/-- A session that was not named or not owned is not read back at all. -/
theorem parseSession_json_eq_some {session parsed : SessionRecord}
    (read : parseSession session.json = some parsed) :
    parsed.sessionId = session.sessionId ∧ parsed.issuedAt = session.issuedAt := by
  by_cases nameless : session.sessionId = "" ∨ session.userId = ""
  · simp [SessionRecord.json, parseSession, textField, numberField, List.lookup_cons, nameless] at read
  · have named : session.sessionId ≠ "" := fun empty => nameless (.inl empty)
    have owned : session.userId ≠ "" := fun empty => nameless (.inr empty)
    rw [parseSession_json session named owned] at read
    cases read
    exact ⟨rfl, rfl⟩

end PrSearch.Authz.Session
