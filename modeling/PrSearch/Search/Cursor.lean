import PrSearch.Authz.ScopeForms
import PrSearch.Query.Serialize
import PrSearch.Search.Elastic

/-! # Cursors of a list

A cursor says where a list goes on: the point in time, the sort values of the last item, and the
fingerprint of the search that it belongs to. It is signed and expires. The material of a fingerprint is a
line of words, with a branch and a binding behind the others when there are some.
-/
namespace PrSearch.Search.Listing

open Query Authz

structure FingerprintInput where
  query : Text
  sortKey : SortKey
  order : SortOrder
  scope : AccessScope
  scopeVersion : Int
  sequenceEpoch : Option Int
  mergeNumberEpoch : Option Int
  mergeNumberBaseBranch : Option Text
  binding : Option Text

/-- `[...values].sort().join(',')` -/
def sortedList (values : List Text) : Text :=
  [','].intercalate (values.mergeSort fun a b => a ≤ b)

def scopeMaterial : AccessScope → Text
  | .explicit repositoryIds => "explicit|".toList ++ sortedList (repositoryIds.map renderNumber)
  | .orgTeam orgIds teamIds visibilities =>
      "org_team|".toList ++ sortedList (orgIds.map renderNumber) ++ '|' :: sortedList (teamIds.map renderNumber) ++
        '|' :: sortedList (visibilities.map String.toList)

/-- The words behind the query. -/
def materialWords (input : FingerprintInput) : List Text :=
  [input.sortKey.name.toList, input.order.name.toList, scopeMaterial input.scope,
    renderNumber input.scopeVersion, input.sequenceEpoch.elim [] renderNumber,
    input.mergeNumberEpoch.elim [] renderNumber] ++
  (input.mergeNumberBaseBranch.toList.map fun branch => "mnum_base:".toList ++ branch) ++
  input.binding.toList.map fun binding => "binding:".toList ++ binding

/-- What `computeFingerprint` hashes. -/
def material (input : FingerprintInput) : Text :=
  [' '].intercalate (input.query :: materialWords input)

def computeFingerprint (hash : Text → Text) (input : FingerprintInput) : Text :=
  hash (material input)

/-! ### Envelopes -/

def searchCursorVersion : Int := 1

/-- `CURSOR_TTL_MS` -/
def cursorTtlMs : Int := 5 * 60 * 1000

structure SearchCursorPayload (σ : Type) where
  v : Int
  p : String
  s : List (SortValue σ)
  f : Text
  x : Int

/-- The signed payload. -/
structure Envelope (σ : Type) where
  payload : SearchCursorPayload σ
  signature : Text

abbrev CursorSigner (σ : Type) := SearchCursorPayload σ → Text

structure SearchCursor (σ : Type) where
  pitId : String
  searchAfter : List (SortValue σ)

inductive CursorError
  | invalid (reason : String)
  | queryMismatch (reason : String)
  deriving DecidableEq, Repr

section

variable {σ : Type}

def encodeSearchCursor (cursor : SearchCursor σ) (fingerprint : Text) (sign : CursorSigner σ)
    (nowMs : Int) : Envelope σ :=
  let payload : SearchCursorPayload σ :=
    ⟨searchCursorVersion, cursor.pitId, cursor.searchAfter, fingerprint, nowMs + cursorTtlMs⟩
  ⟨payload, sign payload⟩

def decodeSearchCursor (raw : Envelope σ) (fingerprint : Text) (sign : CursorSigner σ)
    (nowMs : Int) : Except CursorError (SearchCursor σ) :=
  let payload := raw.payload
  if raw.signature ≠ sign payload then .error (.invalid "서명이 일치하지 않는다")
  else if payload.v ≠ searchCursorVersion then
    .error (.invalid ("모르는 커서 버전: " ++ toString payload.v))
  else if payload.x ≤ nowMs then .error (.invalid "만료되었다")
  else if payload.p = "" then .error (.invalid "PIT 식별자가 없다")
  else if payload.s = [] then .error (.invalid "정렬 키 값이 없다")
  else if payload.f = [] then .error (.invalid "지문이 없다")
  else if payload.f ≠ fingerprint then
    .error (.queryMismatch "질의·정렬·접근 범위가 커서 발급 시점과 다르다")
  else .ok ⟨payload.p, payload.s⟩

end
end PrSearch.Search.Listing
