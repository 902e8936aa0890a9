import PrSearch.GhCli.JsonPointer

/-! # References to resources

A reference names a resource of a host. Each kind says which of its places hold the identity, and all
others stay empty, so that an issue and a pull request of one number are not read as one reference.
-/
namespace PrSearch.GhCli

open Query

inductive GhResourceKind
  | repository
  | pullRequest
  | issue
  | discussion
  | workflow
  | workflowRun
  | release
  | project
  | codespace
  | artifact
  | gist
  | user
  | team
  | branch
  | commit
deriving DecidableEq

namespace GhResourceKind

def text : GhResourceKind → Text
  | .repository => "repository".toList
  | .pullRequest => "pull_request".toList
  | .issue => "issue".toList
  | .discussion => "discussion".toList
  | .workflow => "workflow".toList
  | .workflowRun => "workflow_run".toList
  | .release => "release".toList
  | .project => "project".toList
  | .codespace => "codespace".toList
  | .artifact => "artifact".toList
  | .gist => "gist".toList
  | .user => "user".toList
  | .team => "team".toList
  | .branch => "branch".toList
  | .commit => "commit".toList

end GhResourceKind

def RESOURCE_KINDS : List GhResourceKind :=
  [.repository, .pullRequest, .issue, .discussion, .workflow, .workflowRun, .release, .project,
    .codespace, .artifact, .gist, .user, .team, .branch, .commit]

/-- What belongs to a repository. -/
def REPOSITORY_SCOPED_KINDS : List GhResourceKind :=
  [.pullRequest, .issue, .discussion, .workflow, .workflowRun, .release, .branch, .commit]

/-- The kinds with a rule for their identity. -/
def IDENTIFIABLE_KINDS : List GhResourceKind :=
  [.repository, .pullRequest, .issue, .discussion, .workflow, .workflowRun, .release, .codespace,
    .branch, .commit]

structure GhResourceRef where
  host : Text
  kind : GhResourceKind
  repository : Option Text
  id : Option Text
  number : Option Int
  ref : Option Text
deriving DecidableEq

inductive GhRefProblem
  | shape
  | host
  | kind
  | kindMismatch
  | kindWithoutIdentityRule
  | repository
  | number
  | id
  | ref
  | unexpectedIdentity
deriving DecidableEq

def GhRefProblem.text : GhRefProblem → Text
  | .shape => "shape".toList
  | .host => "host".toList
  | .kind => "kind".toList
  | .kindMismatch => "kind_mismatch".toList
  | .kindWithoutIdentityRule => "kind_without_identity_rule".toList
  | .repository => "repository".toList
  | .number => "number".toList
  | .id => "id".toList
  | .ref => "ref".toList
  | .unexpectedIdentity => "unexpected_identity".toList

/-- `PullRequestRef` of `pull_request`. -/
def refTypeName (kind : GhResourceKind) : Text :=
  (kind.text.splitOn '_').flatMap (fun part => part.modifyHead Char.toUpper) ++ "Ref".toList

/-! ### The formats -/

def isHostName : Text → Bool
  | [] => false
  | first :: rest =>
      first.isAlphanum && rest.all (fun c => c.isAlphanum || c == '.' || c == '-') && decide (rest.length ≤ 252)

def isPort : Text → Bool
  | [] => true
  | _ :: digits => digits.all Char.isDigit && decide (1 ≤ digits.length) && decide (digits.length ≤ 5)

/-- `^[A-Za-z0-9](?:[A-Za-z0-9.-]{0,252})(?::[0-9]{1,5})?$` -/
def isHost (text : Text) : Bool :=
  isHostName (text.takeWhile (· ≠ ':')) && isPort (text.dropWhile (· ≠ ':'))

/-- `^[1-9][0-9]{0,15}$` -/
def isPositiveDecimal : Text → Bool
  | [] => false
  | first :: rest => first.isDigit && first != '0' && rest.all Char.isDigit && decide (rest.length ≤ 15)

def isLowerHex (c : Char) : Bool := c.isDigit || ('a' ≤ c && c ≤ 'f')

/-- `^(?:[0-9a-f]{40}|[0-9a-f]{64})$` -/
def isCommitSha (text : Text) : Bool := text.all isLowerHex && (text.length == 40 || text.length == 64)

/-- No control characters, no spaces, no hyphen at the beginning. -/
def isSafeName (text : Text) : Bool :=
  decide (text ≠ []) && decide (units text ≤ 255) && text.head? != some '-' &&
    text.all fun c => decide (0x20 < c.toNat) && c.toNat != 0x7f && !isSpace c

/-! ### Validation -/

def REF_KEYS : List Text :=
  ["host".toList, "id".toList, "kind".toList, "number".toList, "ref".toList, "repository".toList]

/-- The places of a reference, still unread. -/
structure RawRef where
  host : JsonValue
  kind : JsonValue
  repository : JsonValue
  id : JsonValue
  number : JsonValue
  ref : JsonValue

/-- An object with these keys and no others. -/
def rawRefOf : JsonValue → Except GhRefProblem RawRef
  | .object members =>
      if (members.map Prod.fst).isPerm REF_KEYS then
        let field (name : Text) := (members.lookup name).getD .null
        .ok ⟨field "host".toList, field "kind".toList, field "repository".toList, field "id".toList,
          field "number".toList, field "ref".toList⟩
      else .error .shape
  | _ => .error .shape

def hostOf : JsonValue → Except GhRefProblem Text
  | .text host => if isHost host then .ok host else .error .host
  | _ => .error .host

def kindOf (expected : Option GhResourceKind) : JsonValue → Except GhRefProblem GhResourceKind
  | .text text =>
      match RESOURCE_KINDS.find? (·.text = text) with
      | none => .error .kind
      | some kind =>
          if expected.any (· ≠ kind) then .error .kindMismatch
          else if kind ∈ IDENTIFIABLE_KINDS then .ok kind
          else .error .kindWithoutIdentityRule
  | _ => .error .kind

/-- A resource of a repository names it, another one may. -/
def repositoryOf (kind : GhResourceKind) : JsonValue → Except GhRefProblem (Option Text)
  | .text repository =>
      if (parseRepositorySlug (.text repository)).isSome then .ok (some repository) else .error .repository
  | .null =>
      if kind ∈ REPOSITORY_SCOPED_KINDS ∨ kind = .repository then .error .repository else .ok none
  | _ => .error .repository

def isNull : JsonValue → Bool
  | .null => true
  | _ => false

/-- The number of a pull request, an issue or a discussion. -/
def numberIdentity (raw : RawRef) : Except GhRefProblem Int :=
  match raw.number with
  | .number number =>
      if isSafeNumber number ∧ 0 < number.num then
        if isNull raw.id && isNull raw.ref then .ok number.num else .error .unexpectedIdentity
      else .error .number
  | _ => .error .number

/-- A text in one of the places, which has a format, and nothing in the two others. -/
def textIdentity (place : JsonValue) (format : Text → Bool) (problem : GhRefProblem) (one other : JsonValue) :
    Except GhRefProblem Text :=
  match place with
  | .text text =>
      if format text then
        if isNull one && isNull other then .ok text else .error .unexpectedIdentity
      else .error problem
  | _ => .error problem

/-- The three places of the identity: `id`, `number` and `ref`. -/
def identityOf (raw : RawRef) : GhResourceKind → Except GhRefProblem (Option Text × Option Int × Option Text)
  | .pullRequest | .issue | .discussion => (numberIdentity raw).map fun number => (none, some number, none)
  | .workflowRun | .workflow =>
      (textIdentity raw.id isPositiveDecimal .id raw.number raw.ref).map fun id => (some id, none, none)
  | .release | .branch =>
      (textIdentity raw.ref isSafeName .ref raw.number raw.id).map fun ref => (none, none, some ref)
  | .commit => (textIdentity raw.ref isCommitSha .ref raw.number raw.id).map fun ref => (none, none, some ref)
  | .repository =>
      if isNull raw.id && isNull raw.number && isNull raw.ref then .ok (none, none, none)
      else .error .unexpectedIdentity
  | .codespace => (textIdentity raw.id isSafeName .id raw.number raw.ref).map fun id => (some id, none, none)
  | _ => .error .kindWithoutIdentityRule

def validateResourceRef (value : JsonValue) (expected : Option GhResourceKind) :
    Except GhRefProblem GhResourceRef := do
  let raw ← rawRefOf value
  let host ← hostOf raw.host
  let kind ← kindOf expected raw.kind
  let repository ← repositoryOf kind raw.repository
  let (id, number, ref) ← identityOf raw kind
  pure ⟨host, kind, repository, id, number, ref⟩

/-! ### What a validated reference is -/

/-- Only the place that the kind names is filled, in its format. -/
def GhResourceRef.Identified (reference : GhResourceRef) : Prop :=
  match reference.kind with
  | .pullRequest | .issue | .discussion =>
      reference.id = none ∧ reference.ref = none ∧
        ∃ number, reference.number = some number ∧ 0 < number ∧ isSafeInteger number = true
  | .workflowRun | .workflow =>
      reference.number = none ∧ reference.ref = none ∧
        ∃ id, reference.id = some id ∧ isPositiveDecimal id = true
  | .release | .branch =>
      reference.id = none ∧ reference.number = none ∧ ∃ ref, reference.ref = some ref ∧ isSafeName ref = true
  | .commit =>
      reference.id = none ∧ reference.number = none ∧ ∃ ref, reference.ref = some ref ∧ isCommitSha ref = true
  | .repository => reference.id = none ∧ reference.number = none ∧ reference.ref = none
  | .codespace =>
      reference.number = none ∧ reference.ref = none ∧ ∃ id, reference.id = some id ∧ isSafeName id = true
  | _ => False

/-- The repository has the format of one, and is there where the kind asks for it. -/
def GhResourceRef.InRepository (reference : GhResourceRef) : Prop :=
  (∀ repository, reference.repository = some repository →
    (parseRepositorySlug (.text repository)).isSome = true) ∧
  (reference.kind ∈ REPOSITORY_SCOPED_KINDS ∨ reference.kind = .repository → reference.repository ≠ none)

def optionalText : Option Text → JsonValue
  | none => .null
  | some text => .text text

def optionalNumber : Option Int → JsonValue
  | none => .null
  | some number => .number number

/-- A reference as an object. -/
def GhResourceRef.members (reference : GhResourceRef) : List (Text × JsonValue) :=
  [("host".toList, .text reference.host), ("id".toList, optionalText reference.id),
    ("kind".toList, .text reference.kind.text), ("number".toList, optionalNumber reference.number),
    ("ref".toList, optionalText reference.ref), ("repository".toList, optionalText reference.repository)]

/-- The value is the reference, whatever the order of its members. -/
def GhResourceRef.WrittenAs (reference : GhResourceRef) (value : JsonValue) : Prop :=
  ∃ members, value = .object members ∧ members.Perm reference.members

variable {value : JsonValue}

variable {expected : Option GhResourceKind} {reference : GhResourceRef} {kind : GhResourceKind}
  {raw : RawRef} {members : List (Text × JsonValue)}

/-! ### One place after the other -/

theorem validateResourceRef_ok (validated : validateResourceRef value expected = .ok reference) :
    ∃ raw, rawRefOf value = .ok raw ∧ hostOf raw.host = .ok reference.host ∧
      kindOf expected raw.kind = .ok reference.kind ∧
      repositoryOf reference.kind raw.repository = .ok reference.repository ∧
      identityOf raw reference.kind = .ok (reference.id, reference.number, reference.ref) := by
  obtain ⟨raw, shaped, rest⟩ := bind_ok_iff.mp validated
  obtain ⟨host, hosted, rest⟩ := bind_ok_iff.mp rest
  obtain ⟨kind, typed, rest⟩ := bind_ok_iff.mp rest
  obtain ⟨repository, placed, rest⟩ := bind_ok_iff.mp rest
  obtain ⟨⟨id, number, ref⟩, identified, made⟩ := bind_ok_iff.mp rest
  cases made
  exact ⟨raw, shaped, hosted, typed, placed, identified⟩

theorem hostOf_ok {host : Text} (read : hostOf value = .ok host) :
    value = .text host ∧ isHost host = true := by
  cases value with
  | text text =>
    rw [hostOf] at read
    split at read
    next format =>
      cases read
      exact ⟨rfl, format⟩
    · cases read
  | null | bool | number | array | object => cases read

theorem kindOf_ok (read : kindOf expected value = .ok kind) :
    value = .text kind.text ∧ (∀ wanted, expected = some wanted → kind = wanted) := by
  cases value with
  | text text =>
    rw [kindOf] at read
    split at read
    · cases read
    next found known =>
      split at read
      · cases read
      next matching =>
        split at read
        · cases read
          have named := List.find?_some known
          refine ⟨congrArg JsonValue.text (of_decide_eq_true named).symm, ?_⟩
          rintro wanted rfl
          simp only [Option.any_some, decide_eq_true_eq, not_not] at matching
          exact matching.symm
        · cases read
  | null | bool | number | array | object => cases read

theorem repositoryOf_ok {repository : Option Text} (read : repositoryOf kind value = .ok repository) :
    value = optionalText repository ∧
      (∀ slug, repository = some slug → (parseRepositorySlug (.text slug)).isSome = true) ∧
      (kind ∈ REPOSITORY_SCOPED_KINDS ∨ kind = .repository → repository ≠ none) := by
  cases value with
  | text text =>
    rw [repositoryOf] at read
    split at read
    next format =>
      cases read
      refine ⟨rfl, ?_, fun _ => Option.some_ne_none _⟩
      rintro slug ⟨⟩
      exact format
    · cases read
  | null =>
    rw [repositoryOf] at read
    split at read
    · cases read
    next free =>
      cases read
      refine ⟨rfl, ?_, fun named => absurd named free⟩
      rintro slug ⟨⟩
  | bool | number | array | object => cases read

theorem isNull_iff : isNull value = true ↔ value = .null := by
  cases value <;> simp [isNull]

theorem numberIdentity_ok {number : Int} (read : numberIdentity raw = .ok number) :
    raw.number = .number number ∧ 0 < number ∧ isSafeInteger number = true ∧ raw.id = .null ∧ raw.ref = .null := by
  unfold numberIdentity at read
  split at read
  next value place =>
    split at read
    next format =>
      split at read
      next empty =>
        cases read
        rw [Bool.and_eq_true, isNull_iff, isNull_iff] at empty
        obtain ⟨safe, positive⟩ := format
        rw [isSafeNumber, Bool.and_eq_true, beq_iff_eq] at safe
        have whole : value = (value.num : ℚ) := ((Rat.den_eq_one_iff value).mp safe.1).symm
        rw [← whole]
        exact ⟨place, positive, safe.2, empty⟩
      · cases read
    · cases read
  · cases read

theorem textIdentity_ok {place one other : JsonValue} {format : Text → Bool} {problem : GhRefProblem} {text : Text}
    (read : textIdentity place format problem one other = .ok text) :
    place = .text text ∧ format text = true ∧ one = .null ∧ other = .null := by
  unfold textIdentity at read
  split at read
  · split at read
    next good =>
      split at read
      next empty =>
        cases read
        rw [Bool.and_eq_true, isNull_iff, isNull_iff] at empty
        exact ⟨rfl, good, empty⟩
      · cases read
    · cases read
  · cases read

theorem map_ok {α β ε : Type} {result : Except ε α} {f : α → β} {value : β} (mapped : result.map f = .ok value) :
    ∃ inner, result = .ok inner ∧ value = f inner := by
  cases result with
  | error problem => cases mapped
  | ok inner =>
    cases mapped
    exact ⟨inner, rfl, rfl⟩

/-- The places of the identity hold what the reference says, in the format of its kind. -/
theorem identityOf_ok
    (read : identityOf raw reference.kind = .ok (reference.id, reference.number, reference.ref)) :
    (raw.id = optionalText reference.id ∧ raw.number = optionalNumber reference.number ∧
      raw.ref = optionalText reference.ref) ∧ reference.Identified := by
  obtain ⟨host, kind, repository, id, number, ref⟩ := reference
  dsimp only at read
  cases kind with
  | pullRequest | issue | discussion =>
    obtain ⟨value, found, same⟩ := map_ok read
    cases same
    obtain ⟨place, positive, safe, noId, noRef⟩ := numberIdentity_ok found
    exact ⟨⟨noId, place, noRef⟩, rfl, rfl, value, rfl, positive, safe⟩
  | workflow | workflowRun | codespace =>
    obtain ⟨value, found, same⟩ := map_ok read
    cases same
    obtain ⟨place, format, noNumber, noRef⟩ := textIdentity_ok found
    exact ⟨⟨place, noNumber, noRef⟩, rfl, rfl, value, rfl, format⟩
  | release | branch | commit =>
    obtain ⟨value, found, same⟩ := map_ok read
    cases same
    obtain ⟨place, format, noNumber, noId⟩ := textIdentity_ok found
    exact ⟨⟨noId, noNumber, place⟩, rfl, rfl, value, rfl, format⟩
  | repository =>
    simp only [identityOf] at read
    split at read
    next empty =>
      cases read
      simp only [Bool.and_eq_true, isNull_iff] at empty
      exact ⟨⟨empty.1.1, empty.1.2, empty.2⟩, rfl, rfl, rfl⟩
    · cases read
  | project | artifact | gist | user | team => cases read

/-! ### The whole reference -/

theorem lookup_of_mem (once : (members.map Prod.fst).Nodup) {key : Text}
    (inside : (key, value) ∈ members) : members.lookup key = some value := by
  induction members with
  | nil => cases inside
  | cons member rest ih =>
    obtain ⟨name, first⟩ := member
    simp only [List.map_cons, List.nodup_cons] at once
    rcases List.mem_cons.mp inside with same | later
    · cases same
      simp
    · have other : key ≠ name := by
        rintro rfl
        exact once.1 (List.mem_map.mpr ⟨_, later, rfl⟩)
      rw [List.lookup_cons, beq_false_of_ne other]
      exact ih once.2 later

-- Where keys come once, a list of members is its keys with what each looks up.
theorem members_of_keys (once : (members.map Prod.fst).Nodup) :
    (members.map Prod.fst).map (fun key => (key, (members.lookup key).getD .null)) = members := by
  rw [List.map_map]
  refine (List.map_congr_left fun member inside => ?_).trans (List.map_id members)
  simp [lookup_of_mem once inside]

theorem rawRefOf_ok (read : rawRefOf value = .ok raw) :
    ∃ members, value = .object members ∧ members.Perm
      [("host".toList, raw.host), ("id".toList, raw.id), ("kind".toList, raw.kind), ("number".toList, raw.number),
        ("ref".toList, raw.ref), ("repository".toList, raw.repository)] := by
  cases value with
  | object members =>
    rw [rawRefOf] at read
    split at read
    next keys =>
      cases read
      have order := List.isPerm_iff.mp keys
      have once : (members.map Prod.fst).Nodup := order.nodup_iff.mpr (by decide)
      refine ⟨members, rfl, ?_⟩
      have listed := order.map fun key => (key, (members.lookup key).getD .null)
      rw [members_of_keys once] at listed
      exact listed
    · cases read
  | null | bool | number | text | array => cases read

/-- A validated reference is the value, with the wanted kind and its identity. -/
theorem validated (read : validateResourceRef value expected = .ok reference) :
    reference.WrittenAs value ∧ reference.Identified ∧ reference.InRepository ∧
      ∀ wanted, expected = some wanted → reference.kind = wanted := by
  obtain ⟨raw, shaped, hosted, typed, placed, identified⟩ := validateResourceRef_ok read
  obtain ⟨members, rfl, order⟩ := rawRefOf_ok shaped
  obtain ⟨host, _⟩ := hostOf_ok hosted
  obtain ⟨kind, wanted⟩ := kindOf_ok typed
  obtain ⟨repository, format, named⟩ := repositoryOf_ok placed
  obtain ⟨⟨id, number, ref⟩, rule⟩ := identityOf_ok identified
  refine ⟨⟨members, rfl, ?_⟩, rule, ⟨format, named⟩, wanted⟩
  rw [host, kind, repository, id, number, ref] at order
  exact order

end PrSearch.GhCli
