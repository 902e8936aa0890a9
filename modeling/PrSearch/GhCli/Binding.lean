import PrSearch.GhCli.ResourceRef

/-! # Bindings between ports

An output port can be bound to an input port of the same type. A binding picks one reference out of the
value of the output port, and the reference has to belong to the host and the repository of the run it
goes into. Where a step fails, nothing is put in its place.
-/
namespace PrSearch.GhCli

open Query

/-! ### Ports -/

inductive GhResultSensitivity
  | public_
  | internal
  | sensitive
  | secret
deriving DecidableEq

inductive PortDirection
  | input
  | output
deriving DecidableEq

inductive Cardinality
  | one
  | many
deriving DecidableEq

def Cardinality.text : Cardinality → Text
  | .one => "one".toList
  | .many => "many".toList

inductive GhPortConditionCode
  | outputMode
  | jsonFieldsSelected
  | flagAbsent
  | sameRepository
  | repositoryFromOutput
  | urlMatchesContext
  | explicitSelection
  | singleValueAsList
  | slotAlternative
  | workspaceRequired
deriving DecidableEq

structure GhPortCondition where
  code : GhPortConditionCode
  detail : Text
deriving DecidableEq

inductive GhPortSlot
  | positional (index : Nat) (placeholder alternative : Text)
  | flag (flag : Text)
deriving DecidableEq

structure GhPort where
  id : Text
  direction : PortDirection
  type : GhResourceKind
  cardinality : Cardinality
  sensitivity : GhResultSensitivity
  conditions : List GhPortCondition
  slot : Option GhPortSlot

structure GhResultContract where
  sensitivity : GhResultSensitivity
  bindable : Bool
  composability : Text

structure GhPortEndpoint where
  capabilityId : Text
  contract : GhResultContract
  port : GhPort

/-! ### Compatibility -/

inductive GhIncompatibilityCode
  | direction
  | typeMismatch
  | secretSource
  | secretTarget
  | sourceNotBindable
  | listToList
deriving DecidableEq

def GhIncompatibilityCode.text : GhIncompatibilityCode → Text
  | .direction => "direction".toList
  | .typeMismatch => "type_mismatch".toList
  | .secretSource => "secret_source".toList
  | .secretTarget => "secret_target".toList
  | .sourceNotBindable => "source_not_bindable".toList
  | .listToList => "list_to_list".toList

structure GhIncompatibility where
  code : GhIncompatibilityCode
  detail : Text

inductive GhCompatibilityVerdict
  | direct
  | conditional
  | incompatible
deriving DecidableEq

structure GhPortCompatibility where
  verdict : GhCompatibilityVerdict
  conditions : List GhPortCondition
  reasons : List GhIncompatibility

def pushUnique (target : List GhPortCondition) (condition : GhPortCondition) : List GhPortCondition :=
  if condition ∈ target then target else target ++ [condition]

/-- The reason, when it is one. -/
def reasonWhen (holds : Bool) (code : GhIncompatibilityCode) (detail : Text) : List GhIncompatibility :=
  if holds then [⟨code, detail⟩] else []

def incompatibilities (source target : GhPortEndpoint) : List GhIncompatibility :=
  reasonWhen (source.port.direction ≠ .output ∨ target.port.direction ≠ .input) .direction
      "출력 port에서 입력 port로만 잇는다".toList
    ++ reasonWhen (source.port.type ≠ target.port.type) .typeMismatch
      (refTypeName source.port.type ++ " → ".toList ++ refTypeName target.port.type)
    ++ reasonWhen (source.contract.sensitivity = .secret ∨ source.port.sensitivity = .secret) .secretSource
      "비밀 결과는 어떤 입력으로도 흐르지 않는다 (SRS 9.8 2항)".toList
    ++ reasonWhen (target.port.sensitivity = .secret) .secretTarget
      "비밀 값을 받는 입력 자리는 참조로 채우지 않는다".toList
    ++ reasonWhen (!source.contract.bindable) .sourceNotBindable
      ("출력 쪽 결과 계약이 ".toList ++ source.contract.composability ++ "다".toList)
    ++ reasonWhen (source.port.cardinality = .many ∧ target.port.cardinality = .many) .listToList
      "목록 전체를 한 번에 넘기는 연결은 정의하지 않는다 — 상한 있는 fan-out(FR-GH-005 AC-9)이 먼저다".toList

def compatibilityConditions (source target : GhPortEndpoint) : List GhPortCondition :=
  let stated := (source.port.conditions ++ target.port.conditions).foldl pushUnique []
  let selected :=
    if source.port.cardinality = .many ∧ target.port.cardinality = .one then
      pushUnique stated ⟨.explicitSelection,
        "목록에서 원소 하나를 `/<index>`로 명시적으로 고른다 — 첫 원소를 자동으로 고르지 않는다".toList⟩
    else stated
  let listed :=
    if source.port.cardinality = .one ∧ target.port.cardinality = .many then
      pushUnique selected ⟨.singleValueAsList, "참조 하나를 한 개짜리 목록으로 넘긴다".toList⟩
    else selected
  if target.port.type ∈ REPOSITORY_SCOPED_KINDS ∧ ∀ condition ∈ listed, condition.code ≠ .sameRepository then
    listed ++ [⟨.sameRepository, "참조의 저장소가 입력 쪽 실행의 저장소와 같아야 한다".toList⟩]
  else listed

def judgePortCompatibility (source target : GhPortEndpoint) : GhPortCompatibility :=
  let reasons := incompatibilities source target
  let conditions := compatibilityConditions source target
  let verdict : GhCompatibilityVerdict :=
    if reasons.length > 0 then .incompatible else if conditions.length = 0 then .direct else .conditional
  ⟨verdict, conditions, reasons⟩

/-! ### Bindings -/

structure PortName where
  capabilityId : Text
  port : Text
deriving DecidableEq

structure GhBinding where
  source : PortName
  target : PortName
  select : Text

/-- The value of an output port. What stands in it is any JSON. -/
inductive GhPortValue
  | many (port : Text) (items : List JsonValue)
  | one (port : Text) (item : JsonValue)
  | unavailable (port reason : Text)

namespace GhPortValue

def port : GhPortValue → Text
  | .many port _ | .one port _ | .unavailable port _ => port

def cardinality : GhPortValue → Option Cardinality
  | .many .. => some .many
  | .one .. => some .one
  | .unavailable .. => none

end GhPortValue

structure GhBindingTargetContext where
  host : Text
  repository : Option RepositorySlug

inductive GhBindingRejection
  | endpointMismatch
  | incompatible
  | valueUnavailable
  | explicitSelectionRequired
  | selectionInvalid
  | selectionNotAReference
  | nullValue
  | hostMismatch
  | repositoryMissing
  | repositoryMismatch
  | unsupportedSlot
deriving DecidableEq

def BINDING_EXECUTION_BLOCKED : Text :=
  "다단계 실행(Recipe)은 열리지 않았다 (FR-GH-005) — 호환 판정은 실행 승인이 아니다".toList

structure GhBindingSuccess where
  ref : GhResourceRef
  slot : GhPortSlot
  value : Text
  conditions : List GhPortCondition
  executable : Bool
  executionBlockedReason : Text
deriving DecidableEq

structure BindingInput where
  binding : GhBinding
  source : GhPortEndpoint
  target : GhPortEndpoint
  value : GhPortValue
  targetContext : GhBindingTargetContext

def slugOf (slug : RepositorySlug) : Text := slug.owner ++ '/' :: slug.name

def argumentOf (ref : GhResourceRef) (slot : GhPortSlot) : Option Text :=
  match ref.kind with
  | .pullRequest | .issue | .discussion => ref.number.map renderNumber
  | .workflowRun | .workflow | .codespace => ref.id
  | .release | .branch | .commit => ref.ref
  | .repository =>
      match slot with
      | .positional .. => ref.repository
      | .flag _ => none
  | _ => none

abbrev Rejected := GhBindingRejection × Text

/-- The binding, the endpoints and the value name the same ports. -/
def checkEndpoints (input : BindingInput) : Except Rejected Unit :=
  if input.binding.source ≠ ⟨input.source.capabilityId, input.source.port.id⟩ ∨
      input.binding.target ≠ ⟨input.target.capabilityId, input.target.port.id⟩ ∨
      input.value.port ≠ input.source.port.id then
    .error (.endpointMismatch, "연결이 가리키는 출발·도착 port와 넘겨준 port·값이 다르다".toList)
  else
    match input.value.cardinality with
    | none => .ok ()
    | some cardinality =>
        if cardinality ≠ input.source.port.cardinality then
          .error (.endpointMismatch, "값의 개수(".toList ++ cardinality.text ++ ")가 출력 port 계약(".toList
            ++ input.source.port.cardinality.text ++ ")과 다르다".toList)
        else .ok ()

def checkCompatibility (input : BindingInput) : Except Rejected (List GhPortCondition) :=
  let compatibility := judgePortCompatibility input.source input.target
  if compatibility.verdict = .incompatible then
    .error (.incompatible, joinWith " · ".toList
      (compatibility.reasons.map fun one => one.code.text ++ ": ".toList ++ one.detail))
  else .ok compatibility.conditions

/-- The document the pointer goes into. A list needs a pointer when one reference is wanted. -/
def documentOf (input : BindingInput) : Except Rejected JsonValue :=
  match input.value with
  | .unavailable _ reason => .error (.valueUnavailable, reason)
  | .many _ items =>
      if input.target.port.cardinality = .one ∧ input.binding.select = [] then
        .error (.explicitSelectionRequired,
          "목록 결과를 단일 입력에 이으려면 원소 하나를 `/<index>`로 골라야 한다".toList)
      else .ok (.array items)
  | .one _ .null => .error (.nullValue, "출력 port의 값이 null이다".toList)
  | .one _ item => .ok item

def selectFrom (input : BindingInput) (document : JsonValue) : Except Rejected JsonValue :=
  match evaluateJsonPointer document input.binding.select with
  | .error (problem, none) => .error (.selectionInvalid, problem.text)
  | .error (problem, some token) =>
      .error (.selectionInvalid, problem.text ++ " (".toList ++ token ++ ")".toList)
  | .ok selected => .ok selected

def referenceOf (input : BindingInput) (selected : JsonValue) : Except Rejected GhResourceRef :=
  match validateResourceRef selected (some input.target.port.type) with
  | .error problem =>
      .error (.selectionNotAReference, "고른 값이 ".toList ++ refTypeName input.target.port.type
        ++ "가 아니다 (".toList ++ problem.text ++ ")".toList)
  | .ok ref => .ok ref

section Context

-- `toLowerCase`
variable (lower : Text → Text)

def checkContext (context : GhBindingTargetContext) (ref : GhResourceRef) : Except Rejected Unit :=
  if lower ref.host ≠ lower context.host then
    .error (.hostMismatch, "참조의 호스트(".toList ++ ref.host ++ ")가 입력 쪽 실행의 호스트와 다르다".toList)
  else if ref.kind ∈ REPOSITORY_SCOPED_KINDS then
    match context.repository with
    | none => .error (.repositoryMissing, "입력 쪽 실행에 저장소 컨텍스트가 없다".toList)
    | some slug =>
        if ref.repository.map lower ≠ some (lower (slugOf slug)) then
          .error (.repositoryMismatch, "참조의 저장소(".toList ++ ref.repository.getD "null".toList
            ++ ")가 입력 쪽 실행의 저장소와 다르다".toList)
        else .ok ()
  else .ok ()

def argumentFor (port : GhPort) (ref : GhResourceRef) : Except Rejected (GhPortSlot × Text) :=
  match port.slot with
  | none => .error (.unsupportedSlot, "입력 port에 참조를 넣을 자리가 없다".toList)
  | some slot =>
      match argumentOf ref slot with
      | none => .error (.unsupportedSlot, "입력 port에 참조를 넣을 자리가 없다".toList)
      | some value => .ok (slot, value)

/-- The endpoints, the types, the value, the selection, the reference, the context and the place, in
this order. -/
def evaluateBinding (input : BindingInput) : Except Rejected GhBindingSuccess := do
  checkEndpoints input
  let conditions ← checkCompatibility input
  let document ← documentOf input
  let selected ← selectFrom input document
  let ref ← referenceOf input selected
  checkContext lower input.targetContext ref
  let (slot, value) ← argumentFor input.target.port ref
  pure ⟨ref, slot, value, conditions, false, BINDING_EXECUTION_BLOCKED⟩

end Context

end PrSearch.GhCli
