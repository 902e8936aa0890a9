import PrSearch.GhCli.Binding

/-! # Bindings stay in their context

A binding that is made names the one reference that its pointer reaches in the value of the port. The
reference has the type of the input, stands in the host and the repository of the run, and does not come
from a secret. A pair of ports that is judged incompatible stays so when one of them becomes stricter.
-/
namespace PrSearch.GhCli

open Query

/-! ### Compatibility -/

/-- The pair has none of the reasons against it. -/
structure Compatible (source target : GhPortEndpoint) : Prop where
  output : source.port.direction = .output
  input : target.port.direction = .input
  type : source.port.type = target.port.type
  contract : source.contract.sensitivity ≠ .secret
  sourcePort : source.port.sensitivity ≠ .secret
  targetPort : target.port.sensitivity ≠ .secret
  bindable : source.contract.bindable = true
  single : source.port.cardinality = .many → target.port.cardinality = .one

theorem reasonWhen_eq_nil {holds : Bool} {code : GhIncompatibilityCode} {detail : Text} :
    reasonWhen holds code detail = [] ↔ holds = false := by
  cases holds <;> simp [reasonWhen]

theorem Cardinality.ne_many {cardinality : Cardinality} : cardinality ≠ .many ↔ cardinality = .one := by
  cases cardinality <;> simp

variable {source target : GhPortEndpoint} {ref : GhResourceRef}

theorem incompatibilities_eq_nil :
    incompatibilities source target = [] ↔ Compatible source target := by
  simp only [incompatibilities, List.append_eq_nil_iff, reasonWhen_eq_nil, decide_eq_false_iff_not, not_or,
    not_and, not_not, Bool.not_eq_false']
  constructor
  · rintro ⟨⟨⟨⟨⟨⟨output, input⟩, type⟩, contract, sourcePort⟩, targetPort⟩, bindable⟩, single⟩
    exact ⟨output, input, type, contract, sourcePort, targetPort, bindable, fun many =>
      Cardinality.ne_many.mp (single many)⟩
  · intro fits
    exact ⟨⟨⟨⟨⟨⟨fits.output, fits.input⟩, fits.type⟩, fits.contract, fits.sourcePort⟩, fits.targetPort⟩,
      fits.bindable⟩, fun many => Cardinality.ne_many.mpr (fits.single many)⟩

theorem incompatible_iff :
    (judgePortCompatibility source target).verdict = .incompatible ↔ ¬Compatible source target := by
  rw [← incompatibilities_eq_nil]
  simp only [judgePortCompatibility]
  cases incompatibilities source target with
  | nil =>
    simp only [List.length_nil, gt_iff_lt, lt_self_iff_false, if_false, not_true_eq_false, iff_false]
    split <;> exact nofun
  | cons reason rest => simp

/-- A sensitivity that stays or becomes secret. -/
def Classified (before after : GhResultSensitivity) : Prop := after = before ∨ after = .secret

/-- Ports and contracts become secret or unbindable, and the types stay or become different. -/
structure Stricter (source target source' target' : GhPortEndpoint) : Prop where
  directions : source'.port.direction = source.port.direction ∧ target'.port.direction = target.port.direction
  cardinalities : source'.port.cardinality = source.port.cardinality ∧
    target'.port.cardinality = target.port.cardinality
  sourceContract : Classified source.contract.sensitivity source'.contract.sensitivity
  sourcePort : Classified source.port.sensitivity source'.port.sensitivity
  targetContract : Classified target.contract.sensitivity target'.contract.sensitivity
  targetPort : Classified target.port.sensitivity target'.port.sensitivity
  bindable : source'.contract.bindable = true → source.contract.bindable = true
  types : (source'.port.type = source.port.type ∧ target'.port.type = target.port.type) ∨
    source'.port.type ≠ target'.port.type

theorem Classified.ne_secret {before after : GhResultSensitivity} (classified : Classified before after)
    (free : after ≠ .secret) : before ≠ .secret := by
  rcases classified with same | secret
  · rwa [same] at free
  · exact absurd secret free

theorem compatible_of_stricter {source' target' : GhPortEndpoint}
    (stricter : Stricter source target source' target') (fits : Compatible source' target') :
    Compatible source target where
  output := by rw [← stricter.directions.1, fits.output]
  input := by rw [← stricter.directions.2, fits.input]
  type := by
    rcases stricter.types with ⟨sourceType, targetType⟩ | different
    · rw [← sourceType, ← targetType, fits.type]
    · exact absurd fits.type different
  contract := stricter.sourceContract.ne_secret fits.contract
  sourcePort := stricter.sourcePort.ne_secret fits.sourcePort
  targetPort := stricter.targetPort.ne_secret fits.targetPort
  bindable := stricter.bindable fits.bindable
  single := by
    rw [← stricter.cardinalities.1, ← stricter.cardinalities.2]
    exact fits.single

/-! ### One step after the other -/

/-- The JSON that stands in a value. -/
def GhPortValue.document : GhPortValue → Option JsonValue
  | .many _ items => some (.array items)
  | .one _ item => some item
  | .unavailable .. => none

variable {lower : Text → Text} {input : BindingInput} {success : GhBindingSuccess}

theorem evaluateBinding_ok (bound : evaluateBinding lower input = .ok success) :
    ∃ document selected, checkEndpoints input = .ok () ∧ checkCompatibility input = .ok success.conditions ∧
      documentOf input = .ok document ∧ selectFrom input document = .ok selected ∧
      referenceOf input selected = .ok success.ref ∧ checkContext lower input.targetContext success.ref = .ok () ∧
      argumentFor input.target.port success.ref = .ok (success.slot, success.value) := by
  obtain ⟨⟨⟩, endpoints, rest⟩ := bind_ok_iff.mp bound
  obtain ⟨conditions, compatible, rest⟩ := bind_ok_iff.mp rest
  obtain ⟨document, given, rest⟩ := bind_ok_iff.mp rest
  obtain ⟨selected, selection, rest⟩ := bind_ok_iff.mp rest
  obtain ⟨ref, reference, rest⟩ := bind_ok_iff.mp rest
  obtain ⟨⟨⟩, context, rest⟩ := bind_ok_iff.mp rest
  obtain ⟨⟨slot, value⟩, argument, made⟩ := bind_ok_iff.mp rest
  cases made
  exact ⟨document, selected, endpoints, compatible, given, selection, reference, context, argument⟩

theorem checkEndpoints_ok (checked : checkEndpoints input = .ok ()) :
    ∀ cardinality, input.value.cardinality = some cardinality → cardinality = input.source.port.cardinality := by
  intro cardinality stated
  unfold checkEndpoints at checked
  rw [stated] at checked
  split at checked
  · cases checked
  · dsimp only at checked
    split at checked
    · cases checked
    next same => exact not_not.mp same

theorem checkCompatibility_ok {conditions : List GhPortCondition}
    (checked : checkCompatibility input = .ok conditions) : Compatible input.source input.target := by
  unfold checkCompatibility at checked
  dsimp only at checked
  split at checked
  · cases checked
  next fits => exact not_not.mp fun refused => fits (incompatible_iff.mpr refused)

variable {document selected : JsonValue} {value : Text}

theorem documentOf_ok (given : documentOf input = .ok document) :
    input.value.document = some document ∧ (∀ port items, input.value = .many port items →
      input.target.port.cardinality = .one → input.binding.select ≠ []) := by
  unfold documentOf at given
  split at given
  · cases given
  next port items value =>
    split at given
    · cases given
    next chosen =>
      cases given
      refine ⟨by rw [value, GhPortValue.document], fun _ _ _ single empty => chosen ⟨single, empty⟩⟩
  · cases given
  next port item _ value =>
    cases given
    refine ⟨by rw [value, GhPortValue.document], fun _ _ many => ?_⟩
    rw [value] at many
    cases many

theorem selectFrom_ok (selection : selectFrom input document = .ok selected) :
    evaluateJsonPointer document input.binding.select = .ok selected := by
  unfold selectFrom at selection
  split at selection
  · cases selection
  · cases selection
  next value evaluated =>
    cases selection
    exact evaluated

theorem referenceOf_ok (read : referenceOf input selected = .ok ref) :
    validateResourceRef selected (some input.target.port.type) = .ok ref := by
  unfold referenceOf at read
  split at read
  · cases read
  next found validated =>
    cases read
    exact validated

/-- The host and the repository are those of the run. -/
def InContext (lower : Text → Text) (context : GhBindingTargetContext) (ref : GhResourceRef) : Prop :=
  lower ref.host = lower context.host ∧
    (ref.kind ∈ REPOSITORY_SCOPED_KINDS → ∃ slug repository, context.repository = some slug ∧
      ref.repository = some repository ∧ lower repository = lower (slugOf slug))

theorem checkContext_ok {context : GhBindingTargetContext}
    (checked : checkContext lower context ref = .ok ()) : InContext lower context ref := by
  unfold checkContext at checked
  split at checked
  · cases checked
  next host =>
    refine ⟨not_not.mp host, fun inRepository => ?_⟩
    rw [if_pos inRepository] at checked
    split at checked
    · cases checked
    next slug repository =>
      split at checked
      · cases checked
      next same =>
        obtain ⟨stated, named, lowered⟩ := Option.map_eq_some_iff.mp (not_not.mp same)
        exact ⟨slug, stated, repository, named, lowered⟩

theorem argumentFor_ok {port : GhPort} {slot : GhPortSlot}
    (made : argumentFor port ref = .ok (slot, value)) : argumentOf ref slot = some value := by
  unfold argumentFor at made
  split at made
  · cases made
  · split at made
    · cases made
    next found =>
      cases made
      exact found

/-! ### What a binding names -/

/-- Everything a binding that was made stands for. -/
structure Bound (lower : Text → Text) (input : BindingInput) (success : GhBindingSuccess) : Prop where
  reached : ∃ document tokens selected, input.value.document = some document ∧
    input.binding.select = writePointer tokens ∧ Reaches document tokens selected ∧ success.ref.WrittenAs selected
  type : success.ref.kind = input.target.port.type
  identified : success.ref.Identified
  repository : success.ref.InRepository
  context : InContext lower input.targetContext success.ref
  noSecret : input.source.contract.sensitivity ≠ .secret ∧ input.source.port.sensitivity ≠ .secret ∧
    input.target.port.sensitivity ≠ .secret
  chosen : ∀ port items, input.value = .many port items → ∃ index item tokens selected,
    items[index]? = some item ∧ input.binding.select = writePointer (Nat.toDigits 10 index :: tokens) ∧
      Reaches item tokens selected ∧ success.ref.WrittenAs selected
  argument : argumentOf success.ref success.slot = some success.value

theorem Bound.of_evaluated (bound : evaluateBinding lower input = .ok success) : Bound lower input success := by
  obtain ⟨document, selected, endpoints, compatible, given, selection, reference, context, argument⟩ :=
    evaluateBinding_ok bound
  have fits := checkCompatibility_ok compatible
  obtain ⟨stands, choice⟩ := documentOf_ok given
  obtain ⟨tokens, written, reaches⟩ := reaches_of_pointer (selectFrom_ok selection)
  obtain ⟨same, identified, repository, kind⟩ := validated (referenceOf_ok reference)
  refine ⟨⟨document, tokens, selected, stands, written, reaches, same⟩, kind _ rfl, identified, repository,
    checkContext_ok context, ⟨fits.contract, fits.sourcePort, fits.targetPort⟩, ?_, argumentFor_ok argument⟩
  -- A list goes to a single input only, and there the pointer begins with an index.
  intro port items value
  have many : Cardinality.many = input.source.port.cardinality :=
    checkEndpoints_ok endpoints .many (by rw [value, GhPortValue.cardinality])
  have single := fits.single many.symm
  rw [value, GhPortValue.document, Option.some.injEq] at stands
  subst stands
  cases reaches with
  | here => exact absurd written (choice port items value single)
  | @index _ index item _ rest found later => exact ⟨index, item, rest, selected, found, written, later, same⟩

/-! ### One argument, one reference -/

/-- The references agree, but for the case of hosts and repositories. -/
structure SameReference (lower : Text → Text) (left right : GhResourceRef) : Prop where
  kind : left.kind = right.kind
  id : left.id = right.id
  number : left.number = right.number
  ref : left.ref = right.ref
  host : lower left.host = lower right.host
  repository : left.kind ≠ .codespace → left.repository.map lower = right.repository.map lower

theorem renderNumber_inj {one other : Int} (same : renderNumber one = renderNumber other) : one = other := by
  have read := readInteger_renderNumber one
  rw [same, readInteger_renderNumber, Option.some.injEq] at read
  exact read.symm

/-- The identity of a reference and its repository are told by the argument. -/
theorem identity_of_argument {left right : GhResourceRef} {leftSlot rightSlot : GhPortSlot}
    (kind : left.kind = right.kind) (leftRule : left.Identified) (rightRule : right.Identified)
    (leftArgument : argumentOf left leftSlot = some value)
    (rightArgument : argumentOf right rightSlot = some value) :
    left.id = right.id ∧ left.number = right.number ∧ left.ref = right.ref ∧
      (left.kind = .repository → left.repository = right.repository) := by
  obtain ⟨host, kind, repository, id, number, ref⟩ := left
  obtain ⟨host', kind', repository', id', number', ref'⟩ := right
  dsimp only at kind
  subst kind
  cases kind with
  | pullRequest | issue | discussion =>
    obtain ⟨rfl, rfl, one, rfl, _, _⟩ := leftRule
    obtain ⟨rfl, rfl, other, rfl, _, _⟩ := rightRule
    have same : renderNumber one = renderNumber other :=
      Option.some.inj (leftArgument.trans rightArgument.symm)
    exact ⟨rfl, congrArg some (renderNumber_inj same), rfl, nofun⟩
  | workflow | workflowRun | codespace =>
    obtain ⟨rfl, rfl, _⟩ := leftRule
    obtain ⟨rfl, rfl, _⟩ := rightRule
    exact ⟨leftArgument.trans rightArgument.symm, rfl, rfl, nofun⟩
  | release | branch | commit =>
    obtain ⟨rfl, rfl, _⟩ := leftRule
    obtain ⟨rfl, rfl, _⟩ := rightRule
    exact ⟨rfl, rfl, leftArgument.trans rightArgument.symm, nofun⟩
  | repository =>
    obtain ⟨rfl, rfl, rfl⟩ := leftRule
    obtain ⟨rfl, rfl, rfl⟩ := rightRule
    cases leftSlot with
    | flag => cases leftArgument
    | positional =>
      cases rightSlot with
      | flag => cases rightArgument
      | positional => exact ⟨rfl, rfl, rfl, fun _ => leftArgument.trans rightArgument.symm⟩
  | project | artifact | gist | user | team => exact leftRule.elim

theorem kinds_identified (rule : ref.Identified) :
    ref.kind ∈ REPOSITORY_SCOPED_KINDS ∨ ref.kind = .repository ∨ ref.kind = .codespace := by
  obtain ⟨host, kind, repository, id, number, ref⟩ := ref
  cases kind with
  | project | artifact | gist | user | team => exact rule.elim
  | repository => exact .inr (.inl rfl)
  | codespace => exact .inr (.inr rfl)
  | pullRequest | issue | discussion | workflow | workflowRun | release | branch | commit =>
    exact .inl (by simp [REPOSITORY_SCOPED_KINDS])

theorem sameReference_of_argument {one other : BindingInput} {left right : GhBindingSuccess}
    (first : Bound lower one left) (second : Bound lower other right)
    (context : other.targetContext = one.targetContext) (type : other.target.port.type = one.target.port.type)
    (same : left.value = right.value) : SameReference lower left.ref right.ref := by
  have kind : left.ref.kind = right.ref.kind := by rw [first.type, second.type, type]
  have argument := second.argument
  rw [← same] at argument
  obtain ⟨id, number, ref, repository⟩ :=
    identity_of_argument kind first.identified second.identified first.argument argument
  have hosts := second.context.1
  rw [context] at hosts
  refine ⟨kind, id, number, ref, first.context.1.trans hosts.symm, fun noCodespace => ?_⟩
  rcases kinds_identified first.identified with inRepository | isRepository | isCodespace
  · obtain ⟨slug, stated, named, leftRepository, lowered⟩ := first.context.2 inRepository
    obtain ⟨slug', stated', named', rightRepository, lowered'⟩ := second.context.2 (kind ▸ inRepository)
    rw [context, named, Option.some.injEq] at named'
    subst named'
    rw [leftRepository, rightRepository, Option.map_some, Option.map_some, lowered, lowered']
  · rw [repository isRepository]
  · exact absurd isCodespace noCodespace

/-- A binding names one reference of its context, and no pair of ports becomes compatible by becoming
stricter. -/
theorem evaluateBinding_confined (lower : Text → Text) :
    (∀ input success, evaluateBinding lower input = .ok success → Bound lower input success ∧
      ∀ other again, evaluateBinding lower other = .ok again → other.targetContext = input.targetContext →
        other.target.port.type = input.target.port.type → success.value = again.value →
          SameReference lower success.ref again.ref) ∧
    ∀ source target source' target', Stricter source target source' target' →
      (judgePortCompatibility source target).verdict = .incompatible →
        (judgePortCompatibility source' target').verdict = .incompatible := by
  refine ⟨fun input success bound => ⟨Bound.of_evaluated bound, ?_⟩, ?_⟩
  · intro other again boundAgain context type same
    exact sameReference_of_argument (Bound.of_evaluated bound) (Bound.of_evaluated boundAgain) context type same
  · intro source target source' target' stricter refused
    rw [incompatible_iff] at refused ⊢
    exact fun fits => refused (compatible_of_stricter stricter fits)

/-! ### What a binding does not tell apart -/

def listedPort : GhPort := ⟨['o'], .output, .pullRequest, .one, .public_, [], none⟩

def wantedPort : GhPort := ⟨['i'], .input, .pullRequest, .one, .public_, [], some (.positional 0 [] [])⟩

def openContract : GhResultContract := ⟨.public_, true, []⟩

def secretContract : GhResultContract := ⟨.secret, true, []⟩

/-- A pull request of a repository with this owner. -/
def pullRequestOf (owner : Text) : GhResourceRef :=
  ⟨['h'], .pullRequest, some (owner ++ ['/', 'r']), none, some 7, none⟩

/-- A codespace, with or without a repository. -/
def codespaceOf (repository : Option Text) : GhResourceRef := ⟨['h'], .codespace, repository, some ['c'], none, none⟩

/-- A reference bound to an input of its type, whose contract has a secret result. -/
def bindingOf (ref : GhResourceRef) : BindingInput where
  binding := ⟨⟨['s'], ['o']⟩, ⟨['t'], ['i']⟩, []⟩
  source := ⟨['s'], openContract, { listedPort with type := ref.kind }⟩
  target := ⟨['t'], secretContract, { wantedPort with type := ref.kind }⟩
  value := .one ['o'] (.object ref.members)
  targetContext := ⟨['h'], some ⟨['o'], ['r']⟩⟩

/-- References that differ in case, or in the repository of a codespace, give one argument, and the
contract of the target may be secret. -/
theorem evaluateBinding_merges :
    (∃ left right, evaluateBinding (List.map Char.toLower) (bindingOf (pullRequestOf ['o'])) = .ok left ∧
      evaluateBinding (List.map Char.toLower) (bindingOf (pullRequestOf ['O'])) = .ok right ∧
      left.value = right.value ∧ left.ref ≠ right.ref) ∧
    (∃ left right, evaluateBinding (List.map Char.toLower) (bindingOf (codespaceOf none)) = .ok left ∧
      evaluateBinding (List.map Char.toLower) (bindingOf (codespaceOf (some ['o', '/', 'r']))) = .ok right ∧
      left.value = right.value ∧ left.ref ≠ right.ref) ∧
    (bindingOf (pullRequestOf ['o'])).target.contract.sensitivity = .secret := by
  refine ⟨⟨_, _, rfl, rfl, rfl, by decide⟩, ⟨_, _, rfl, rfl, rfl, by decide⟩, rfl⟩

end PrSearch.GhCli
