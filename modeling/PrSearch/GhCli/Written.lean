import PrSearch.GhCli.SameRequest

/-! # Nothing reaches argv unchecked

Every element of the array is one of the texts of the definition, a checked value or the repository;
where the user says nothing it is the default, which is taken as it stands. The array is built unless a
text of the definition or the host holds a control character, and it is the same array however the
request was written.
-/
namespace PrSearch.GhCli

open Query

/-! ### Control characters -/

def Plain (text : Text) : Prop := ∀ c ∈ text, isControlChar c = false

/-- What a definition can write of an option. -/
def GhOption.texts : GhOption → List Text
  | .enum flag values defaultValue => flag :: defaultValue :: values
  | .int flag .. => [flag]
  | .jsonFields flag allowed defaultValue .. => flag :: (allowed ++ defaultValue)
  | .bool flag _ => [flag]

def GhCapabilityDefinition.texts (definition : GhCapabilityDefinition) : List Text :=
  definition.path ++ definition.options.flatMap GhOption.texts

theorem plain_append {one other : Text} (first : Plain one) (second : Plain other) : Plain (one ++ other) := by
  intro c inside
  rcases List.mem_append.mp inside with early | late
  · exact first c early
  · exact second c late

theorem plain_cons {c : Char} {rest : Text} (first : isControlChar c = false) (second : Plain rest) :
    Plain (c :: rest) := by
  intro d inside
  rcases List.mem_cons.mp inside with rfl | late
  · exact first
  · exact second d late

theorem isControlChar_of_isAlphanum {c : Char} (is : c.isAlphanum = true) : isControlChar c = false := by
  delta Char.isAlphanum Char.isAlpha Char.isUpper Char.isLower Char.isDigit at is
  simp only [Bool.or_eq_true,
    Bool.and_eq_true, decide_eq_true_eq, UInt32.le_iff_toNat_le, ge_iff_le] at is
  change ((65 ≤ c.toNat ∧ c.toNat ≤ 90) ∨ (97 ≤ c.toNat ∧ c.toNat ≤ 122)) ∨
    (48 ≤ c.toNat ∧ c.toNat ≤ 57) at is
  simp only [isControlChar, Bool.or_eq_false_iff, decide_eq_false_iff_not, beq_eq_false_iff_ne]
  omega

theorem isControlChar_of_isSlugChar {c : Char} (is : isSlugChar c = true) : isControlChar c = false := by
  simp only [isSlugChar, Bool.or_eq_true, beq_iff_eq] at is
  rcases is with ((letter | rfl) | rfl) | rfl
  · exact isControlChar_of_isAlphanum letter
  · rfl
  · rfl
  · rfl

theorem plain_of_isSlugPart {part : Text} (is : isSlugPart part = true) : Plain part := by
  cases part with
  | nil => cases is
  | cons first rest =>
    simp only [isSlugPart, Bool.and_eq_true, List.all_eq_true] at is
    exact plain_cons (isControlChar_of_isAlphanum is.1.1) fun c inside =>
      isControlChar_of_isSlugChar (is.1.2 c inside)

theorem plain_of_parsed {raw : RawValue} {slug : RepositorySlug} (parsed : parseRepositorySlug raw = some slug) :
    Plain slug.owner ∧ Plain slug.name := by
  cases raw with
  | text raw =>
    simp only [parseRepositorySlug] at parsed
    split at parsed
    next owner name _ =>
      split at parsed
      next parts =>
        cases parsed
        rw [Bool.and_eq_true] at parts
        exact ⟨plain_of_isSlugPart parts.1, plain_of_isSlugPart parts.2⟩
      · cases parsed
    · cases parsed
  | undefined | number | bool | list | other => cases parsed

theorem plain_renderNumber (number : Int) : Plain (renderNumber number) := by
  intro c inside
  rcases mem_renderNumber inside with digit | rfl
  · exact isControlChar_of_isAlphanum (by simp [Char.isAlphanum, digit])
  · rfl

theorem plain_joinWith {fields : List Text} (each : ∀ field ∈ fields, Plain field) :
    Plain (joinWith [','] fields) := by
  intro c inside
  rcases mem_intercalate inside with rfl | ⟨field, listed, among⟩
  · rfl
  · exact each field listed c among

/-- A value that an option admits is written without control characters. -/
theorem plain_of_admitted {option : GhOption} {raw : RawValue} {value : OptionValue} {item : Text}
    (plain : ∀ text ∈ option.texts, Plain text) (admitted : Admitted option raw value)
    (rendered : stringOf value = some item) : Plain item := by
  cases admitted with
  | enum allowed =>
    cases rendered
    rcases allowed with listed | ⟨rfl, _⟩
    · exact plain _ (List.mem_cons_of_mem _ (List.mem_cons_of_mem _ listed))
    · exact plain _ (List.mem_cons_of_mem _ List.mem_cons_self)
  | int =>
    cases rendered
    exact plain_renderNumber _
  | bool =>
    cases rendered
    unfold Plain
    decide

/-! ### The array -/

/-- Where an element of the array comes from. -/
inductive Written (definition : GhCapabilityDefinition) (raw : GhInvocation) (context : GhExecutionContext) :
    Text → Prop
  | path {part : Text} (inside : part ∈ definition.path) : Written definition raw context part
  | repo : Written definition raw context "--repo".toList
  | repository : Written definition raw context (repoArgument context)
  | flag {option : GhOption} (listed : option ∈ definition.options) : Written definition raw context option.flag
  | enumValue {flag : Text} {values : List Text} {defaultValue value : Text}
      (listed : .enum flag values defaultValue ∈ definition.options)
      (allowed : value ∈ values ∨ (value = defaultValue ∧ raw.flags.get flag = .undefined)) :
      Written definition raw context value
  | integer {flag : Text} {min max defaultValue number : Int}
      (listed : .int flag min max defaultValue ∈ definition.options)
      (inRange : (min ≤ number ∧ number ≤ max) ∨ (number = defaultValue ∧ raw.flags.get flag = .undefined)) :
      Written definition raw context (renderNumber number)
  | fields {flag : Text} {allowed defaultValue fields : List Text} {minItems maxItems : Int}
      (listed : .jsonFields flag allowed defaultValue minItems maxItems ∈ definition.options)
      (ordered : (fields.Sublist allowed ∧ (allowed.Nodup → fields.Nodup)) ∨
        (fields = defaultValue ∧ (raw.jsonFields = .undefined ∨ raw.jsonFields = .list []))) :
      Written definition raw context (joinWith [','] fields)

variable {definition : GhCapabilityDefinition} {raw : GhInvocation} {normalized : GhNormalizedInvocation}
  {context : GhExecutionContext}

theorem written_of_admitted {option : GhOption} {value : OptionValue} {item : Text}
    (listed : option ∈ definition.options) (admitted : Admitted option (raw.flags.get option.flag) value)
    (valued : option.isBool = false) (rendered : stringOf value = some item) :
    Written definition raw context item := by
  cases admitted with
  | enum allowed =>
    cases rendered
    exact .enumValue listed allowed
  | int inRange =>
    cases rendered
    exact .integer listed inRange
  | bool => cases valued

/-- The array of an accepted invocation, before the last look at its characters. -/
theorem buildArgv_of_passes {slug : RepositorySlug} (fields : List Text) (same : context.repository = slug) :
    ∃ arguments, allArguments (definition.options.filterMap (entryOf raw.flags)) definition.options = .ok arguments ∧
      buildArgv definition ⟨definition.id, slug, definition.options.filterMap (entryOf raw.flags), fields⟩ context =
        (let argv := definition.path ++ ["--repo".toList, repoArgument context] ++ arguments
            ++ jsonArguments (jsonOption definition) fields
          if argv.any (·.any isControlChar) then .error "argv에 제어 문자가 있다".toList else .ok argv) := by
  obtain ⟨arguments, made⟩ : ∃ arguments,
      allArguments (definition.options.filterMap (entryOf raw.flags)) definition.options = .ok arguments := by
    refine allArguments_ok fun option _ value found => ?_
    obtain ⟨other, _, _, admitted⟩ := admitted_of_lookup found
    exact stringOf_of_admitted admitted
  refine ⟨arguments, made, ?_⟩
  unfold buildArgv
  rw [if_neg (not_not_intro rfl), if_neg (not_not_intro same), made]

/-- The elements, told by where they come from. -/
theorem mem_argv {fields : List Text} {arguments : List Text}
    (evaluated : evaluateJsonFields (jsonOption definition) raw.jsonFields = .ok fields)
    (made : allArguments (definition.options.filterMap (entryOf raw.flags)) definition.options = .ok arguments)
    {item : Text}
    (inside : item ∈ definition.path ++ ["--repo".toList, repoArgument context] ++ arguments
      ++ jsonArguments (jsonOption definition) fields) :
    item ∈ definition.path ∨ item = "--repo".toList ∨ item = repoArgument context ∨
      (∃ option ∈ definition.options, item = option.flag) ∨
      (∃ option ∈ definition.options, ∃ other ∈ definition.options, ∃ value,
        option.takesValue = true ∧ other.flag = option.flag ∧
          Admitted other (raw.flags.get other.flag) value ∧ stringOf value = some item) ∨
      (∃ flag allowed defaultValue minItems maxItems,
        .jsonFields flag allowed defaultValue minItems maxItems ∈ definition.options ∧
          item = joinWith [','] fields ∧ (fields.Sublist allowed ∨
            (fields = defaultValue ∧ (raw.jsonFields = .undefined ∨ raw.jsonFields = .list [])))) := by
  rcases List.mem_append.mp inside with front | json
  · rcases List.mem_append.mp front with start | argument
    · rcases List.mem_append.mp start with path | repository
      · exact .inl path
      · rcases List.mem_cons.mp repository with word | triple
        · exact .inr (.inl word)
        · exact .inr (.inr (.inl (List.mem_singleton.mp triple)))
    · obtain ⟨option, listed, flag | ⟨valued, value, found, rendered⟩⟩ := mem_allArguments made argument
      · exact .inr (.inr (.inr (.inl ⟨option, listed, flag⟩)))
      · obtain ⟨other, among, named, admitted⟩ := admitted_of_lookup found
        rw [← named] at admitted
        exact .inr (.inr (.inr (.inr (.inl ⟨option, listed, other, among, value, valued, named, admitted, rendered⟩))))
  · cases found : jsonOption definition with
    | none =>
      rw [found] at json
      cases json
    | some option =>
      obtain ⟨listed, flag, allowed, defaultValue, minItems, maxItems, rfl⟩ := jsonOption_eq_some found
      rw [found] at json evaluated
      simp only [jsonArguments] at json
      split at json
      · rcases List.mem_cons.mp json with named | joined
        · exact .inr (.inr (.inr (.inl ⟨_, listed, named⟩)))
        · exact .inr (.inr (.inr (.inr (.inr ⟨flag, allowed, defaultValue, minItems, maxItems, listed,
            List.mem_singleton.mp joined, evaluateJsonFields_ok evaluated⟩))))
      · cases json

theorem mem_texts {option : GhOption} (listed : option ∈ definition.options) {text : Text}
    (inside : text ∈ option.texts) : text ∈ definition.texts :=
  List.mem_append_right _ (List.mem_flatMap.mpr ⟨option, listed, inside⟩)

theorem flag_mem_texts (option : GhOption) : option.flag ∈ option.texts := by
  cases option <;> exact List.mem_cons_self

/-- With plain texts around it no element holds a control character. -/
theorem plain_of_mem_argv {slug : RepositorySlug} {fields : List Text} (passes : Passes definition raw slug fields)
    (same : context.repository = slug) (plain : ∀ text ∈ definition.texts, Plain text) (host : Plain context.host)
    {arguments : List Text}
    (made : allArguments (definition.options.filterMap (entryOf raw.flags)) definition.options = .ok arguments)
    {item : Text}
    (inside : item ∈ definition.path ++ ["--repo".toList, repoArgument context] ++ arguments
      ++ jsonArguments (jsonOption definition) fields) : Plain item := by
  rcases mem_argv passes.jsonFields made inside with path | rfl | rfl | ⟨option, listed, rfl⟩ |
    ⟨_, _, other, listed, value, _, _, admitted, rendered⟩ |
    ⟨flag, allowed, defaultValue, _, _, listed, rfl, chosen⟩
  · exact plain item (List.mem_append_left _ path)
  · unfold Plain
    decide
  · obtain ⟨owner, name⟩ := plain_of_parsed passes.repository
    rw [← same] at owner name
    exact plain_append (plain_append host (plain_cons rfl owner)) (plain_cons rfl name)
  · exact plain _ (mem_texts listed (flag_mem_texts option))
  · exact plain_of_admitted (fun text among => plain text (mem_texts listed among)) admitted rendered
  · have among : ∀ field ∈ fields, field ∈ allowed ++ defaultValue := by
      intro field listedField
      rcases chosen with ordered | ⟨rfl, _⟩
      · exact List.mem_append_left _ (ordered.subset listedField)
      · exact List.mem_append_right _ listedField
    exact plain_joinWith fun field listedField =>
      plain _ (mem_texts listed (List.mem_cons_of_mem _ (among field listedField)))

/-- A flag of a boolean option belongs to no option that takes a value. -/
def FlagsApart (definition : GhCapabilityDefinition) : Prop :=
  ∀ switch ∈ definition.options, switch.isBool = true →
    ∀ option ∈ definition.options, option.takesValue = true → switch.flag ≠ option.flag

theorem written_of_mem_argv {slug : RepositorySlug} {fields : List Text}
    (passes : Passes definition raw slug fields) (apart : FlagsApart definition) {arguments : List Text}
    (made : allArguments (definition.options.filterMap (entryOf raw.flags)) definition.options = .ok arguments)
    {item : Text}
    (inside : item ∈ definition.path ++ ["--repo".toList, repoArgument context] ++ arguments
      ++ jsonArguments (jsonOption definition) fields) : Written definition raw context item := by
  rcases mem_argv passes.jsonFields made inside with path | rfl | rfl | ⟨option, listed, rfl⟩ |
    ⟨option, listed, other, among, value, valued, named, admitted, rendered⟩ |
    ⟨flag, allowed, defaultValue, _, _, listed, rfl, chosen⟩
  · exact .path path
  · exact .repo
  · exact .repository
  · exact .flag listed
  · refine written_of_admitted among admitted ?_ rendered
    rw [Bool.eq_false_iff]
    exact fun switch => apart other among switch option listed valued named
  · refine .fields listed (chosen.imp_left fun ordered => ⟨ordered, fun once => ?_⟩)
    exact ordered.nodup once

/-- Nothing a user types is written as it came, and equal requests are written equally. -/
theorem buildArgv_checked (accepted : evaluateInvocation definition raw = .accepted normalized)
    (same : context.repository = normalized.repository) :
    ((∀ text ∈ definition.texts, Plain text) → Plain context.host →
      ∃ argv, buildArgv definition normalized context = .ok argv) ∧
    (FlagsApart definition → ∀ argv, buildArgv definition normalized context = .ok argv →
      ∀ item ∈ argv, Written definition raw context item) ∧
    ∀ other, SameRequest definition raw other → ∃ again,
      evaluateInvocation definition other = .accepted again ∧
        buildArgv definition again context = buildArgv definition normalized context := by
  refine ⟨?_, ?_, fun other alike => ⟨normalized, accepted_of_same alike accepted, rfl⟩⟩
  · intro plain host
    obtain ⟨slug, fields, passes, rfl⟩ := evaluateInvocation_accepted_iff.mp accepted
    obtain ⟨arguments, made, built⟩ := buildArgv_of_passes fields same
    rw [built]
    have clean : ¬(definition.path ++ ["--repo".toList, repoArgument context] ++ arguments
        ++ jsonArguments (jsonOption definition) fields).any (·.any isControlChar) = true := by
      simp only [List.any_eq_true, not_exists, not_and]
      intro item inside c among
      rw [plain_of_mem_argv passes same plain host made inside c among]
      exact Bool.false_ne_true
    exact ⟨_, if_neg clean⟩
  · intro apart argv done item inside
    obtain ⟨slug, fields, passes, rfl⟩ := evaluateInvocation_accepted_iff.mp accepted
    obtain ⟨arguments, made, built⟩ := buildArgv_of_passes fields same
    rw [built] at done
    dsimp only at done
    split at done
    · cases done
    · cases done
      exact written_of_mem_argv passes apart made inside

/-! ### Defaults and texts of the definition are taken as they stand -/

/-- The sources of an element, without defaults and without `--repo`. -/
def Listed (definition : GhCapabilityDefinition) (context : GhExecutionContext) (item : Text) : Prop :=
  item ∈ definition.path ∨ (∃ option ∈ definition.options, item = option.flag) ∨
    (∃ flag values defaultValue, .enum flag values defaultValue ∈ definition.options ∧ item ∈ values) ∨
    (∃ flag min max defaultValue number, .int flag min max defaultValue ∈ definition.options ∧
      min ≤ number ∧ number ≤ max ∧ item = renderNumber number) ∨
    item = repoArgument context ∨
    ∃ flag allowed defaultValue minItems maxItems fields,
      .jsonFields flag allowed defaultValue minItems maxItems ∈ definition.options ∧
        fields.Sublist allowed ∧ fields.Nodup ∧ item = joinWith [','] fields

/-- `pr list` with a limit of 1 or 2, and 3 when none is given. -/
def limited : GhCapabilityDefinition where
  id := ['p', 'r', '.', 'l', 'i', 's', 't']
  path := [['p', 'r'], ['l', 'i', 's', 't']]
  options := [.int ['-', '-', 'l', 'i', 'm', 'i', 't'] 1 2 3]
  constraints := []

/-- The same with a line feed in its path. -/
def broken : GhCapabilityDefinition := { limited with path := [['p', 'r'], ['l', 'i', 's', 't', '\n']] }

def unset : GhInvocation where
  repository := .text ['a', '/', 'b']
  flags := ⟨[], List.nodup_nil⟩
  jsonFields := .undefined
  further := []

def unsetNormalized : GhNormalizedInvocation where
  capabilityId := limited.id
  repository := ⟨['a'], ['b']⟩
  options := [(['-', '-', 'l', 'i', 'm', 'i', 't'], .number 3)]
  jsonFields := []

def onHost : GhExecutionContext := ⟨['g', 'h'], ⟨['a'], ['b']⟩⟩

theorem not_listed_limited {item : Text} (path : item ∉ limited.path)
    (flag : item ≠ ['-', '-', 'l', 'i', 'm', 'i', 't']) (one : item ≠ ['1']) (two : item ≠ ['2'])
    (repository : item ≠ repoArgument onHost) : ¬Listed limited onHost item := by
  rintro (inPath | ⟨option, listed, rfl⟩ | ⟨_, _, _, listed, _⟩ | ⟨_, _, _, _, number, listed, least, most, rfl⟩ |
    triple | ⟨_, _, _, _, _, _, listed, _⟩)
  · exact path inPath
  · obtain rfl := List.mem_singleton.mp listed
    exact flag rfl
  · cases List.mem_singleton.mp listed
  · cases List.mem_singleton.mp listed
    obtain rfl | rfl : number = 1 ∨ number = 2 := by omega
    · exact one (by decide)
    · exact two (by decide)
  · exact repository triple
  · cases List.mem_singleton.mp listed

/-- A default outside the range and `--repo` are written, and a definition with a line feed is refused. -/
theorem buildArgv_default_unlisted :
    (evaluateInvocation limited unset = .accepted unsetNormalized ∧
      onHost.repository = unsetNormalized.repository ∧
      ∃ argv, buildArgv limited unsetNormalized onHost = .ok argv ∧
        (['3'] ∈ argv ∧ ¬Listed limited onHost ['3']) ∧
        "--repo".toList ∈ argv ∧ ¬Listed limited onHost "--repo".toList) ∧
    evaluateInvocation broken unset = .accepted unsetNormalized ∧
      ∃ message, buildArgv broken unsetNormalized onHost = .error message := by
  refine ⟨⟨by decide, rfl, ?_⟩, by decide, ?_⟩
  · refine ⟨[['p', 'r'], ['l', 'i', 's', 't'], "--repo".toList, repoArgument onHost,
      ['-', '-', 'l', 'i', 'm', 'i', 't'], ['3']], by decide, ⟨by decide, ?_⟩, by decide, ?_⟩
    · exact not_listed_limited (by decide) (by decide) (by decide) (by decide) (by decide)
    · exact not_listed_limited (by decide) (by decide) (by decide) (by decide) (by decide)
  · exact ⟨_, rfl⟩

/-- At an invocation without flags. -/
theorem buildArgv_checked_limited :
    ((∀ text ∈ limited.texts, Plain text) → Plain onHost.host →
      ∃ argv, buildArgv limited unsetNormalized onHost = .ok argv) ∧
    (FlagsApart limited → ∀ argv, buildArgv limited unsetNormalized onHost = .ok argv →
      ∀ item ∈ argv, Written limited unset onHost item) ∧
    ∀ other, SameRequest limited unset other → ∃ again,
      evaluateInvocation limited other = .accepted again ∧
        buildArgv limited again onHost = buildArgv limited unsetNormalized onHost :=
  buildArgv_checked (by decide) rfl

end PrSearch.GhCli
