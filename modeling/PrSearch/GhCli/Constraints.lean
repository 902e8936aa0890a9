import PrSearch.GhCli.Invocation

/-! # Checking an invocation

The form, the server and the executor read this one check. The repository, the unknown flags, what
comes beside the flags, the value of each option and then what must hold between them: every
violation is collected. A value that is wrong is not counted as given.
-/
namespace PrSearch.GhCli

open Query

/-! ### The repository -/

def isSlugChar (c : Char) : Bool := c.isAlphanum || c == '.' || c == '_' || c == '-'

/-- `^[A-Za-z0-9](?:[A-Za-z0-9._-]{0,99})$` -/
def isSlugPart : Text → Bool
  | [] => false
  | first :: rest => first.isAlphanum && rest.all isSlugChar && decide (rest.length ≤ 99)

/-- `owner/name`, both parts without a hyphen at the beginning. -/
def parseRepositorySlug : RawValue → Option RepositorySlug
  | .text raw =>
      match raw.splitOn '/' with
      | [owner, name] => if isSlugPart owner && isSlugPart name then some ⟨owner, name⟩ else none
      | _ => none
  | _ => none

/-! ### One option -/

def joinWith (separator : Text) (texts : List Text) : Text := separator.intercalate texts

/-- A string of digits counts as its number. One too large to be exact is too large for
`Number.isSafeInteger` before and after rounding. -/
def numericOf : RawValue → Option ℚ
  | .text raw => (readInteger raw).map fun integer => (integer : ℚ)
  | .number raw => some raw
  | _ => none

/-- `Number.isSafeInteger` -/
def isSafeNumber (number : ℚ) : Bool := number.den == 1 && isSafeInteger number.num

local instance lawfulText : LawfulBEq Text := inferInstance

/-- The value of one option, its default when nothing is given. `none` is a flag that is not written. -/
def evaluateOption : GhOption → RawValue → Except GhConstraintViolation (Option OptionValue)
  | .enum _ _ defaultValue, .undefined => .ok (some (.text defaultValue))
  | .enum flag values _, .text raw =>
      if raw ∈ values then .ok (some (.text raw))
      else .error ⟨.enumValue, some flag, flag ++ " must be one of: ".toList ++ joinWith ", ".toList values⟩
  | .enum flag values _, _ =>
      .error ⟨.enumValue, some flag, flag ++ " must be one of: ".toList ++ joinWith ", ".toList values⟩
  | .int _ _ _ defaultValue, .undefined => .ok (some (.number defaultValue))
  | .int flag min max _, raw =>
      match numericOf raw with
      | none => .error ⟨.intFormat, some flag, flag ++ " must be an integer".toList⟩
      | some numeric =>
          if isSafeNumber numeric then
            if numeric.num < min ∨ max < numeric.num then
              .error ⟨.intRange, some flag, flag ++ " must be between ".toList ++ renderNumber min
                ++ " and ".toList ++ renderNumber max⟩
            else .ok (some (.number numeric.num))
          else .error ⟨.intFormat, some flag, flag ++ " must be an integer".toList⟩
  | .bool _ defaultValue, .undefined => .ok (if defaultValue then some (.bool true) else none)
  | .bool _ _, .bool raw => .ok (if raw then some (.bool true) else none)
  | .bool flag _, _ => .error ⟨.boolFormat, some flag, flag ++ " must be true or false".toList⟩
  | .jsonFields flag .., _ =>
      .error ⟨.unknownFlag, some flag, "Pass ".toList ++ flag ++ " through output.json_fields".toList⟩

/-! ### The JSON fields -/

/-- The fields that have been seen, up to the first that is not allowed or comes again. -/
def checkFields (flag : Text) (allowed seen : List Text) :
    List Text → Except GhConstraintViolation (List Text)
  | [] => .ok seen
  | field :: rest =>
      if field ∉ allowed then
        .error ⟨.jsonFieldNotAllowed, some flag, "JSON field is not allowed: ".toList ++ field⟩
      else if field ∈ seen then
        .error ⟨.jsonFieldsDuplicate, some flag, "Duplicate JSON field: ".toList ++ field⟩
      else checkFields flag allowed (field :: seen) rest

/-- The fields of an array that is not empty, in the order in which they are allowed. -/
def selectFields (flag : Text) (allowed : List Text) (minItems maxItems : Int) (items : List (Option Text)) :
    Except GhConstraintViolation (List Text) :=
  match items.mapM id with
  | none => .error ⟨.jsonFieldNotAllowed, some flag, "json_fields must be an array of strings".toList⟩
  | some fields =>
      match checkFields flag allowed [] fields with
      | .error violation => .error violation
      | .ok seen =>
          if (fields.length : Int) < minItems then
            .error ⟨.jsonFieldsMin, some flag, "Select at least ".toList ++ renderNumber minItems ++ " JSON fields".toList⟩
          else if maxItems < fields.length then
            .error ⟨.jsonFieldsMax, some flag, "Select at most ".toList ++ renderNumber maxItems ++ " JSON fields".toList⟩
          else .ok (allowed.filter (· ∈ seen))

def evaluateJsonFields : Option GhOption → RawValue → Except GhConstraintViolation (List Text)
  | some (.jsonFields _ _ defaultValue _ _), .undefined => .ok defaultValue
  | some (.jsonFields _ _ defaultValue _ _), .list [] => .ok defaultValue
  | some (.jsonFields flag allowed _ minItems maxItems), .list items => selectFields flag allowed minItems maxItems items
  | some (.jsonFields flag ..), _ =>
      .error ⟨.jsonFieldNotAllowed, some flag, "json_fields must be an array of strings".toList⟩
  | _, _ => .ok []

/-! ### Between options -/

/-- A map from flags to values, the newest entry first. -/
abbrev Present := List (Text × OptionValue)

def Present.has (present : Present) (flag : Text) : Bool := (present.lookup flag).isSome

structure ContextGiven where
  repository : Bool
  host : Bool

def evaluateRelation (present : Present) (context : ContextGiven) : GhConstraint → List GhConstraintViolation
  | .requires flag requires =>
      if present.has flag then
        (requires.filter fun required => !present.has required).map fun required =>
          ⟨.requires, some flag, flag ++ " requires ".toList ++ required⟩
      else []
  | .conflicts flags =>
      let found := flags.filter present.has
      if found.length > 1 then
        [⟨.conflicts, found.head?, "These flags cannot be used together: ".toList ++ joinWith ", ".toList found⟩]
      else []
  | .oneOf flags =>
      let found := flags.filter present.has
      if found.length > 1 then
        [⟨.oneOf, found.head?, "These flags cannot be used together: ".toList ++ joinWith ", ".toList found⟩]
      else []
  | .exactlyOne flags =>
      let found := flags.filter present.has
      if found.length ≠ 1 then
        [⟨.exactlyOne, found.head?, "Exactly one of these flags is required: ".toList ++ joinWith ", ".toList flags⟩]
      else []
  | .atLeastOne flags =>
      if flags.any present.has then []
      else [⟨.atLeastOne, none, "At least one of these flags is required: ".toList ++ joinWith ", ".toList flags⟩]
  | .implies flag whenValue implies =>
      if present.has flag && whenValue.all fun value => present.lookup flag == some (.text value) then
        if present.has implies then []
        else [⟨.implies, some flag, flag ++ " also requires ".toList ++ implies⟩]
      else []
  | .requiredIf flag whenFlag whenValue =>
      if present.lookup whenFlag = some (.text whenValue) ∧ present.has flag = false then
        [⟨.requiredIf, some flag, flag ++ " is required when ".toList ++ whenFlag ++ "=".toList ++ whenValue⟩]
      else []
  | .inputSourceExclusive sources =>
      let found := sources.filter present.has
      if found.length > 1 then
        [⟨.inputSourceExclusive, found.head?, "Use only one input source: ".toList ++ joinWith ", ".toList found⟩]
      else []
  | .contextRequired .repository =>
      if context.repository then [] else [⟨.contextRequired, none, "repository context is required".toList⟩]
  | .contextRequired .host =>
      if context.host then [] else [⟨.contextRequired, none, "host context is required".toList⟩]

def evaluateRelations (constraints : List GhConstraint) (present : Present) (context : ContextGiven) :
    List GhConstraintViolation :=
  constraints.flatMap (evaluateRelation present context)

/-! ### The whole invocation -/

def forbiddenKeys : List Text :=
  ["positional".toList, "stdin".toList, "files".toList, "argv".toList, "command".toList]

def forbiddenViolations (further : List Text) : List GhConstraintViolation :=
  (forbiddenKeys.filter (· ∈ further)).map fun forbidden =>
    ⟨.positionalNotAllowed, none, "This capability does not accept ".toList ++ forbidden⟩

def optionByFlag (definition : GhCapabilityDefinition) (flag : Text) : Option GhOption :=
  definition.options.find? (·.flag = flag)

/-- The first option with the flag is there, and it is not the one of the JSON fields. -/
def isKnownFlag (definition : GhCapabilityDefinition) (flag : Text) : Bool :=
  (optionByFlag definition flag).any fun option => !option.isJsonFields

def unknownViolations (definition : GhCapabilityDefinition) (flags : RawFlags) : List GhConstraintViolation :=
  ((flags.entries.map Prod.fst).filter fun flag => !isKnownFlag definition flag).map fun flag =>
    ⟨.unknownFlag, some flag, "Unknown flag: ".toList ++ flag⟩

structure Collected where
  violations : List GhConstraintViolation
  present : Present
  ordered : List (Text × OptionValue)

/-- One turn of the loop over the options. -/
def collectOption (flags : RawFlags) (collected : Collected) (option : GhOption) : Collected :=
  if option.isJsonFields then collected
  else
    match evaluateOption option (flags.get option.flag) with
    | .error violation => { collected with violations := collected.violations ++ [violation] }
    | .ok none => collected
    | .ok (some value) =>
        { collected with
          present := (option.flag, value) :: collected.present
          ordered := collected.ordered ++ [(option.flag, value)] }

def collectOptions (definition : GhCapabilityDefinition) (flags : RawFlags) : Collected :=
  definition.options.foldl (collectOption flags) ⟨[], [], []⟩

def jsonOption (definition : GhCapabilityDefinition) : Option GhOption :=
  definition.options.find? (·.isJsonFields)

/-- The JSON fields count as given when there are some. -/
def presentWithFields (json : Option GhOption) (fields : List Text) (present : Present) : Present :=
  match json with
  | some option => if fields.length > 0 then (option.flag, .fields fields) :: present else present
  | none => present

def evaluateInvocation (definition : GhCapabilityDefinition) (invocation : GhInvocation) : EvaluationResult :=
  let repository := parseRepositorySlug invocation.repository
  let repositoryViolations : List GhConstraintViolation :=
    if repository = none then
      [⟨.repositoryFormat, none, "Repository must use the owner/name format".toList⟩]
    else []
  let collected := collectOptions definition invocation.flags
  let json := jsonOption definition
  let outcome := evaluateJsonFields json invocation.jsonFields
  let jsonViolations := match outcome with | .error violation => [violation] | .ok _ => []
  let fields := match outcome with | .error _ => [] | .ok fields => fields
  let violations := repositoryViolations ++ forbiddenViolations invocation.further
    ++ unknownViolations definition invocation.flags ++ collected.violations ++ jsonViolations
    ++ evaluateRelations definition.constraints (presentWithFields json fields collected.present)
        ⟨repository.isSome, true⟩
  match violations, repository with
  | [], some slug => .accepted ⟨definition.id, slug, collected.ordered, fields⟩
  | _, _ => .rejected violations

end PrSearch.GhCli
