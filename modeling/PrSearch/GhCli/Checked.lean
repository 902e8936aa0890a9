import PrSearch.GhCli.Argv
import PrSearch.Query.Lawful

/-! # What reaches argv

An accepted invocation is built into an array whose every element is a text of the definition, a
checked value or the repository. Two invocations that ask for the same give the same array.
-/
namespace PrSearch.GhCli

open Query

/-! ### The loop over the options -/

/-- What the loop keeps of an option. -/
def entryOf (flags : RawFlags) (option : GhOption) : Option (Text × OptionValue) :=
  if option.isJsonFields then none
  else
    match evaluateOption option (flags.get option.flag) with
    | .ok (some value) => some (option.flag, value)
    | _ => none

def violationOf (flags : RawFlags) (option : GhOption) : Option GhConstraintViolation :=
  if option.isJsonFields then none
  else
    match evaluateOption option (flags.get option.flag) with
    | .error violation => some violation
    | .ok _ => none

theorem collectOption_eq (flags : RawFlags) (collected : Collected) (option : GhOption) :
    collectOption flags collected option =
      ⟨collected.violations ++ (violationOf flags option).toList,
        (entryOf flags option).toList ++ collected.present,
        collected.ordered ++ (entryOf flags option).toList⟩ := by
  unfold collectOption violationOf entryOf
  split
  · simp
  · cases evaluateOption option (flags.get option.flag) with
    | error violation => simp
    | ok value => cases value <;> simp

theorem foldl_collectOption (flags : RawFlags) (options : List GhOption) (collected : Collected) :
    options.foldl (collectOption flags) collected =
      ⟨collected.violations ++ options.filterMap (violationOf flags),
        (options.filterMap (entryOf flags)).reverse ++ collected.present,
        collected.ordered ++ options.filterMap (entryOf flags)⟩ := by
  induction options generalizing collected with
  | nil => simp
  | cons option rest ih =>
    rw [List.foldl_cons, ih, collectOption_eq]
    simp only [List.filterMap_cons]
    cases violationOf flags option with
    | none => cases entryOf flags option <;> simp
    | some violation => cases entryOf flags option <;> simp

variable {options : List GhOption} {flag : Text} {value : OptionValue} {raw : RawValue}
  {option : GhOption} {entries : List (Text × OptionValue)}

variable {flags : RawFlags} {definition : GhCapabilityDefinition} {arguments : List Text}
  {item : Text}

theorem mem_entries (found : (options.filterMap (entryOf flags)).lookup flag = some value) :
    ∃ option ∈ options, option.flag = flag ∧ option.isJsonFields = false ∧
      evaluateOption option (flags.get flag) = .ok (some value) := by
  have inside : (flag, value) ∈ options.filterMap (entryOf flags) := by
    obtain ⟨front, back, parts, _⟩ := List.lookup_eq_some_iff.mp found
    simp [parts]
  obtain ⟨option, listed, entry⟩ := List.mem_filterMap.mp inside
  simp only [entryOf] at entry
  split at entry
  · cases entry
  next other =>
    split at entry
    next evaluated =>
      cases entry
      exact ⟨option, listed, rfl, by simpa using other, evaluated⟩
    · cases entry

/-! ### Acceptance -/

/-- Every check passes, with these results. -/
structure Passes (definition : GhCapabilityDefinition) (raw : GhInvocation) (slug : RepositorySlug)
    (fields : List Text) : Prop where
  repository : parseRepositorySlug raw.repository = some slug
  further : ∀ forbidden ∈ forbiddenKeys, forbidden ∉ raw.further
  known : ∀ flag ∈ raw.flags.entries.map Prod.fst, isKnownFlag definition flag = true
  values : ∀ option ∈ definition.options, violationOf raw.flags option = none
  jsonFields : evaluateJsonFields (jsonOption definition) raw.jsonFields = .ok fields
  relations : evaluateRelations definition.constraints
    (presentWithFields (jsonOption definition) fields
      (definition.options.filterMap (entryOf raw.flags)).reverse) ⟨true, true⟩ = []

theorem evaluateInvocation_accepted_iff {raw : GhInvocation} {normalized : GhNormalizedInvocation} :
    evaluateInvocation definition raw = .accepted normalized ↔
      ∃ slug fields, Passes definition raw slug fields ∧
        normalized = ⟨definition.id, slug, definition.options.filterMap (entryOf raw.flags), fields⟩ := by
  have collected := foldl_collectOption raw.flags definition.options ⟨[], [], []⟩
  simp only [List.nil_append, List.append_nil] at collected
  simp only [evaluateInvocation, collectOptions, collected]
  constructor
  · intro accepted
    split at accepted
    next slug clean parsed =>
      simp only [List.append_eq_nil_iff] at clean
      obtain ⟨⟨⟨⟨⟨_, forbidden⟩, unknown⟩, wrong⟩, json⟩, relations⟩ := clean
      cases outcome : evaluateJsonFields (jsonOption definition) raw.jsonFields with
      | error violation =>
        rw [outcome] at json
        cases json
      | ok fields =>
        rw [outcome, parsed] at relations
        rw [outcome] at accepted
        refine ⟨slug, fields, ⟨parsed, ?_, ?_, ?_, outcome, relations⟩, ?_⟩
        · intro name listed inside
          have kept : name ∈ forbiddenKeys.filter (· ∈ raw.further) := by simp [listed, inside]
          rw [List.map_eq_nil_iff.mp forbidden] at kept
          cases kept
        · simpa [unknownViolations] using unknown
        · simpa [List.filterMap_eq_nil_iff] using wrong
        · cases accepted
          rfl
    · cases accepted
  · rintro ⟨slug, fields, passes, rfl⟩
    have forbidden : forbiddenViolations raw.further = [] := by
      simpa [forbiddenViolations] using passes.further
    have unknown : unknownViolations definition raw.flags = [] := by
      simpa [unknownViolations] using passes.known
    have wrong : definition.options.filterMap (violationOf raw.flags) = [] := by
      simpa [List.filterMap_eq_nil_iff] using passes.values
    simp [forbidden, unknown, wrong, passes.jsonFields, passes.relations, passes.repository]

/-! ### Values and elements -/

/-- What an option can be written with: a value that the definition allows, or its default when nothing
was given. -/
inductive Admitted : GhOption → RawValue → OptionValue → Prop
  | enum {flag : Text} {values : List Text} {defaultValue value : Text} {raw : RawValue}
      (allowed : value ∈ values ∨ (value = defaultValue ∧ raw = .undefined)) :
      Admitted (.enum flag values defaultValue) raw (.text value)
  | int {flag : Text} {min max defaultValue number : Int} {raw : RawValue}
      (inRange : (min ≤ number ∧ number ≤ max) ∨ (number = defaultValue ∧ raw = .undefined)) :
      Admitted (.int flag min max defaultValue) raw (.number number)
  | bool {flag : Text} {defaultValue : Bool} {raw : RawValue} :
      Admitted (.bool flag defaultValue) raw (.bool true)

theorem evaluateOption_int {min max defaultValue : Int}
    (evaluated : evaluateOption (.int flag min max defaultValue) raw = .ok (some value)) :
    Admitted (.int flag min max defaultValue) raw value := by
  by_cases absent : raw = .undefined
  · subst absent
    cases evaluated
    exact .int (.inr ⟨rfl, rfl⟩)
  · rw [evaluateOption.eq_def] at evaluated
    split at evaluated <;> try contradiction
    all_goals injections
    all_goals subst_vars
    split at evaluated
    · cases evaluated
    next numeric read =>
      split at evaluated
      · split at evaluated
        · cases evaluated
        next inside =>
          cases evaluated
          exact .int (.inl (by omega))
      · cases evaluated

theorem evaluateOption_admitted (evaluated : evaluateOption option raw = .ok (some value)) :
    Admitted option raw value := by
  cases option with
  | enum flag values defaultValue =>
    cases raw with
    | undefined =>
      cases evaluated
      exact .enum (.inr ⟨rfl, rfl⟩)
    | text raw =>
      rw [evaluateOption] at evaluated
      split at evaluated
      next allowed =>
        cases evaluated
        exact .enum (.inl allowed)
      · cases evaluated
    | number | bool | list | other => cases evaluated
  | int flag min max defaultValue => exact evaluateOption_int evaluated
  | jsonFields => cases raw <;> cases evaluated
  | bool flag defaultValue =>
    cases raw with
    | undefined => cases defaultValue <;> cases evaluated; exact .bool
    | bool raw => cases raw <;> cases evaluated; exact .bool
    | text | number | list | other => cases evaluated

/-- The entry of a flag comes from an option with this flag. -/
theorem admitted_of_lookup (found : (options.filterMap (entryOf flags)).lookup flag = some value) :
    ∃ option ∈ options, option.flag = flag ∧ Admitted option (flags.get flag) value := by
  obtain ⟨option, listed, named, _, evaluated⟩ := mem_entries found
  exact ⟨option, listed, named, evaluateOption_admitted evaluated⟩

/-! ### The elements of the array -/

theorem stringOf_of_admitted (admitted : Admitted option raw value) :
    ∃ text, stringOf value = some text := by
  cases admitted with
  | enum => exact ⟨_, rfl⟩
  | int => exact ⟨_, rfl⟩
  | bool => exact ⟨_, rfl⟩

/-- No value of an option is an array. -/
theorem optionArguments_ok
    (texts : ∀ value, entries.lookup option.flag = some value → ∃ text, stringOf value = some text) :
    ∃ arguments, optionArguments entries option = .ok arguments := by
  unfold optionArguments
  split
  · exact ⟨[], rfl⟩
  · cases found : entries.lookup option.flag with
    | none => exact ⟨[], rfl⟩
    | some value =>
      obtain ⟨text, rendered⟩ := texts value found
      simp only [rendered]
      split <;> exact ⟨_, rfl⟩

theorem allArguments_ok
    (texts : ∀ option ∈ options, ∀ value, entries.lookup option.flag = some value →
      ∃ text, stringOf value = some text) :
    ∃ arguments, allArguments entries options = .ok arguments := by
  induction options with
  | nil => exact ⟨[], rfl⟩
  | cons option rest ih =>
    obtain ⟨first, own⟩ := optionArguments_ok (texts option List.mem_cons_self)
    obtain ⟨others, later⟩ := ih fun other listed => texts other (List.mem_cons_of_mem _ listed)
    exact ⟨first ++ others, by rw [allArguments, own, later]⟩

theorem mem_optionArguments (made : optionArguments entries option = .ok arguments)
    (inside : item ∈ arguments) :
    item = option.flag ∨ (option.takesValue = true ∧
      ∃ value, entries.lookup option.flag = some value ∧ stringOf value = some item) := by
  unfold optionArguments at made
  split at made
  · cases made
    cases inside
  next typed =>
    cases found : entries.lookup option.flag with
    | none =>
      rw [found] at made
      cases made
      cases inside
    | some value =>
      simp only [found] at made
      split at made
      · cases made
        split at inside
        · exact .inl (List.mem_singleton.mp inside)
        · cases inside
      next valued =>
        split at made
        · cases made
        next text rendered =>
          cases made
          rcases List.mem_cons.mp inside with flag | text
          · exact .inl flag
          · obtain rfl := List.mem_singleton.mp text
            refine .inr ⟨?_, value, rfl, rendered⟩
            cases option <;> simp_all [GhOption.isJsonFields, GhOption.isBool, GhOption.takesValue]

theorem mem_allArguments (made : allArguments entries options = .ok arguments)
    (inside : item ∈ arguments) :
    ∃ option ∈ options, item = option.flag ∨ (option.takesValue = true ∧
      ∃ value, entries.lookup option.flag = some value ∧ stringOf value = some item) := by
  induction options generalizing arguments with
  | nil =>
    cases made
    cases inside
  | cons option rest ih =>
    rw [allArguments] at made
    split at made
    · cases made
    · cases made
    next first others own later =>
      cases made
      rcases List.mem_append.mp inside with early | late
      · exact ⟨option, List.mem_cons_self, mem_optionArguments own early⟩
      · obtain ⟨other, listed, written⟩ := ih later late
        exact ⟨other, List.mem_cons_of_mem _ listed, written⟩

/-! ### The JSON fields -/

theorem jsonOption_eq_some (found : jsonOption definition = some option) :
    option ∈ definition.options ∧ ∃ flag allowed defaultValue minItems maxItems,
      option = .jsonFields flag allowed defaultValue minItems maxItems := by
  refine ⟨List.mem_of_find?_eq_some found, ?_⟩
  have kind := List.find?_some found
  cases option with
  | jsonFields flag allowed defaultValue minItems maxItems => exact ⟨_, _, _, _, _, rfl⟩
  | enum | int | bool => cases kind

/-- Fields that were selected are in the order in which they are allowed. -/
theorem evaluateJsonFields_ok {allowed defaultValue fields : List Text} {minItems maxItems : Int}
    (evaluated : evaluateJsonFields (some (.jsonFields flag allowed defaultValue minItems maxItems)) raw
      = .ok fields) :
    fields.Sublist allowed ∨ (fields = defaultValue ∧ (raw = .undefined ∨ raw = .list [])) := by
  cases raw with
  | undefined =>
    cases evaluated
    exact .inr ⟨rfl, .inl rfl⟩
  | list items =>
    cases items with
    | nil =>
      cases evaluated
      exact .inr ⟨rfl, .inr rfl⟩
    | cons item rest =>
      rw [evaluateJsonFields, selectFields] at evaluated
      · split at evaluated
        · cases evaluated
        · split at evaluated
          · cases evaluated
          · split at evaluated
            · cases evaluated
            · split at evaluated
              · cases evaluated
              · cases evaluated
                exact .inl List.filter_sublist
      · exact List.cons_ne_nil _ _
  | text | number | bool | other => cases evaluated

end PrSearch.GhCli
