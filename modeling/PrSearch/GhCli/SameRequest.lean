import PrSearch.GhCli.Checked

/-! # Two ways to write one request

The flags of an object have no order, the JSON fields of a request have none that counts, and a form
sends an integer as a string where a program sends a number. The check sees no difference.
-/
namespace PrSearch.GhCli

open Query

/-- The value is the integer, as a number or in digits. -/
inductive WritesInteger (integer : Int) : RawValue → Prop
  | number : WritesInteger integer (.number integer)
  | text {text : Text} (read : readInteger text = some integer) : WritesInteger integer (.text text)

/-- Equal values, or one integer written in two ways where the flag takes an integer. -/
inductive SameValue (definition : GhCapabilityDefinition) (flag : Text) : RawValue → RawValue → Prop
  | same {value : RawValue} : SameValue definition flag value value
  | integer {integer : Int} {left right : RawValue}
      (ints : ∀ option ∈ definition.options, option.flag = flag → option.isInt = true)
      (before : WritesInteger integer left) (after : WritesInteger integer right) :
      SameValue definition flag left right

/-- The entries in another order, and then value by value. -/
def SameFlags (definition : GhCapabilityDefinition) (left right : RawFlags) : Prop :=
  ∃ reordered, left.entries.Perm reordered ∧
    List.Forall₂ (fun one other => one.1 = other.1 ∧ SameValue definition one.1 one.2 other.2)
      reordered right.entries

inductive SameFields : RawValue → RawValue → Prop
  | same {value : RawValue} : SameFields value value
  | reordered {left right : List (Option Text)} (order : left.Perm right) : SameFields (.list left) (.list right)

structure SameRequest (definition : GhCapabilityDefinition) (left right : GhInvocation) : Prop where
  repository : left.repository = right.repository
  flags : SameFlags definition left.flags right.flags
  jsonFields : SameFields left.jsonFields right.jsonFields
  further : left.further = right.further

/-! ### Flags -/

-- Where keys come once, the value of a key does not depend on the order.
theorem lookup_of_perm {left right : List (Text × RawValue)} (once : (left.map Prod.fst).Nodup)
    (order : left.Perm right) (flag : Text) : left.lookup flag = right.lookup flag := by
  induction order with
  | nil => rfl
  | cons entry _ ih =>
    obtain ⟨key, value⟩ := entry
    simp only [List.map_cons, List.nodup_cons] at once
    simp only [List.lookup_cons, ih once.2]
  | swap first second rest =>
    obtain ⟨key, value⟩ := first
    obtain ⟨key', value'⟩ := second
    simp only [List.map_cons, List.nodup_cons, List.mem_cons, not_or] at once
    simp only [List.lookup_cons]
    by_cases one : flag = key
    · subst one
      have other : (flag == key') = false := by simpa using Ne.symm once.1.1
      simp [other]
    · have other : (flag == key) = false := by simpa using one
      simp [other]
  | trans first second ihFirst ihSecond =>
    rw [ihFirst once, ihSecond ((first.map Prod.fst).nodup_iff.mp once)]

variable {definition : GhCapabilityDefinition} {left right : RawFlags} {flag : Text}
  {fields : List Text}

theorem lookup_of_forall₂ {left right : List (Text × RawValue)}
    (each : List.Forall₂ (fun one other => one.1 = other.1 ∧ SameValue definition one.1 one.2 other.2)
      left right) (flag : Text) :
    SameValue definition flag ((left.lookup flag).getD .undefined) ((right.lookup flag).getD .undefined) := by
  induction each with
  | nil => exact .same
  | @cons one other _ _ first _ ih =>
    obtain ⟨key, value⟩ := one
    obtain ⟨key', value'⟩ := other
    obtain ⟨rfl, alike⟩ := first
    simp only [List.lookup_cons]
    by_cases named : flag = key
    · subst named
      simpa using alike
    · have other : (flag == key) = false := by simpa using named
      simpa [other] using ih

theorem keys_of_forall₂ {left right : List (Text × RawValue)}
    (each : List.Forall₂ (fun one other => one.1 = other.1 ∧ SameValue definition one.1 one.2 other.2)
      left right) : left.map Prod.fst = right.map Prod.fst := by
  induction each with
  | nil => rfl
  | cons first _ ih => rw [List.map_cons, List.map_cons, first.1, ih]

theorem SameFlags.get (same : SameFlags definition left right) (flag : Text) :
    SameValue definition flag (left.get flag) (right.get flag) := by
  obtain ⟨reordered, order, each⟩ := same
  rw [RawFlags.get, lookup_of_perm left.once order flag]
  exact lookup_of_forall₂ each flag

theorem SameFlags.keys (same : SameFlags definition left right) (flag : Text) :
    flag ∈ right.entries.map Prod.fst ↔ flag ∈ left.entries.map Prod.fst := by
  obtain ⟨reordered, order, each⟩ := same
  rw [← keys_of_forall₂ each]
  exact ((order.map Prod.fst).mem_iff).symm

variable {integer minItems maxItems : Int} {raw : RawValue} {option : GhOption}
  {allowed result : List Text} {items : List (Option Text)}

/-! ### The value of an option -/

theorem numericOf_of_writes (writes : WritesInteger integer raw) :
    numericOf raw = some (integer : ℚ) := by
  cases writes with
  | number => rfl
  | text read => simp [numericOf, read]

theorem evaluateOption_of_numeric {min max defaultValue : Int} {left right : RawValue}
    (leftGiven : left ≠ .undefined) (rightGiven : right ≠ .undefined)
    (same : numericOf left = numericOf right) :
    evaluateOption (.int flag min max defaultValue) left =
      evaluateOption (.int flag min max defaultValue) right := by
  rw [evaluateOption, evaluateOption, same]
  · exact rightGiven
  · exact leftGiven

theorem WritesInteger.given (writes : WritesInteger integer raw) : raw ≠ .undefined := by
  cases writes <;> exact RawValue.noConfusion

theorem evaluateOption_of_same (listed : option ∈ definition.options) {left right : RawValue}
    (same : SameValue definition option.flag left right) :
    evaluateOption option left = evaluateOption option right := by
  cases same with
  | same => rfl
  | integer ints writesLeft writesRight =>
    have int := ints option listed rfl
    cases option with
    | int flag min max defaultValue =>
      refine evaluateOption_of_numeric writesLeft.given writesRight.given ?_
      rw [numericOf_of_writes writesLeft, numericOf_of_writes writesRight]
    | enum | jsonFields | bool => cases int

theorem entryOf_of_same (same : SameFlags definition left right)
    (listed : option ∈ definition.options) : entryOf left option = entryOf right option := by
  rw [entryOf, evaluateOption_of_same listed (same.get option.flag), entryOf]

theorem violationOf_of_same (same : SameFlags definition left right)
    (listed : option ∈ definition.options) :
    violationOf left option = violationOf right option := by
  rw [violationOf, evaluateOption_of_same listed (same.get option.flag), violationOf]

/-! ### The JSON fields -/

/-- The loop ends well on fields that are allowed and come once. -/
theorem checkFields_ok_iff {seen : List Text} :
    checkFields flag allowed seen fields = .ok result ↔
      (∀ field ∈ fields, field ∈ allowed ∧ field ∉ seen) ∧ fields.Nodup ∧ result = fields.reverse ++ seen := by
  induction fields generalizing seen with
  | nil => simp [checkFields, eq_comm]
  | cons field rest ih =>
    rw [checkFields]
    by_cases inside : field ∈ allowed
    · by_cases again : field ∈ seen
      · simp [inside, again]
      · simp only [inside, not_true_eq_false, if_false, again, ih, List.mem_cons, List.nodup_cons]
        constructor
        · rintro ⟨each, once, rfl⟩
          refine ⟨?_, ⟨fun later => (each field later).2 (.inl rfl), once⟩, by simp⟩
          rintro other (rfl | later)
          · exact ⟨inside, again⟩
          · exact ⟨(each other later).1, fun seen => (each other later).2 (.inr seen)⟩
        · rintro ⟨each, ⟨fresh, once⟩, rfl⟩
          refine ⟨fun other later => ⟨(each other (.inr later)).1, ?_⟩, once, by simp⟩
          rintro (rfl | seen)
          · exact fresh later
          · exact (each other (.inr later)).2 seen
    · simp [inside]

theorem mapM_id_eq_some : items.mapM id = some fields ↔ items = fields.map some := by
  induction items generalizing fields with
  | nil => cases fields <;> simp
  | cons item rest ih =>
    cases item with
    | none => cases fields <;> simp
    | some first =>
      cases read : rest.mapM id with
      | none =>
        have noTexts : ∀ others : List Text, rest ≠ others.map some := fun others texts => by
          rw [ih.mpr texts] at read
          cases read
        cases fields <;> simp [read, noTexts]
      | some others =>
        obtain rfl := ih.mp read
        have again : (others.map some).mapM id = some others := ih.mpr rfl
        cases fields <;> simp [again, List.map_inj_right fun _ _ => Option.some.inj]

theorem selectFields_ok_iff :
    selectFields flag allowed minItems maxItems items = .ok result ↔
      ∃ fields : List Text, items = fields.map some ∧ (∀ field ∈ fields, field ∈ allowed) ∧ fields.Nodup ∧
        minItems ≤ fields.length ∧ (fields.length : Int) ≤ maxItems ∧ result = allowed.filter (· ∈ fields) := by
  unfold selectFields
  cases read : items.mapM id with
  | none =>
    have noTexts : ∀ fields : List Text, items ≠ fields.map some := by
      intro fields texts
      rw [mapM_id_eq_some.mpr texts] at read
      cases read
    simp [noTexts]
  | some fields =>
    obtain rfl := mapM_id_eq_some.mp read
    have only : ∀ others : List Text, fields.map some = others.map some ↔ others = fields := by
      intro others
      rw [List.map_inj_right fun _ _ => Option.some.inj]
      exact eq_comm
    simp only [only, exists_eq_left]
    cases checked : checkFields flag allowed [] fields with
    | error violation =>
      have refused : ¬((∀ field ∈ fields, field ∈ allowed) ∧ fields.Nodup) := by
        rintro ⟨inside, once⟩
        have passed : checkFields flag allowed [] fields = .ok (fields.reverse ++ []) :=
          checkFields_ok_iff.mpr ⟨fun field listed => ⟨inside field listed, by simp⟩, once, rfl⟩
        rw [passed] at checked
        cases checked
      simp only [reduceCtorEq, false_iff]
      rintro ⟨inside, once, _⟩
      exact refused ⟨inside, once⟩
    | ok seen =>
      obtain ⟨each, once, rfl⟩ := checkFields_ok_iff.mp checked
      have inside : ∀ field ∈ fields, field ∈ allowed := fun field listed => (each field listed).1
      dsimp only
      split
      next few =>
        simp only [reduceCtorEq, false_iff]
        rintro ⟨_, _, enough, _⟩
        omega
      next enough =>
        split
        next many =>
          simp only [reduceCtorEq, false_iff]
          rintro ⟨_, _, _, fits, _⟩
          omega
        next fits =>
          have seen : ∀ field, field ∈ fields.reverse ++ [] ↔ field ∈ fields := by simp
          simp only [seen, Except.ok.injEq]
          constructor
          · rintro rfl
            exact ⟨inside, once, by omega, by omega, rfl⟩
          · rintro ⟨_, _, _, _, rfl⟩
            rfl

theorem map_some_of_isSome (texts : ∀ item ∈ items, item.isSome = true) :
    ∃ fields : List Text, items = fields.map some := by
  induction items with
  | nil => exact ⟨[], rfl⟩
  | cons item rest ih =>
    obtain ⟨fields, rfl⟩ := ih fun other listed => texts other (List.mem_cons_of_mem _ listed)
    obtain ⟨field, rfl⟩ := Option.isSome_iff_exists.mp (texts item List.mem_cons_self)
    exact ⟨field :: fields, rfl⟩

/-- The order of the fields decides nothing. -/
theorem selectFields_of_perm {left right : List (Option Text)} (order : left.Perm right)
    (selected : selectFields flag allowed minItems maxItems left = .ok result) :
    selectFields flag allowed minItems maxItems right = .ok result := by
  obtain ⟨fields, rfl, inside, once, enough, fits, rfl⟩ := selectFields_ok_iff.mp selected
  obtain ⟨others, rfl, same⟩ : ∃ others : List Text, right = others.map some ∧ fields.Perm others := by
    have texts : ∀ item ∈ right, item.isSome = true := by
      intro item listed
      obtain ⟨field, _, rfl⟩ := List.mem_map.mp (order.mem_iff.mpr listed)
      rfl
    obtain ⟨others, rfl⟩ := map_some_of_isSome texts
    exact ⟨others, rfl, by simpa using order.filterMap id⟩
  refine selectFields_ok_iff.mpr ⟨others, rfl, ?_, (same.nodup_iff).mp once, ?_, ?_, ?_⟩
  · exact fun field listed => inside field (same.mem_iff.mpr listed)
  · rw [← same.length_eq]
    exact enough
  · rw [← same.length_eq]
    exact fits
  · simp only [same.mem_iff]

theorem evaluateJsonFields_of_same {json : Option GhOption} {left right : RawValue}
    (same : SameFields left right) (evaluated : evaluateJsonFields json left = .ok fields) :
    evaluateJsonFields json right = .ok fields := by
  cases same with
  | same => exact evaluated
  | @reordered left right order =>
    cases json with
    | none => exact evaluated
    | some option =>
      cases option with
      | enum | int | bool => exact evaluated
      | jsonFields flag allowed defaultValue minItems maxItems =>
        cases left with
        | nil =>
          rw [List.nil_perm.mp order]
          exact evaluated
        | cons item rest =>
          cases right with
          | nil => exact absurd (List.perm_nil.mp order) (List.cons_ne_nil _ _)
          | cons other others =>
            have selected : selectFields flag allowed minItems maxItems (item :: rest) = .ok fields := by
              rw [evaluateJsonFields] at evaluated
              · exact evaluated
              · exact List.cons_ne_nil _ _
            rw [evaluateJsonFields]
            · exact selectFields_of_perm order selected
            · exact List.cons_ne_nil _ _

/-! ### The whole request -/

theorem passes_of_same {left right : GhInvocation} (same : SameRequest definition left right)
    {slug : RepositorySlug} (passes : Passes definition left slug fields) :
    Passes definition right slug fields := by
  have entries : definition.options.filterMap (entryOf left.flags) =
      definition.options.filterMap (entryOf right.flags) :=
    List.filterMap_congr fun option listed => entryOf_of_same same.flags listed
  constructor
  · rw [← same.repository]
    exact passes.repository
  · rw [← same.further]
    exact passes.further
  · intro flag given
    exact passes.known flag ((same.flags.keys flag).mp given)
  · intro option listed
    rw [← violationOf_of_same same.flags listed]
    exact passes.values option listed
  · exact evaluateJsonFields_of_same same.jsonFields passes.jsonFields
  · rw [← entries]
    exact passes.relations

theorem accepted_of_same {left right : GhInvocation} (same : SameRequest definition left right)
    {normalized : GhNormalizedInvocation}
    (accepted : evaluateInvocation definition left = .accepted normalized) :
    evaluateInvocation definition right = .accepted normalized := by
  obtain ⟨slug, fields, passes, made⟩ := evaluateInvocation_accepted_iff.mp accepted
  refine evaluateInvocation_accepted_iff.mpr ⟨slug, fields, passes_of_same same passes, ?_⟩
  rw [made, List.filterMap_congr fun option listed => entryOf_of_same same.flags listed]

end PrSearch.GhCli
