import Mathlib.Data.List.TakeWhile
import PrSearch.Query.Serialize

/-! # The conditions of a query come back

Every condition that the parser makes is one that it makes again from what the serializer writes for
it. A bare value has no space in it, numbers are written as they are read, and a time zone has been
resolved before. So the conditions of an accepted query are `Lawful`.
-/
namespace PrSearch.Query

/-! ### Bare values -/

/-- A bare value has no space and does not begin with a quotation mark. -/
def Content.Solid (content : Content) : Prop :=
  content.quoted = false →
    (∀ c ∈ content.value, isSpace c = false) ∧ content.value.head? ≠ some '"'

variable {negated : Bool} {input value : Text} {content : Content} {contents : List Content}
  {runtime : Runtime} {filter : QueryFilter} {filters : List QueryFilter}

variable {next raw lower upper name : Text} {c : Char} {key : EqualityKey} {parts : List Part}
  {part : Part}

theorem solid_readValue {key : Option Text}
    (read : readValue negated key input = some (content, next)) : content.Solid := by
  unfold readValue at read
  split at read
  · obtain ⟨⟨value, after⟩, -, same⟩ := Option.map_eq_some_iff.mp read
    cases same
    intro bare
    cases bare
  next unmarked =>
    cases read
    intro _
    constructor
    · intro c inside
      have kept := List.mem_takeWhile_imp inside
      simpa using kept
    · intro first
      cases input with
      | nil => cases first
      | cons c rest =>
        simp only [List.takeWhile_cons] at first
        split at first
        · obtain rfl : c = '"' := Option.some.inj first
          exact unmarked rest rfl
        · cases first

theorem solid_readToken (read : readToken input = some (content, next)) : content.Solid := by
  have body : ∀ {negated body}, readBody negated body = some (content, next) → content.Solid := by
    intro negated body read
    unfold readBody at read
    split at read
    · exact solid_readValue read
    · exact solid_readValue read
  unfold readToken at read
  split at read
  · exact body read
  · exact body read

theorem solid_of_reads (reads : Reads input contents) : ∀ content ∈ contents, content.Solid := by
  induction reads with
  | done => exact List.forall_mem_nil _
  | kept _ read _ _ ih =>
    intro content inside
    rcases List.mem_cons.mp inside with rfl | later
    · exact solid_readToken read
    · exact ih content later
  | dropped _ _ _ _ ih => exact ih

theorem parseNumericBound_ok {n : Int} (parsed : parseNumericBound raw = .ok n) :
    isSafeInteger n = true := by
  unfold parseNumericBound at parsed
  split at parsed
  · cases parsed
  · split at parsed
    next safe => cases parsed; exact safe
    next => cases parsed

theorem wellFormed_numeric {key : NumericRangeKey}
    (made : toNumericFilter key content lower upper = .ok filter) :
    WellFormed runtime filter ∧ slot filter = none := by
  obtain ⟨low, first, made⟩ := bind_ok_iff.mp made
  obtain ⟨high, second, made⟩ := bind_ok_iff.mp made
  split at made
  · cases made
  next order =>
    split at made
    · cases made
    next least =>
      cases made
      exact ⟨⟨Int.not_lt.mp order, parseNumericBound_ok first, parseNumericBound_ok second,
        by simpa using least⟩, rfl⟩

theorem wellFormed_single {key : NumericRangeKey}
    (made : toSingleValueRangeFilter key content = .ok filter) :
    WellFormed runtime filter ∧ slot filter = none := by
  obtain ⟨value, parsed, made⟩ := bind_ok_iff.mp made
  split at made
  · cases made
  next least =>
    cases made
    have safe := parseNumericBound_ok parsed
    exact ⟨⟨Int.le_refl value, safe, safe, by simpa using least⟩, rfl⟩

theorem checkTemporalBound_ok {bound : Text} (checked : checkTemporalBound runtime raw = .ok bound) :
    bound = raw := by
  unfold checkTemporalBound at checked
  split at checked
  · cases checked
  · split at checked
    · cases checked
    · cases checked
      rfl

-- The characters of a joined list are those of its parts and of the joint.
theorem mem_intercalate {sep : Char} {parts : List Text} (inside : c ∈ [sep].intercalate parts) :
    c = sep ∨ ∃ part ∈ parts, c ∈ part := by
  induction parts with
  | nil => cases inside
  | cons part rest ih =>
    cases rest with
    | nil =>
      rw [List.intercalate_singleton] at inside
      exact .inr ⟨part, List.mem_cons_self, inside⟩
    | cons next rest =>
      rw [List.intercalate_cons_cons] at inside
      simp only [List.append_assoc, List.mem_append, List.mem_singleton] at inside
      rcases inside with first | joint | later
      · exact .inr ⟨part, List.mem_cons_self, first⟩
      · exact .inl joint
      · rcases ih later with joint | ⟨other, among, inside⟩
        · exact .inl joint
        · exact .inr ⟨other, List.mem_cons_of_mem _ among, inside⟩

theorem isSpace_of_isZoneChar (is : isZoneChar c = true) : isSpace c = false := by
  simp only [isZoneChar, Bool.or_eq_true, beq_iff_eq] at is
  rcases is with ((letter | rfl) | rfl) | rfl
  · exact isSpace_of_isAlphanum letter
  · decide
  · decide
  · decide

theorem solid_zoneName (is : zoneName name = true) : ∀ c ∈ name, isSpace c = false := by
  intro c inside
  unfold zoneName at is
  split at is
  next first rest segments found =>
    simp only [Bool.and_eq_true, List.all_eq_true] at is
    obtain ⟨⟨letter, start⟩, others⟩ := is
    have joined : ['/'].intercalate (name.splitOn '/') = name := List.intercalate_splitOn '/'
    rw [← joined, found] at inside
    rcases mem_intercalate inside with rfl | ⟨segment, among, inside⟩
    · decide
    · rcases List.mem_cons.mp among with rfl | later
      · rcases List.mem_cons.mp inside with rfl | inside
        · exact isSpace_of_isAlphanum (by simp [Char.isAlphanum, letter])
        · exact isSpace_of_isZoneChar (start c inside)
      · exact isSpace_of_isZoneChar ((others segment later).2 c inside)
  · cases is

/-- What `splitTimeZone` finds, it finds again in the canonical name. -/
theorem splitTimeZone_ok (canonical : runtime.Canonical) {low high : Text}
    (found : splitTimeZone runtime lower upper value = .ok (some (low, high, name))) :
    low = lower ∧ zoneName name = true ∧ (∃ zone, upper = high ++ '@' :: zone) ∧
      ∀ other, splitTimeZone runtime lower (high ++ '@' :: name) other =
        .ok (some (lower, high, name)) := by
  unfold splitTimeZone at found
  split at found
  · cases found
  next noMark =>
    split at found
    · cases found
    next c zone rest =>
      obtain rfl : c = '@' := by
        have stops := List.head?_dropWhile_not (fun c => c != '@') upper
        rw [rest] at stops
        simpa using stops
      have whole : upper.takeWhile (fun c => c != '@') ++ upper.dropWhile (fun c => c != '@') =
        upper := List.takeWhile_append_dropWhile
      have before : ∀ c ∈ upper.takeWhile (fun c => c != '@'), (c != '@') = true := by
        intro c inside
        exact List.mem_takeWhile_imp (p := fun c => c != '@') inside
      rw [rest] at whole
      generalize upper.takeWhile (fun c => c != '@') = day at whole before found
      dsimp only at found
      split at found
      · cases found
      next some_ =>
        split at found
        · cases found
        next dates =>
          obtain ⟨_, first, found⟩ := bind_ok_iff.mp found
          obtain ⟨_, second, found⟩ := bind_ok_iff.mp found
          split at found
          · cases found
          next resolved is =>
            split at found
            · cases found
            next order =>
              cases found
              unfold canonicalTimeZone at is
              split at is
              next named =>
                obtain ⟨isName, again⟩ := canonical zone name named is
                refine ⟨rfl, isName, ⟨zone, whole.symm⟩, fun other => ?_⟩
                rw [splitTimeZone, if_neg noMark]
                simp only [List.dropWhile_append_of_pos before, List.takeWhile_append_of_pos before]
                simp [some_, dates, first, second, Except.bind, canonicalTimeZone, isName, again,
                  order]
              next => cases is

theorem wellFormed_temporal (canonical : runtime.Canonical) {key : TemporalRangeKey}
    (solid : content.Solid) (bare : content.quoted = false)
    (found : splitRange content.value = some (lower, upper)) (low : lower ≠ []) (high : upper ≠ [])
    (made : toTemporalFilter runtime key content lower upper = .ok filter) :
    WellFormed runtime filter ∧ slot filter = none := by
  obtain ⟨negated, name, value, quoted⟩ := content
  dsimp only at bare found
  subst bare
  obtain ⟨solid, unmarked⟩ := solid rfl
  obtain ⟨rfl, again⟩ := splitRange_of_split found
  have whole := made
  obtain ⟨zoned, split_, made⟩ := bind_ok_iff.mp made
  cases zoned with
  | none =>
    obtain ⟨first, checked, made⟩ := bind_ok_iff.mp made
    obtain ⟨second, checked', made⟩ := bind_ok_iff.mp made
    obtain rfl := checkTemporalBound_ok checked
    obtain rfl := checkTemporalBound_ok checked'
    split at made
    · cases made
    · cases made
      have same : renderRange first second none = first ++ '.' :: '.' :: second := by
        simp [renderRange]
      refine ⟨⟨by rwa [same], by rwa [same], ?_⟩, rfl⟩
      rw [same, toRange, if_neg Bool.false_ne_true, withBounds_of_split (again second) low high]
      exact congrArg some whole
  | some zoned =>
    obtain ⟨first, day, zone⟩ := zoned
    obtain ⟨rfl, isName, ⟨written, rfl⟩, splits⟩ := splitTimeZone_ok canonical split_
    cases made
    have same : renderRange first day (some zone) =
        first ++ '.' :: '.' :: (day ++ '@' :: zone) := by
      simp [renderRange]
    refine ⟨⟨?_, ?_, ?_⟩, rfl⟩
    · -- the canonical name is solid as well
      rw [same]
      intro c inside
      simp only [List.mem_append, List.mem_cons] at inside solid
      rcases inside with first | dot | dot | day | mark | zone
      · exact solid c (.inl first)
      · exact solid c (.inr (.inl dot))
      · exact solid c (.inr (.inl dot))
      · exact solid c (.inr (.inr (.inr (.inl day))))
      · exact solid c (.inr (.inr (.inr (.inr (.inl mark)))))
      · exact solid_zoneName isName c zone
    · rw [same]
      cases first with
      | nil => exact absurd rfl low
      | cons c rest => exact unmarked
    · rw [same, toRange, if_neg Bool.false_ne_true, withBounds_of_split (again _) low (by simp), toTemporalFilter, splits]
      rfl

/-- A token that adds a range adds one that is read back. -/
theorem wellFormed_of_range (canonical : runtime.Canonical) (solid : content.Solid)
    (parsed : parseContent runtime content = .ok (.range filter)) :
    WellFormed runtime filter ∧ slot filter = none := by
  unfold parseContent at parsed
  split at parsed
  · cases parsed
  next name _ =>
    split at parsed
    · cases parsed
    next key _ =>
      split at parsed
      next made range =>
        obtain ⟨filter, rfl, same⟩ := map_ok_iff.mp parsed
        cases same
        unfold toRange at range
        split at range
        · cases range
        next bare =>
          have bare : content.quoted = false := by simpa using bare
          split at range
          · cases range
          next number =>
            obtain ⟨lower, upper, -, -, -, made⟩ := withBounds_ok range
            exact wellFormed_numeric made
          next time =>
            obtain ⟨lower, upper, found, low, high, made⟩ := withBounds_ok range
            exact wellFormed_temporal canonical solid bare found low high made
      next none_ =>
        unfold toScalar at parsed
        split at parsed
        · cases parsed
        · split at parsed
          · obtain ⟨_, -, same⟩ := map_ok_iff.mp parsed
            cases same
          next number =>
            split at parsed
            · obtain ⟨filter, made, same⟩ := map_ok_iff.mp parsed
              cases same
              exact wellFormed_single made
            · cases parsed
          · cases parsed

/-- A token that adds a value adds one that is allowed. -/
theorem allowed_of_value (parsed : parseContent runtime content = .ok (.value key negated value)) :
    value ≠ [] ∧ checkEnumeratedValue key value = .ok () := by
  unfold parseContent at parsed
  split at parsed
  · cases parsed
  · split at parsed
    · cases parsed
    · split at parsed
      · obtain ⟨_, -, same⟩ := map_ok_iff.mp parsed
        cases same
      · unfold toScalar at parsed
        split at parsed
        · cases parsed
        next some_ =>
          split at parsed
          · obtain ⟨_, allowed, same⟩ := map_ok_iff.mp parsed
            cases same
            exact ⟨some_, allowed⟩
          · split at parsed
            · obtain ⟨_, -, same⟩ := map_ok_iff.mp parsed
              cases same
            · cases parsed
          · cases parsed

theorem slots_addValue (key : EqualityKey) (negated : Bool) (value : Text)
    (filters : List QueryFilter) :
    (addValue key negated value filters).filterMap slot =
      if (key, negated) ∈ filters.filterMap slot then filters.filterMap slot
      else filters.filterMap slot ++ [(key, negated)] := by
  induction filters with
  | nil => rfl
  | cons filter rest ih =>
    cases filter with
    | equality other sign values =>
      simp only [addValue, slot]
      split
      next same =>
        obtain ⟨rfl, rfl⟩ := same
        simp [slot]
      next different =>
        have apart : (key, negated) ≠ (other, sign) := by
          rintro ⟨⟩
          exact different ⟨rfl, rfl⟩
        simp only [List.filterMap_cons, slot, ih, List.mem_cons, apart, false_or]
        split <;> rfl
    | numeric | temporal => exact ih

/-- What the first value of a condition has, and keeps with more values, all conditions keep. -/
theorem forall_addValue {P : QueryFilter → Prop} (fresh : P (.equality key negated [value]))
    (grows : ∀ values, value ∉ values → P (.equality key negated values) →
      P (.equality key negated (values ++ [value]))) (made : ∀ filter ∈ filters, P filter) :
    ∀ filter ∈ addValue key negated value filters, P filter := by
  induction filters with
  | nil =>
    intro filter inside
    obtain rfl := List.mem_singleton.mp inside
    exact fresh
  | cons filter rest ih =>
    have first := made filter List.mem_cons_self
    have later := fun other inside => made other (List.mem_cons_of_mem _ inside)
    cases filter with
    | equality other sign values =>
      simp only [addValue]
      split
      next same =>
        obtain ⟨rfl, rfl⟩ := same
        intro filter inside
        rcases List.mem_cons.mp inside with rfl | inside
        · split
          · exact first
          next new => exact grows values new first
        · exact later filter inside
      next =>
        intro filter inside
        rcases List.mem_cons.mp inside with rfl | inside
        · exact first
        · exact ih later filter inside
    | numeric | temporal =>
      intro filter inside
      rcases List.mem_cons.mp inside with rfl | inside
      · exact first
      · exact ih later filter inside

theorem wellFormed_addValue (allowed : value ≠ [] ∧ checkEnumeratedValue key value = .ok ())
    (made : ∀ filter ∈ filters, WellFormed runtime filter) :
    ∀ filter ∈ addValue key negated value filters, WellFormed runtime filter := by
  refine forall_addValue ?_ ?_ made
  · refine ⟨by simp, List.nodup_singleton value, fun other inside => ?_⟩
    obtain rfl := List.mem_singleton.mp inside
    exact allowed
  · rintro values new ⟨some_, apart, each⟩
    refine ⟨by simp, ?_, fun other inside => ?_⟩
    · exact apart.append (List.nodup_singleton value) (by simpa using new)
    · rcases List.mem_append.mp inside with old | inside
      · exact each other old
      · obtain rfl := List.mem_singleton.mp inside
        exact allowed

theorem apart_addValue (key : EqualityKey) (negated : Bool) (value : Text)
    (apart : (filters.filterMap slot).Nodup) :
    ((addValue key negated value filters).filterMap slot).Nodup := by
  rw [slots_addValue]
  split
  · exact apart
  next new => exact apart.append (List.nodup_singleton _) (by simpa using new)

/-- What every token of a query keeps holds of its conditions. -/
theorem filtersOf_induction {P : List QueryFilter → Prop} (of : PartsOf runtime contents parts)
    (start : P [])
    (step : ∀ content ∈ contents, ∀ part filters, parseContent runtime content = .ok part →
      P filters → P (part.addTo filters)) : P (filtersOf parts) := by
  have general : ∀ before : List QueryFilter, P before → P (parts.foldl Part.addTo before) := by
    induction of with
    | nil => exact fun before holds => holds
    | @cons content part contents parts parsed _ ih =>
      intro before holds
      rw [List.foldl_cons]
      apply ih fun other later => step other (List.mem_cons_of_mem _ later)
      exact step content List.mem_cons_self part before parsed holds
  exact general [] start

theorem Lawful.addTo (canonical : runtime.Canonical) (solid : content.Solid)
    (parsed : parseContent runtime content = .ok part) (lawful : Lawful runtime filters) :
    Lawful runtime (part.addTo filters) := by
  cases part with
  | word => exact lawful
  | range filter =>
    obtain ⟨made, unslotted⟩ := wellFormed_of_range canonical solid parsed
    constructor
    · intro other inside
      rcases List.mem_append.mp inside with old | inside
      · exact lawful.wellFormed other old
      · obtain rfl := List.mem_singleton.mp inside
        exact made
    · simpa [Part.addTo, unslotted] using lawful.apart
  | value key negated given =>
    exact ⟨wellFormed_addValue (allowed_of_value parsed) lawful.wellFormed,
      apart_addValue key negated given lawful.apart⟩

/-- What the parser makes can be read back. -/
theorem lawful_filtersOf (canonical : runtime.Canonical)
    (solid : ∀ content ∈ contents, content.Solid) (of : PartsOf runtime contents parts) :
    Lawful runtime (filtersOf parts) := by
  refine filtersOf_induction of ⟨List.forall_mem_nil _, List.nodup_nil⟩ ?_
  intro content inside part filters parsed lawful
  exact lawful.addTo canonical (solid content inside) parsed

/-! ### Values and slots -/

/-- The values of a condition are such as the parser lets through. -/
def Allowed : QueryFilter → Prop
  | .equality key _ values => ∀ value ∈ values, checkEnumeratedValue key value = .ok ()
  | _ => True

/-- Values have been gathered, one condition for each key and sign. -/
structure Gathered (filters : List QueryFilter) : Prop where
  allowed : ∀ filter ∈ filters, Allowed filter
  apart : (filters.filterMap slot).Nodup

theorem Lawful.gathered (lawful : Lawful runtime filters) : Gathered filters := by
  refine ⟨fun filter inside => ?_, lawful.apart⟩
  have made := lawful.wellFormed filter inside
  cases filter with
  | equality key negated values => exact fun value among => (made.2.2 value among).2
  | numeric | temporal => trivial

theorem unslotted_toRange {key : QueryKey} (made : toRange runtime key content = some (.ok filter)) :
    slot filter = none := by
  unfold toRange at made
  split at made
  · cases made
  · split at made
    · cases made
    · obtain ⟨lower, upper, -, -, -, made⟩ := withBounds_ok made
      obtain ⟨low, -, made⟩ := bind_ok_iff.mp made
      obtain ⟨high, -, made⟩ := bind_ok_iff.mp made
      split at made
      · cases made
      · split at made
        · cases made
        · cases made
          rfl
    · obtain ⟨lower, upper, -, -, -, made⟩ := withBounds_ok made
      obtain ⟨zoned, -, made⟩ := bind_ok_iff.mp made
      cases zoned with
      | some zoned =>
        cases made
        rfl
      | none =>
        obtain ⟨low, -, made⟩ := bind_ok_iff.mp made
        obtain ⟨high, -, made⟩ := bind_ok_iff.mp made
        split at made
        · cases made
        · cases made
          rfl

/-- What a range adds has no slot for values. -/
theorem unslotted_of_range (parsed : parseContent runtime content = .ok (.range filter)) :
    slot filter = none := by
  unfold parseContent at parsed
  split at parsed
  · cases parsed
  · split at parsed
    · cases parsed
    · split at parsed
      next made range =>
        obtain ⟨filter, rfl, same⟩ := map_ok_iff.mp parsed
        cases same
        exact unslotted_toRange range
      next =>
        unfold toScalar at parsed
        split at parsed
        · cases parsed
        · split at parsed
          · obtain ⟨_, -, same⟩ := map_ok_iff.mp parsed
            cases same
          · split at parsed
            · obtain ⟨filter, made, same⟩ := map_ok_iff.mp parsed
              cases same
              have single : WellFormed runtime filter ∧ slot filter = none := wellFormed_single made
              exact single.2
            · cases parsed
          · cases parsed

theorem Gathered.addTo (parsed : parseContent runtime content = .ok part)
    (gathered : Gathered filters) : Gathered (part.addTo filters) := by
  cases part with
  | word => exact gathered
  | range filter =>
    have unslotted := unslotted_of_range parsed
    constructor
    · intro other inside
      rcases List.mem_append.mp inside with old | inside
      · exact gathered.allowed other old
      · obtain rfl := List.mem_singleton.mp inside
        cases other with
        | equality => cases unslotted
        | numeric | temporal => trivial
    · simpa [Part.addTo, unslotted] using gathered.apart
  | value key negated given =>
    have allowed := (allowed_of_value parsed).2
    refine ⟨forall_addValue ?_ ?_ gathered.allowed, apart_addValue key negated given gathered.apart⟩
    · intro other inside
      obtain rfl := List.mem_singleton.mp inside
      exact allowed
    · intro values _ each other inside
      rcases List.mem_append.mp inside with old | inside
      · exact each other old
      · obtain rfl := List.mem_singleton.mp inside
        exact allowed

theorem gathered_filtersOf (of : PartsOf runtime contents parts) : Gathered (filtersOf parts) := by
  refine filtersOf_induction of ⟨List.forall_mem_nil _, List.nodup_nil⟩ ?_
  exact fun content _ part filters parsed gathered => gathered.addTo parsed

/-- An accepted query has gathered its values, and its text is not empty. -/
theorem gathered_of_parseQuery {ast : QueryAst} (accepted : parseQuery runtime input = .ok ast) :
    Gathered ast.filters ∧ ast.text ≠ some [] := by
  obtain ⟨contents, parts, -, of, filters, -, long⟩ := parseQuery_iff.mp accepted
  refine ⟨filters ▸ gathered_filtersOf of, fun empty => ?_⟩
  have two := long [] empty
  simp [minTextLength, countCodePoints] at two

end PrSearch.Query
