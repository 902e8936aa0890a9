import PrSearch.Relation.ReferenceKeys
import PrSearch.Relation.ReferenceLines

/-! # What is extracted

Every target of an expression is well formed. The loop keeps the first occurrence of each key, in
order and up to the limit, and calls a key derived once one of its occurrences stands after the colon
of a trailer.
-/
namespace PrSearch.Relation.Reference

open Query (Text isDigits isHexDigit isHexText fullShaLength
  minShaPrefixLength Url newUrl)
open Lib.Double
open Pattern

/-! ### The targets of the expressions -/

/-- On the letters of ASCII it is the known one. -/
def LowersAscii (toLowerCase : Text → Text) : Prop :=
  ∀ text, (∀ c ∈ text, c.toNat < 128) → toLowerCase text = text.map Char.toLower

variable {c : Char} {rest value : Text} {slug source : RepoSlug} {before : Option Char}
  {resource : Resource} {target : ReferenceTarget}

theorem ascii_cases (property : Char → Prop) (all : ∀ n < 128, property (Char.ofNat n))
    (ascii : c.toNat < 128) : property c := by
  have is := all c.toNat ascii
  rwa [Char.ofNat_toNat] at is

theorem lt_of_isAlphanum (is : c.isAlphanum = true) : c.toNat < 128 := by
  delta Char.isAlphanum Char.isAlpha Char.isUpper Char.isLower Char.isDigit at is
  simp only [Bool.or_eq_true, Bool.and_eq_true, decide_eq_true_eq, UInt32.le_iff_toNat_le, ge_iff_le] at is
  change ((65 ≤ c.toNat ∧ c.toNat ≤ 90) ∨ (97 ≤ c.toNat ∧ c.toNat ≤ 122)) ∨
    (48 ≤ c.toNat ∧ c.toNat ≤ 57) at is
  omega

theorem lt_of_isSlugMore (is : isSlugMore c = true) : c.toNat < 128 := by
  rcases Bool.or_eq_true _ _ ▸ is with alnum | mark
  · exact lt_of_isAlphanum alnum
  · simp only [isSlugMark, Bool.or_eq_true, beq_iff_eq] at mark
    rcases mark with (rfl | rfl) | rfl <;> decide

theorem isKeyFirst_toLower (is : c.isAlphanum = true) : isKeyFirst c.toLower = true := by
  revert is
  by_cases ascii : c.toNat < 128
  · exact ascii_cases (fun c => c.isAlphanum = true → isKeyFirst c.toLower = true) (by decide) ascii
  · exact fun is => absurd (lt_of_isAlphanum is) ascii

theorem isKeyMore_toLower (is : isSlugMore c = true) : isKeyMore c.toLower = true := by
  revert is
  by_cases ascii : c.toNat < 128
  · exact ascii_cases (fun c => isSlugMore c = true → isKeyMore c.toLower = true) (by decide) ascii
  · exact fun is => absurd (lt_of_isSlugMore is) ascii

/-- A segment of a slug, as it is written -/
def SlugSegment (text : Text) : Prop :=
  ∃ first rest, text = first :: rest ∧ first.isAlphanum = true ∧ ∀ c ∈ rest, isSlugMore c = true

theorem of_segment {first more : Char → Bool} {text taken : Text}
    (matched : segment first more text = some (taken, rest)) :
    ∃ head tail, taken = head :: tail ∧ first head = true ∧ ∀ c ∈ tail, more c = true := by
  cases text with
  | nil => simp [segment] at matched
  | cons c text =>
    rw [segment] at matched
    split at matched
    next isFirst =>
      obtain ⟨rfl, _⟩ := Prod.mk.inj (Option.some.inj matched)
      exact ⟨c, text.takeWhile more, rfl, isFirst, fun d inside => List.mem_takeWhile_imp inside⟩
    next => exact absurd matched.symm (Option.some_ne_none _)

variable {absoluteUrl : Text → Option Url} {toLowerCase : Text → Text}

theorem keySegment_toLowerCase (ascii : LowersAscii toLowerCase) {text : Text}
    (form : SlugSegment text) : KeySegment (toLowerCase text) := by
  obtain ⟨first, rest, rfl, isFirst, areMore⟩ := form
  have low : ∀ c ∈ first :: rest, c.toNat < 128 := by
    intro c inside
    rcases List.mem_cons.mp inside with rfl | later
    · exact lt_of_isAlphanum isFirst
    · exact lt_of_isSlugMore (areMore c later)
  rw [ascii _ low]
  refine ⟨first.toLower, rest.map Char.toLower, rfl, isKeyFirst_toLower isFirst, fun c inside => ?_⟩
  obtain ⟨d, member, rfl⟩ := List.mem_map.mp inside
  exact isKeyMore_toLower (areMore d member)

theorem wellFormed_scopeOf (ascii : LowersAscii toLowerCase) (owner : SlugSegment slug.owner)
    (name : SlugSegment slug.name) :
    ∀ scope ∈ scopeOf toLowerCase slug source, scope.WellFormed := by
  intro scope is
  simp only [scopeOf] at is
  split at is
  next => exact absurd is (Option.not_mem_none _)
  next =>
    cases Option.some.inj is
    exact ⟨keySegment_toLowerCase ascii owner, keySegment_toLowerCase ascii name⟩

theorem isHexDigit_of_isHex (hex : isHex c = true) : isHexDigit c = true := hex

theorem isHexText_toLower {text : Text} (some : text ≠ [])
    (hex : ∀ c ∈ text, isHex c.toLower = true) : isHexText (text.map Char.toLower) = true := by
  simp only [isHexText, Bool.and_eq_true, decide_eq_true_eq, List.all_eq_true]
  refine ⟨by simpa using some, fun c inside => ?_⟩
  obtain ⟨d, member, rfl⟩ := List.mem_map.mp inside
  exact isHexDigit_of_isHex (hex d member)

theorem lt_of_isHex (hex : isHex c.toLower = true) : c.toNat < 128 := by
  simp only [isHex, Bool.or_eq_true, Bool.and_eq_true, decide_eq_true_eq, Char.le_def,
    UInt32.le_iff_toNat_le] at hex
  by_contra large
  have same : c.toLower = c := by
    refine dif_neg fun upper => large ?_
    have bound := UInt32.le_iff_toNat_le.mp upper.2
    exact Nat.lt_of_le_of_lt bound (by decide)
  rw [same] at hex
  have values : '9'.val.toNat = 57 ∧ 'f'.val.toNat = 102 := by decide
  change ¬ c.val.toNat < 128 at large
  omega

theorem size_of_isHex (hex : isHex c.toLower = true) : size c = 1 := by
  have small := lt_of_isHex hex
  exact if_pos (by omega)

theorem sizeOf_of_isHex {text : Text} (hex : ∀ c ∈ text, isHex c.toLower = true) :
    Pattern.sizeOf text = text.length := by
  rw [Pattern.sizeOf, List.map_congr_left fun c inside => size_of_isHex (hex c inside)]
  simp

/-- What is captured by a pattern for the names of commits -/
theorem sized_of_matchAt {pattern : Pattern} {text found : Text}
    (hex : pattern.group.accepts = fun c => isHex c.toLower) (some : 0 < pattern.group.atLeast)
    (matched : pattern.matchAt before text = .some (found, rest)) :
    isHexText (found.map Char.toLower) = true ∧ pattern.group.atLeast ≤ found.length ∧
      ∀ most ∈ pattern.group.atMost, found.length ≤ most := by
  have digits := (of_matchAt matched).2
  rw [hex] at digits
  have bounds := bounds_of_matchAt matched
  rw [sizeOf_of_isHex digits] at bounds
  refine ⟨isHexText_toLower (fun empty => ?_) digits, bounds⟩
  rw [empty] at bounds
  exact absurd bounds.1 (Nat.not_le.mpr some)

/-- The groups of a match, as the alternatives allow them. -/
def ScanMatch.WellFormed : ScanMatch → Prop
  | .url _ => True
  | .cross owner name _ => SlugSegment owner ∧ SlugSegment name
  | .number _ => True
  | .full sha => isHexText (sha.map Char.toLower) = true ∧ sha.length = fullShaLength
  | .abbrev_ start => isHexText (start.map Char.toLower) = true ∧
      minShaPrefixLength ≤ start.length ∧ start.length ≤ maxReferenceShaPrefixLength

theorem wellFormed_matchCross {text : Text} {found : ScanMatch}
    (matched : matchCross text = some (found, rest)) : found.WellFormed := by
  simp only [matchCross, Option.bind_eq_bind, Option.bind_eq_some_iff] at matched
  obtain ⟨⟨owner, _⟩, owned, _, _, ⟨name, _⟩, named_, _, _, ⟨digits, _⟩, _, is⟩ := matched
  obtain ⟨rfl, _⟩ := Prod.mk.inj (Option.some.inj is)
  exact ⟨of_segment owned, of_segment named_⟩

theorem of_orElse {α : Type*} {left right : Option α} {x : α} (is : (left <|> right) = some x) :
    left = some x ∨ right = some x := by
  cases left with
  | none => exact .inr is
  | some y => exact .inl is

theorem wellFormed_scanAt {text : Text} {found : ScanMatch}
    (matched : scanAt before text = some (found, rest)) : found.WellFormed := by
  rcases of_orElse matched with url | matched
  · obtain ⟨_, _, is⟩ := Option.map_eq_some_iff.mp url
    cases is
    trivial
  rcases of_orElse matched with cross | matched
  · exact wellFormed_matchCross cross
  rcases of_orElse matched with number | matched
  · obtain ⟨_, _, is⟩ := Option.map_eq_some_iff.mp number
    cases is
    trivial
  rcases of_orElse matched with full | short
  · obtain ⟨⟨sha, _⟩, holds, is⟩ := Option.map_eq_some_iff.mp full
    cases is
    obtain ⟨hex, least, most⟩ := sized_of_matchAt rfl (by decide) holds
    exact ⟨hex, Nat.le_antisymm (most 40 rfl) least⟩
  · obtain ⟨⟨start, _⟩, holds, is⟩ := Option.map_eq_some_iff.mp short
    cases is
    obtain ⟨hex, least, most⟩ := sized_of_matchAt rfl (by decide) holds
    exact ⟨hex, least, most maxReferenceShaPrefixLength rfl⟩

theorem wellFormed_matchPath {path : Text} (matched : matchPath path = some (slug, resource, value)) :
    SlugSegment slug.owner ∧ SlugSegment slug.name := by
  simp only [matchPath, Option.bind_eq_bind, Option.bind_eq_some_iff] at matched
  obtain ⟨_, _, ⟨owner, _⟩, owned, _, _, ⟨name, _⟩, named_, _, _, _, _, _, _, _, _, is⟩ := matched
  split at is
  next =>
    cases is
    exact ⟨of_segment owned, of_segment named_⟩
  next => exact absurd is.symm (Option.some_ne_none _)

theorem sized_pathTarget {repo : Option RepoSlug}
    (is : pathTarget repo value resource = some target) : target.repo = repo ∧ target.Sized := by
  cases resource with
  | pull =>
    rw [pathTarget] at is
    split at is
    next =>
      cases is
      exact ⟨rfl, trivial⟩
    next => exact absurd is.symm (Option.some_ne_none _)
  | commit =>
    rw [pathTarget] at is
    split at is
    next full =>
      cases is
      exact ⟨rfl, full⟩
    next =>
      split at is
      next short =>
        cases is
        exact ⟨rfl, short⟩
      next => exact absurd is.symm (Option.some_ne_none _)

/-- Every target is well formed. -/
theorem wellFormed_toTarget (ascii : LowersAscii toLowerCase) {host : Option Text}
    {found : ScanMatch} (form : found.WellFormed)
    (is : toTarget absoluteUrl toLowerCase source host found = some target) :
    target.WellFormed := by
  cases found with
  | url raw =>
    rw [toTarget] at is
    unfold fromUrl at is
    split at is
    · exact absurd is.symm (Option.some_ne_none _)
    split at is
    · exact absurd is.symm (Option.some_ne_none _)
    split at is
    · exact absurd is.symm (Option.some_ne_none _)
    obtain ⟨⟨slug, resource, value⟩, path, made⟩ := Option.bind_eq_some_iff.mp is
    obtain ⟨owner, name⟩ := wellFormed_matchPath path
    obtain ⟨repo, sized⟩ := sized_pathTarget made
    exact ⟨repo ▸ wellFormed_scopeOf ascii owner name, sized⟩
  | cross owner name digits =>
    cases is
    exact ⟨wellFormed_scopeOf ascii form.1 form.2, trivial⟩
  | number digits =>
    cases is
    exact ⟨fun _ inside => absurd inside (Option.not_mem_none _), trivial⟩
  | full sha =>
    cases is
    refine ⟨fun _ inside => absurd inside (Option.not_mem_none _), form.1, ?_⟩
    rw [List.length_map]
    exact form.2
  | abbrev_ start =>
    cases is
    refine ⟨fun _ inside => absurd inside (Option.not_mem_none _), form.1, ?_⟩
    rw [List.length_map]
    exact form.2

theorem wellFormed_occurrence (ascii : LowersAscii toLowerCase) {masked : Text}
    {options : ExtractOptions} {occurrence : Occurrence}
    (member : occurrence ∈ occurrences absoluteUrl toLowerCase masked options) :
    occurrence.2.WellFormed := by
  obtain ⟨found, scanned, is⟩ := List.mem_filterMap.mp member
  obtain ⟨target, made, rfl⟩ := Option.map_eq_some_iff.mp is
  obtain ⟨_, _, _, _, _, _, _, holds⟩ := of_mem_scanFrom scanned
  exact wellFormed_toTarget ascii (wellFormed_scanAt holds) made

/-! ### The loop -/

section Loop

variable {text : Text} {lines : List LineSpan} {limit : Nat} {found : List ExtractedReference}
  {done : List Occurrence} {occurrence : Occurrence}

def Occurrence.key (occurrence : Occurrence) : Text := referenceKey occurrence.2

/-- The first occurrence of each key, up to the limit -/
def firstOnes (limit : Nat) (done : List Occurrence) : List Occurrence :=
  (Rows.firsts Occurrence.key done).take limit

/-- What is found after some occurrences. -/
structure Recorded (lines : List LineSpan) (limit : Nat) (done : List Occurrence)
    (found : List ExtractedReference) : Prop where
  entries : found.map (fun entry => (entry.referenceKey, entry.target)) =
    (firstOnes limit done).map fun occurrence => (occurrence.key, occurrence.2)
  derived : ∀ entry ∈ found, entry.confidence = .derived ↔
    ∃ occurrence ∈ done, occurrence.key = entry.referenceKey ∧ inTrailer lines occurrence.1 = true

theorem Recorded.keys (recorded : Recorded lines limit done found) :
    found.map ExtractedReference.referenceKey = (firstOnes limit done).map Occurrence.key := by
  have first := congrArg (List.map Prod.fst) recorded.entries
  rwa [List.map_map, List.map_map] at first

theorem nodup_firstOnes : ((firstOnes limit done).map Occurrence.key).Nodup := by
  have nodup : ((Rows.firsts Occurrence.key done).map Occurrence.key).Nodup := Rows.nodup_firsts
  rw [firstOnes, List.map_take]
  exact nodup.sublist (List.take_sublist _ _)

theorem Recorded.nodup (recorded : Recorded lines limit done found) :
    (found.map ExtractedReference.referenceKey).Nodup := by
  rw [recorded.keys]
  exact nodup_firstOnes

theorem Recorded.length (recorded : Recorded lines limit done found) :
    found.length = min limit (Rows.firsts Occurrence.key done).length := by
  have lengths := congrArg List.length recorded.keys
  simpa [firstOnes] using lengths

theorem recorded_nil : Recorded lines limit [] [] := by
  refine ⟨?_, List.forall_mem_nil _⟩
  simp [firstOnes, Rows.firsts, Rows.firstsAfter]

-- A key that is not among the kept ones is a new one, unless the limit is reached.
theorem Recorded.mem_keys (recorded : Recorded lines limit done found)
    (room : ¬ limit ≤ found.length) (key : Text) :
    key ∈ found.map ExtractedReference.referenceKey ↔ key ∈ done.map Occurrence.key := by
  have all : firstOnes limit done = Rows.firsts Occurrence.key done := by
    refine List.take_of_length_le ?_
    have length := recorded.length
    omega
  rw [recorded.keys, all, Rows.mem_map_firsts]

theorem firstOnes_concat_old (old : occurrence.key ∈ done.map Occurrence.key) :
    firstOnes limit (done ++ [occurrence]) = firstOnes limit done := by
  rw [firstOnes, Rows.firsts_concat, if_pos old, firstOnes]

theorem firstOnes_concat_new (new : occurrence.key ∉ done.map Occurrence.key) :
    firstOnes limit (done ++ [occurrence]) =
      (Rows.firsts Occurrence.key done ++ [occurrence]).take limit := by
  rw [firstOnes, Rows.firsts_concat, if_neg new]

-- When the limit is reached, another key changes nothing.
theorem firstOnes_concat_full (full : limit ≤ (Rows.firsts Occurrence.key done).length) :
    firstOnes limit (done ++ [occurrence]) = firstOnes limit done := by
  by_cases old : occurrence.key ∈ done.map Occurrence.key
  · exact firstOnes_concat_old old
  · rw [firstOnes_concat_new old, List.take_append_of_le_length full, firstOnes]

/-- Another occurrence of other keys leaves the confidence of an entry. -/
theorem exists_concat_iff {key : Text} (other : occurrence.key ≠ key) :
    (∃ one ∈ done ++ [occurrence], one.key = key ∧ inTrailer lines one.1 = true) ↔
      ∃ one ∈ done, one.key = key ∧ inTrailer lines one.1 = true := by
  constructor
  · rintro ⟨one, inside, same, holds⟩
    rcases List.mem_append.mp inside with old | new
    · exact ⟨one, old, same, holds⟩
    · rw [List.mem_singleton.mp new] at same
      exact absurd same other
  · rintro ⟨one, inside, holds⟩
    exact ⟨one, List.mem_append_left _ inside, holds⟩

theorem record_new (absent : (found.find? fun entry => entry.referenceKey = occurrence.key) = none) :
    record text lines limit found occurrence =
      if limit ≤ found.length then found
      else found ++ [⟨occurrence.key, occurrence.2,
        if inTrailer lines occurrence.1 then .derived else .heuristic,
        evidenceAt text lines occurrence.1⟩] := by
  unfold Occurrence.key at absent
  simp only [record, absent]
  rfl

theorem record_old {existing : ExtractedReference}
    (present : (found.find? fun entry => entry.referenceKey = occurrence.key) = some existing) :
    record text lines limit found occurrence =
      if existing.confidence = .heuristic ∧ inTrailer lines occurrence.1 = true then
        found.map fun entry =>
          if entry.referenceKey = occurrence.key then
            { existing with
              confidence := .derived
              evidence := evidenceAt text lines occurrence.1 }
          else entry
      else found := by
  unfold Occurrence.key at present
  simp only [record, present]
  cases inTrailer lines occurrence.1 with
  | false => simp
  | true =>
    simp only [if_true, and_true]
    rfl

/-- One round of the loop -/
theorem Recorded.record (recorded : Recorded lines limit done found) (occurrence : Occurrence) :
    Recorded lines limit (done ++ [occurrence]) (record text lines limit found occurrence) := by
  cases present : found.find? fun entry => entry.referenceKey = occurrence.key with
  | none =>
    have absent : occurrence.key ∉ found.map ExtractedReference.referenceKey := by
      intro inside
      obtain ⟨entry, member, same⟩ := List.mem_map.mp inside
      simpa [same] using List.find?_eq_none.mp present entry member
    have other : ∀ entry ∈ found, occurrence.key ≠ entry.referenceKey :=
      fun entry member same => absent (List.mem_map.mpr ⟨entry, member, same.symm⟩)
    rw [record_new present]
    split
    next full =>
      -- the reference is left out
      refine ⟨?_, fun entry member => ?_⟩
      · have length := recorded.length
        rw [firstOnes_concat_full (by omega)]
        exact recorded.entries
      · rw [exists_concat_iff (other entry member)]
        exact recorded.derived entry member
    next room =>
      have new : occurrence.key ∉ done.map Occurrence.key := by
        rwa [← recorded.mem_keys room]
      have length := recorded.length
      have all : firstOnes limit done = Rows.firsts Occurrence.key done :=
        List.take_of_length_le (by omega)
      refine ⟨?_, fun entry member => ?_⟩
      · rw [firstOnes_concat_new new, List.take_of_length_le (by simp; omega), List.map_append,
          List.map_append, ← all, recorded.entries]
        rfl
      · rcases List.mem_append.mp member with old | added
        · rw [exists_concat_iff (other entry old)]
          exact recorded.derived entry old
        · obtain rfl := List.mem_singleton.mp added
          -- the only occurrence of a new key is this one
          have alone : (∃ one ∈ done ++ [occurrence], one.key = occurrence.key ∧
              inTrailer lines one.1 = true) ↔ inTrailer lines occurrence.1 = true := by
            constructor
            · rintro ⟨one, inside, same, holds⟩
              rcases List.mem_append.mp inside with old | is
              · exact absurd (List.mem_map.mpr ⟨one, old, same⟩) new
              · rwa [List.mem_singleton.mp is] at holds
            · exact fun holds => ⟨occurrence, by simp, rfl, holds⟩
          change (if inTrailer lines occurrence.1 = true then ReferenceConfidence.derived
            else .heuristic) = .derived ↔ _
          rw [alone]
          split <;> simp [*]
  | some existing =>
    have member := List.mem_of_find?_eq_some present
    have same : existing.referenceKey = occurrence.key := by simpa using List.find?_some present
    have old : occurrence.key ∈ done.map Occurrence.key := by
      have inside : occurrence.key ∈ found.map ExtractedReference.referenceKey :=
        List.mem_map.mpr ⟨existing, member, same⟩
      rw [recorded.keys] at inside
      obtain ⟨first, taken, is⟩ := List.mem_map.mp inside
      rw [← is]
      exact List.mem_map_of_mem (Rows.of_mem_firsts (List.mem_of_mem_take taken))
    have unique : ∀ entry ∈ found, entry.referenceKey = occurrence.key → entry = existing :=
      fun entry inside is => List.inj_on_of_nodup_map recorded.nodup inside member (is.trans same.symm)
    have stronger : (∃ one ∈ done ++ [occurrence], one.key = occurrence.key ∧
        inTrailer lines one.1 = true) ↔
          existing.confidence = .derived ∨ inTrailer lines occurrence.1 = true := by
      rw [recorded.derived existing member, same]
      constructor
      · rintro ⟨one, inside, is, holds⟩
        rcases List.mem_append.mp inside with earlier | now
        · exact .inl ⟨one, earlier, is, holds⟩
        · exact .inr (List.mem_singleton.mp now ▸ holds)
      · rintro (⟨one, inside, is, holds⟩ | holds)
        · exact ⟨one, List.mem_append_left _ inside, is, holds⟩
        · exact ⟨occurrence, by simp, rfl, holds⟩
    rw [record_old present]
    split
    next raised =>
      refine ⟨?_, fun entry inside => ?_⟩
      · rw [firstOnes_concat_old old, ← recorded.entries, List.map_map]
        refine List.map_congr_left fun entry inside => ?_
        by_cases is : entry.referenceKey = occurrence.key
        · obtain rfl := unique entry inside is
          simp [is]
        · simp [is]
      · obtain ⟨before, earlier, rfl⟩ := List.mem_map.mp inside
        by_cases is : before.referenceKey = occurrence.key
        · simp only [if_pos is, same, stronger, raised.2, or_true]
        · simp only [if_neg is]
          rw [exists_concat_iff (Ne.symm is)]
          exact recorded.derived before earlier
    next kept =>
      refine ⟨by rw [firstOnes_concat_old old, recorded.entries], fun entry inside => ?_⟩
      by_cases is : entry.referenceKey = occurrence.key
      · obtain rfl := unique entry inside is
        rw [is, stronger]
        -- the confidence is derived already, or the occurrence is none of a trailer
        cases confidence : entry.confidence with
        | derived => simp
        | heuristic => simpa [confidence] using kept
      · rw [exists_concat_iff (Ne.symm is)]
        exact recorded.derived entry inside

theorem recorded_foldl (text : Text) (lines : List LineSpan) (limit : Nat)
    (done : List Occurrence) :
    Recorded lines limit done (done.foldl (Reference.record text lines limit) []) := by
  induction done using List.reverseRecOn with
  | nil => exact recorded_nil
  | append_singleton done occurrence ih =>
    rw [List.foldl_append]
    exact ih.record occurrence

end Loop

/-! ### The references of a text -/

section Extracted

variable (absoluteUrl : Text → Option Url) (toLowerCase : Text → Text) (text : Text)
  (options : ExtractOptions)

/-- What the references of a text are to be. -/
structure Lawful : Prop where
  roundTrip : ∀ entry ∈ extractReferences absoluteUrl toLowerCase text options,
    entry.referenceKey = referenceKey entry.target ∧
      parseReferenceKey entry.referenceKey = some entry.target
  distinct : ((extractReferences absoluteUrl toLowerCase text options).map
    ExtractedReference.referenceKey).Nodup
  ordered : (extractReferences absoluteUrl toLowerCase text options).map
      ExtractedReference.referenceKey =
    ((Rows.firsts Occurrence.key (occurrences absoluteUrl toLowerCase (maskExcluded text)
      options)).map Occurrence.key).take options.limit
  limited : (extractReferences absoluteUrl toLowerCase text options).length ≤ options.limit
  derived : ∀ entry ∈ extractReferences absoluteUrl toLowerCase text options,
    entry.confidence = .derived ↔
      ∃ occurrence ∈ occurrences absoluteUrl toLowerCase (maskExcluded text) options,
        occurrence.key = entry.referenceKey ∧ AfterColon (maskExcluded text) occurrence.1
  commits : ∀ entry ∈ extractReferences absoluteUrl toLowerCase text options,
    ∀ sha repo, IsSha sha → (entry.referenceKey ∈ commitReferenceKeys sha repo ↔
      entry.target.repo = repo ∧ entry.target.DenotesCommit sha)
  pullRequests : ∀ entry ∈ extractReferences absoluteUrl toLowerCase text options,
    ∀ prNumber repo, entry.referenceKey ∈ pullRequestReferenceKeys prNumber repo ↔
      entry.target.repo = repo ∧ entry.target.DenotesPullRequest prNumber

variable {absoluteUrl toLowerCase text options}

theorem recorded_extractReferences : Recorded (lineIndex (maskExcluded text)) options.limit
    (occurrences absoluteUrl toLowerCase (maskExcluded text) options)
    (extractReferences absoluteUrl toLowerCase text options) :=
  recorded_foldl _ _ _ _

/-- An entry has the target of the first occurrence of its key. -/
theorem occurrence_of_entry {entry : ExtractedReference}
    (member : entry ∈ extractReferences absoluteUrl toLowerCase text options) :
    ∃ occurrence ∈ firstOnes options.limit (occurrences absoluteUrl toLowerCase
      (maskExcluded text) options), entry.referenceKey = occurrence.key ∧
        entry.target = occurrence.2 := by
  have inside : (entry.referenceKey, entry.target) ∈
      (extractReferences absoluteUrl toLowerCase text options).map
        fun entry => (entry.referenceKey, entry.target) :=
    List.mem_map.mpr ⟨entry, member, rfl⟩
  rw [recorded_extractReferences.entries] at inside
  obtain ⟨occurrence, first, is⟩ := List.mem_map.mp inside
  obtain ⟨key, target⟩ := Prod.mk.inj is
  exact ⟨occurrence, first, key.symm, target.symm⟩

theorem entry_of_occurrence {occurrence : Occurrence}
    (first : occurrence ∈ firstOnes options.limit (occurrences absoluteUrl toLowerCase
      (maskExcluded text) options)) :
    ∃ entry ∈ extractReferences absoluteUrl toLowerCase text options,
      entry.referenceKey = occurrence.key ∧ entry.target = occurrence.2 := by
  have inside : (occurrence.key, occurrence.2) ∈
      (firstOnes options.limit (occurrences absoluteUrl toLowerCase (maskExcluded text)
        options)).map fun occurrence => (occurrence.key, occurrence.2) :=
    List.mem_map.mpr ⟨occurrence, first, rfl⟩
  rw [← recorded_extractReferences.entries] at inside
  obtain ⟨entry, member, is⟩ := List.mem_map.mp inside
  obtain ⟨key, target⟩ := Prod.mk.inj is
  exact ⟨entry, member, key, target⟩

theorem wellFormed_first (ascii : LowersAscii toLowerCase) {occurrence : Occurrence}
    (first : occurrence ∈ firstOnes options.limit (occurrences absoluteUrl toLowerCase
      (maskExcluded text) options)) : occurrence.2.WellFormed :=
  wellFormed_occurrence ascii (Rows.of_mem_firsts (List.mem_of_mem_take first))

/-- The references of a text are lawful exactly when the pull requests among the first of them, up to
the limit, have numbers below `10 ^ 21`: greater ones are written with an exponent in a key, and no key
with an exponent is read. -/
theorem extractReferences_lawful_iff (absoluteUrl : Text → Option Url) (toLowerCase : Text → Text)
    (ascii : LowersAscii toLowerCase) (text : Text) (options : ExtractOptions) :
    Lawful absoluteUrl toLowerCase text options ↔
      ∀ occurrence ∈ (Rows.firsts Occurrence.key (occurrences absoluteUrl toLowerCase
        (maskExcluded text) options)).take options.limit, occurrence.2.Plain := by
  have recorded : Recorded _ _ _ (extractReferences absoluteUrl toLowerCase text options) :=
    recorded_extractReferences
  constructor
  · intro lawful occurrence first
    obtain ⟨entry, member, key, target⟩ := entry_of_occurrence first
    have read := (lawful.roundTrip entry member).2
    rw [key, target] at read
    exact (parseReferenceKey_iff (wellFormed_first ascii first)).mp read
  · intro plain
    refine ⟨fun entry member => ?_, recorded.nodup, ?_, ?_, fun entry member => ?_,
      fun entry member sha repo is => ?_, fun entry member prNumber repo => ?_⟩
    · obtain ⟨occurrence, first, key, target⟩ := occurrence_of_entry member
      rw [key, target]
      exact ⟨rfl, (parseReferenceKey_iff (wellFormed_first ascii first)).mpr (plain occurrence first)⟩
    · rw [recorded.keys, firstOnes, List.map_take]
    · rw [recorded.length]
      exact Nat.min_le_left _ _
    · simp only [recorded.derived entry member, inTrailer_iff]
    · obtain ⟨occurrence, first, key, target⟩ := occurrence_of_entry member
      rw [key, target]
      exact mem_commitReferenceKeys (wellFormed_first ascii first) is repo
    · obtain ⟨occurrence, first, key, target⟩ := occurrence_of_entry member
      rw [key, target]
      exact mem_pullRequestReferenceKeys (wellFormed_first ascii first) prNumber repo

/-- Lower case as far as ASCII goes. -/
def lowerAscii (text : Text) : Text := text.map Char.toLower

def acme : ExtractOptions where
  sourceRepo := ⟨"acme".toList, "app".toList⟩

/-- A small number is read from its key. -/
theorem extractReferences_lawful_small :
    Lawful (fun _ => none) lowerAscii "see #12 and acme/app#12".toList acme :=
  (extractReferences_lawful_iff (fun _ => none) lowerAscii (fun _ _ => rfl)
    "see #12 and acme/app#12".toList acme).mpr (by decide +kernel)

theorem huge_number_unread :
    ¬ Lawful (fun _ => none) lowerAscii "#1000000000000000000000".toList acme := by
  intro lawful
  have keys : (extractReferences (fun _ => none) lowerAscii "#1000000000000000000000".toList
      acme).map (fun entry => parseReferenceKey entry.referenceKey) = [none] := by
    decide +kernel
  have read := List.map_congr_left fun entry member => (lawful.roundTrip entry member).2
  rw [keys] at read
  have inside : none ∈ (extractReferences (fun _ => none) lowerAscii
      "#1000000000000000000000".toList acme).map fun entry => some entry.target :=
    read ▸ List.mem_singleton_self _
  obtain ⟨_, _, is⟩ := List.mem_map.mp inside
  exact Option.some_ne_none _ is

end Extracted

end PrSearch.Relation.Reference
