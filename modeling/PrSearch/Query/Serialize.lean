import Mathlib.Data.List.Forall2
import Mathlib.Data.List.Nodup
import PrSearch.Query.Parse

/-! # The serializer, and the way back

Filters first, each value a token of its own, and then the words of the text. Every filter is read
back as it was. The text is split at its blanks and its pieces are written again, quoted where they
would not come back otherwise; pieces that begin with a minus sign are never quoted.
-/
namespace PrSearch.Query

/-! ### Writing -/

def needsQuotes (value : Text) : Bool :=
  value = [] || value.any isSpace || value.contains '"' || value.contains '\\' ||
    value.contains ':' || value.head? = some '-'

/-- `text.replace(/c/g, by)` -/
def replaceAll (c : Char) (by_ : Text) (text : Text) : Text :=
  text.flatMap fun other => if other = c then by_ else [other]

def quote (value : Text) : Text :=
  '"' :: (replaceAll '"' ['\\', '"'] (replaceAll '\\' ['\\', '\\'] value) ++ ['"'])

def renderValue (value : Text) : Text := if needsQuotes value then quote value else value

def sign (negated : Bool) : Text := if negated then ['-'] else []

/-- `String(n)` -/
def renderNumber (n : Int) : Text := (toString n).toList

def renderRange (lower upper : Text) (timezone : Option Text) : Text :=
  lower ++ ['.', '.'] ++ upper ++ timezone.elim [] fun zone => '@' :: zone

def renderFilter : QueryFilter → List Text
  | .equality key negated values =>
      values.map fun value => sign negated ++ key.text ++ ':' :: renderValue value
  | .numeric key negated lower upper =>
      [sign negated ++ key.text ++ ':' :: renderRange (renderNumber lower) (renderNumber upper) none]
  | .temporal key negated lower upper timezone =>
      [sign negated ++ key.text ++ ':' :: renderRange lower upper timezone]

/-- One piece of a text. -/
def renderTerm (term : Text) : Text :=
  if needsQuotes term && term.head? != some '-' then quote term else term

def renderText (text : Text) : List Text :=
  ((text.splitOn ' ').filter fun term => term ≠ []).map renderTerm

def serializeQuery (ast : QueryAst) : Text :=
  [' '].intercalate (ast.filters.flatMap renderFilter ++ ast.text.elim [] renderText)

/-! ### Reading pieces back -/

/-- Nothing follows, or a blank. -/
def Ends (tail : Text) : Prop := ∀ c ∈ tail.head?, c = ' '

/-- The pieces, with a blank before each. -/
def spaced (pieces : List Text) : Text := pieces.flatMap fun piece => ' ' :: piece

theorem ends_spaced (pieces : List Text) : Ends (spaced pieces) := by
  cases pieces with
  | nil => intro c first; cases first
  | cons piece rest => intro c first; cases first; rfl

@[simp] theorem spaced_nil : spaced [] = [] := rfl

@[simp] theorem spaced_cons (piece : Text) (rest : List Text) :
    spaced (piece :: rest) = ' ' :: (piece ++ spaced rest) := rfl

@[simp] theorem spaced_append (pieces rest : List Text) :
    spaced (pieces ++ rest) = spaced pieces ++ spaced rest :=
  List.flatMap_append

variable {pieces : List Text} {content : Content} {key : Option Text} {c : Char} {n : Int}
  {lower upper : Text} {make : Text → Text → Except Blame QueryFilter}

theorem spaced_eq (some_ : pieces ≠ []) : spaced pieces = ' ' :: [' '].intercalate pieces := by
  induction pieces with
  | nil => exact absurd rfl some_
  | cons piece rest ih =>
    cases rest with
    | nil => simp
    | cons next rest =>
      rw [spaced_cons, ih (List.cons_ne_nil next rest), List.intercalate_cons_cons]
      simp

variable {contents : List Content} {tail value : Text} {negated : Bool} {filter : QueryFilter}
  {runtime : Runtime} {filters : List QueryFilter}

/-- Reading begins at the first character that is no space. -/
theorem reads_congr {a b : Text} (same : skipSpace a = skipSpace b) :
    Reads a contents ↔ Reads b contents := by
  by_cases empty : skipSpace a = []
  · rw [Reads.done_iff empty, Reads.done_iff (same ▸ empty)]
  · rw [Reads.more_iff empty, Reads.more_iff (same ▸ empty), same]

theorem skipSpace_blank (input : Text) : skipSpace (' ' :: input) = skipSpace input := rfl

theorem reads_intercalate (pieces : List Text) :
    Reads ([' '].intercalate pieces) contents ↔ Reads (spaced pieces) contents := by
  by_cases none_ : pieces = []
  · subst none_
    rfl
  · apply reads_congr
    rw [spaced_eq none_, skipSpace_blank]

/-- A piece that is read as one token, whatever follows after a blank. -/
structure Piece (piece : Text) (content : Content) : Prop where
  first : ∃ c rest, piece = c :: rest ∧ isSpace c = false
  read : ∀ tail, Ends tail → readToken (piece ++ tail) = some (content, tail)
  kept : content.Kept

theorem reads_piece {piece : Text} (is : Piece piece content) (ends : Ends tail) :
    Reads (' ' :: (piece ++ tail)) contents ↔
      ∃ behind, Reads tail behind ∧ content :: behind = contents := by
  obtain ⟨c, rest, rfl, visible⟩ := is.first
  have begins : skipSpace (' ' :: (c :: rest ++ tail)) = c :: rest ++ tail := by
    rw [skipSpace_blank]
    exact skipSpace_of_visible visible _
  have more : skipSpace (' ' :: (c :: rest ++ tail)) ≠ [] := by
    rw [begins]
    exact List.cons_ne_nil c _
  rw [Reads.more_iff more, begins, is.read tail ends]
  constructor
  · rintro ⟨_, _, behind, ⟨⟩, reads, rfl⟩
    exact ⟨behind, reads, (if_pos is.kept).symm⟩
  · rintro ⟨behind, reads, rfl⟩
    exact ⟨content, tail, behind, rfl, reads, if_pos is.kept⟩

/-- Pieces are read one after another. -/
theorem reads_pieces (are : List.Forall₂ Piece pieces contents) (ends : Ends tail)
    {all : List Content} :
    Reads (spaced pieces ++ tail) all ↔ ∃ behind, Reads tail behind ∧ contents ++ behind = all := by
  induction are generalizing all with
  | nil => simp
  | @cons piece content pieces contents is are ih =>
    have more : Ends (spaced pieces ++ tail) := by
      cases pieces with
      | nil => exact ends
      | cons next rest => intro c first; cases first; rfl
    rw [spaced_cons, List.cons_append, List.append_assoc, reads_piece is more]
    constructor
    · rintro ⟨_, reads, rfl⟩
      obtain ⟨behind, later, rfl⟩ := ih.mp reads
      exact ⟨behind, later, rfl⟩
    · rintro ⟨behind, reads, rfl⟩
      exact ⟨contents ++ behind, ih.mpr ⟨behind, reads, rfl⟩, rfl⟩

/-! ### Values -/

def escaped (value : Text) : Text :=
  replaceAll '"' ['\\', '"'] (replaceAll '\\' ['\\', '\\'] value)

theorem escaped_cons (c : Char) (value : Text) :
    escaped (c :: value) =
      (if c = '\\' then ['\\', '\\'] else if c = '"' then ['\\', '"'] else [c]) ++
        escaped value := by
  simp only [escaped, replaceAll, List.flatMap_cons]
  by_cases backslash : c = '\\'
  · simp [backslash]
  · by_cases mark : c = '"'
    · simp [mark]
    · simp [backslash, mark]

theorem readQuoted_escaped (value tail : Text) :
    readQuoted (escaped value ++ '"' :: tail) = some (value, tail) := by
  induction value with
  | nil => rfl
  | cons c rest ih =>
    rw [escaped_cons]
    by_cases backslash : c = '\\'
    · simp [backslash, readQuoted, ih]
    · by_cases mark : c = '"'
      · simp [mark, readQuoted, ih]
      · simp [backslash, mark, readQuoted, ih]

theorem quote_append (value tail : Text) :
    quote value ++ tail = '"' :: (escaped value ++ '"' :: tail) := by
  simp [quote, escaped]

theorem readValue_quote (negated : Bool) (key : Option Text) (value tail : Text) :
    readValue negated key (quote value ++ tail) = some (⟨negated, key, value, true⟩, tail) := by
  rw [quote_append, readValue, readQuoted_escaped]
  rfl

theorem isSpace_blank : isSpace ' ' = true := by decide

theorem readBare_append (solid : ∀ c ∈ value, isSpace c = false) (ends : Ends tail) :
    readBare (value ++ tail) = (value, tail) := by
  have all : ∀ c ∈ value, (!isSpace c) = true := fun c inside => by simp [solid c inside]
  simp only [readBare, List.takeWhile_append_of_pos all, List.dropWhile_append_of_pos all]
  cases tail with
  | nil => simp
  | cons c rest =>
    have blank : c = ' ' := ends c rfl
    simp [blank, isSpace_blank]

theorem unmarked_append (unmarked : value.head? ≠ some '"') (ends : Ends tail) :
    (value ++ tail).head? ≠ some '"' := by
  cases value with
  | nil =>
    intro first
    have blank : '"' = ' ' := ends '"' first
    revert blank
    decide
  | cons c rest => exact unmarked

theorem readValue_of_unmarked {input : Text} (unmarked : input.head? ≠ some '"') :
    readValue negated key input =
      some (⟨negated, key, (readBare input).1, false⟩, (readBare input).2) := by
  unfold readValue
  split
  · exact absurd rfl unmarked
  · rfl

theorem readValue_bare (solid : ∀ c ∈ value, isSpace c = false) (unmarked : value.head? ≠ some '"')
    (ends : Ends tail) :
    readValue negated key (value ++ tail) = some (⟨negated, key, value, false⟩, tail) := by
  rw [readValue_of_unmarked (unmarked_append unmarked ends), readBare_append solid ends]

theorem plain_of_needsQuotes (plain : needsQuotes value = false) :
    value ≠ [] ∧ (∀ c ∈ value, isSpace c = false) ∧ '"' ∉ value ∧ '\\' ∉ value ∧ ':' ∉ value ∧
      value.head? ≠ some '-' := by
  simp only [needsQuotes, Bool.or_eq_false_iff, decide_eq_false_iff_not, List.any_eq_false,
    List.contains_eq_mem, Bool.not_eq_true] at plain
  obtain ⟨⟨⟨⟨⟨some_, solid⟩, mark⟩, backslash⟩, colon⟩, minus⟩ := plain
  exact ⟨some_, solid, mark, backslash, colon, minus⟩

theorem readValue_renderValue (negated : Bool) (key : Option Text) (value : Text) (ends : Ends tail) :
    readValue negated key (renderValue value ++ tail) =
      some (⟨negated, key, value, needsQuotes value⟩, tail) := by
  unfold renderValue
  cases quotes : needsQuotes value with
  | true => exact readValue_quote negated key value tail
  | false =>
    obtain ⟨-, solid, mark, -⟩ := plain_of_needsQuotes quotes
    exact readValue_bare solid (fun first => mark (List.mem_of_mem_head? first)) ends

/-! ### Keys -/

theorem keyPattern_text (key : QueryKey) : keyPattern key.text = true := by
  rcases key with key | key | key <;> cases key <;> decide

theorem not_mem_of_keyPattern {key : Text} (isKey : keyPattern key = true)
    (other : c.isAlphanum = false) (score : c ≠ '_') : c ∉ key := by
  cases key with
  | nil => exact List.not_mem_nil
  | cons first rest =>
    simp only [keyPattern, Bool.and_eq_true, List.all_eq_true, Bool.or_eq_true, beq_iff_eq] at isKey
    intro inside
    rcases List.mem_cons.mp inside with rfl | later
    · have letter := isKey.1
      simp [Char.isAlphanum, letter] at other
    · rcases isKey.2 c later with letter | same
      · rw [other] at letter
        cases letter
      · exact score same

theorem readKey_of_keyPattern {key after : Text} (isKey : keyPattern key = true) :
    readKey (key ++ ':' :: after) = some (key, after) := by
  have noColon : ∀ c ∈ key, (c != ':') = true := by
    intro c inside
    have colon := not_mem_of_keyPattern (c := ':') isKey (by decide) (by decide)
    simpa using fun same : c = ':' => colon (same ▸ inside)
  have noMark : (key ++ ':' :: after).head? ≠ some '"' := by
    have mark := not_mem_of_keyPattern (c := '"') isKey (by decide) (by decide)
    cases key with
    | nil => cases isKey
    | cons first rest =>
      rintro ⟨⟩
      exact mark List.mem_cons_self
  simp only [readKey, if_neg noMark, List.takeWhile_append_of_pos noColon,
    List.dropWhile_append_of_pos noColon]
  simp [isKey]

-- A key does not reach over a blank, so what follows one does not change it.
theorem readKey_append {term : Text} (ends : Ends tail) :
    readKey (term ++ tail) = (readKey term).map fun (key, after) => (key, after ++ tail) := by
  by_cases marked : term.head? = some '"'
  · have still : (term ++ tail).head? = some '"' := by
      cases term with
      | nil => cases marked
      | cons c rest => exact marked
    simp only [readKey, if_pos marked, if_pos still, Option.map_none]
  · have unmarked := unmarked_append marked ends
    simp only [readKey, if_neg marked, if_neg unmarked]
    by_cases colon : ':' ∈ term
    · obtain ⟨key, after, rfl, first⟩ := List.eq_append_cons_of_mem colon
      have noColon : ∀ c ∈ key, (c != ':') = true := by
        intro c inside
        simpa using fun same : c = ':' => first (same ▸ inside)
      simp only [List.append_assoc, List.cons_append, List.takeWhile_append_of_pos noColon,
        List.dropWhile_append_of_pos noColon]
      cases isKey : keyPattern key <;> simp [isKey]
    · have noColon : ∀ c ∈ term, (c != ':') = true := by
        intro c inside
        simpa using fun same : c = ':' => colon (same ▸ inside)
      have none_ : term.dropWhile (fun c => c != ':') = [] := by
        have dropped : (term ++ []).dropWhile (fun c => c != ':') = [] :=
          List.dropWhile_append_of_pos noColon
        rwa [List.append_nil] at dropped
      simp only [List.takeWhile_append_of_pos noColon, List.dropWhile_append_of_pos noColon, none_,
        Option.map_none]
      cases tail with
      | nil => rfl
      | cons c rest =>
        obtain rfl : c = ' ' := ends c rfl
        split
        · rfl
        -- the colon found stands behind the blank
        · have blank : ' ' ∈ term ++ (' ' :: rest).takeWhile fun c => c != ':' := by
            simp
          cases isKey : keyPattern (term ++ (' ' :: rest).takeWhile fun c => c != ':') with
          | true => exact absurd blank (not_mem_of_keyPattern isKey (by decide) (by decide))
          | false => simp

/-- A token with a key is one piece. -/
theorem piece_keyed (key : QueryKey) (negated : Bool) {body : Text} {quoted : Bool}
    (reads : ∀ tail, Ends tail → readValue negated (some key.text) (body ++ tail) =
      some (⟨negated, some key.text, value, quoted⟩, tail)) :
    Piece (sign negated ++ key.text ++ ':' :: body) ⟨negated, some key.text, value, quoted⟩ := by
  have isKey := keyPattern_text key
  have body_read : ∀ tail, Ends tail → readBody negated (key.text ++ ':' :: (body ++ tail)) =
      some (⟨negated, some key.text, value, quoted⟩, tail) := by
    intro tail ends
    rw [readBody, readKey_of_keyPattern isKey]
    exact reads tail ends
  -- the name begins with a letter, so a minus sign before it is the sign of the token
  obtain ⟨c, rest, name, letter⟩ : ∃ c rest, key.text = c :: rest ∧ c.isAlpha = true := by
    cases named : key.text with
    | nil => rw [named] at isKey; cases isKey
    | cons c rest =>
      rw [named, keyPattern, Bool.and_eq_true] at isKey
      exact ⟨c, rest, rfl, isKey.1⟩
  cases negated with
  | true =>
    refine ⟨⟨'-', key.text ++ ':' :: body, rfl, by decide⟩, ?_, .inr (.inr rfl)⟩
    intro tail ends
    have read := body_read tail ends
    simpa [sign, readToken] using read
  | false =>
    refine ⟨⟨c, rest ++ ':' :: body, by simp [sign, name], ?_⟩, ?_, .inr (.inr rfl)⟩
    · exact isSpace_of_isAlphanum (by simp [Char.isAlphanum, letter])
    · intro tail ends
      have read := body_read tail ends
      rw [name] at read
      simp only [sign, name, List.append_assoc, List.cons_append, List.nil_append,
        Bool.false_eq_true, if_false] at read ⊢
      rw [readToken]
      · exact read
      · rintro body ⟨⟩
        cases letter

/-! ### Numbers -/

theorem isDigits_toDigits (n : Nat) : isDigits (Nat.toDigits 10 n) = true := by
  simp only [isDigits, Bool.and_eq_true, decide_eq_true_eq, List.all_eq_true]
  refine ⟨by simp [Nat.toDigits_ne_nil], ?_⟩
  intro c inside
  exact Nat.isDigit_of_mem_toDigits (by decide) (by decide) inside

theorem renderNumber_ofNat (n : Nat) : renderNumber (Int.ofNat n) = Nat.toDigits 10 n := by
  change (Int.repr (Int.ofNat n)).toList = Nat.toDigits 10 n
  rw [Int.repr]
  exact Nat.toList_repr

theorem renderNumber_negSucc (n : Nat) :
    renderNumber (Int.negSucc n) = '-' :: Nat.toDigits 10 (n + 1) := by
  simp [renderNumber, toString, Int.repr]

theorem mem_renderNumber (inside : c ∈ renderNumber n) : c.isDigit = true ∨ c = '-' := by
  cases n with
  | ofNat n =>
    rw [renderNumber_ofNat] at inside
    exact .inl (Nat.isDigit_of_mem_toDigits (by decide) (by decide) inside)
  | negSucc n =>
    rw [renderNumber_negSucc] at inside
    rcases List.mem_cons.mp inside with minus | digit
    · exact .inr minus
    · exact .inl (Nat.isDigit_of_mem_toDigits (by decide) (by decide) digit)

/-- The decimal text of a number is read back as the number. -/
theorem readInteger_renderNumber (n : Int) : readInteger (renderNumber n) = some n := by
  cases n with
  | ofNat n =>
    have digits := isDigits_toDigits n
    rw [renderNumber_ofNat]
    unfold readInteger
    split
    next rest minus =>
      rw [minus] at digits
      simp [isDigits] at digits
    next =>
      rw [if_pos digits, Nat.ofDigitChars_toDigits (by decide) (by decide)]
      rfl
  | negSucc n =>
    rw [renderNumber_negSucc]
    simp [readInteger, isDigits_toDigits, Int.negSucc_eq]

theorem renderNumber_ne_nil (n : Int) : renderNumber n ≠ [] := by
  intro empty
  have read := readInteger_renderNumber n
  rw [empty] at read
  cases read

theorem parseNumericBound_renderNumber (safe : isSafeInteger n = true) :
    parseNumericBound (renderNumber n) = .ok n := by
  rw [parseNumericBound, readInteger_renderNumber]
  simp [safe]

/-! ### Ranges -/

-- The first `..` is found again, whatever stands behind it.
theorem splitRange_of_split (split_ : splitRange value = some (lower, upper)) :
    value = lower ++ '.' :: '.' :: upper ∧
      ∀ other, splitRange (lower ++ '.' :: '.' :: other) = some (lower, other) := by
  induction value using splitRange.induct generalizing lower upper with
  | case1 => cases split_
  | case2 rest =>
    cases split_
    exact ⟨rfl, fun other => rfl⟩
  | case3 c rest noMark ih =>
    rw [splitRange] at split_
    · obtain ⟨⟨low, high⟩, found, same⟩ := Option.map_eq_some_iff.mp split_
      cases same
      obtain ⟨rfl, again⟩ := ih found
      refine ⟨rfl, fun other => ?_⟩
      rw [List.cons_append, splitRange, again other]
      · rfl
      · -- a mark that begins with `c` would have been the first one of the value
        intro tail dot second
        cases low with
        | nil => exact noMark _ dot rfl
        | cons d low =>
          obtain ⟨rfl, -⟩ := List.cons.inj second
          exact noMark _ dot rfl
    · assumption

theorem splitRange_of_not_mem (noDot : '.' ∉ lower) (upper : Text) :
    splitRange (lower ++ '.' :: '.' :: upper) = some (lower, upper) := by
  induction lower with
  | nil => rfl
  | cons c rest ih =>
    have other : c ≠ '.' := fun same => noDot (same ▸ List.mem_cons_self)
    rw [List.cons_append, splitRange, ih fun inside => noDot (List.mem_cons_of_mem c inside)]
    · rfl
    · intro tail dot
      exact absurd dot other

theorem not_mem_renderNumber (noDigit : c.isDigit = false) (other : c ≠ '-') :
    c ∉ renderNumber n := by
  intro inside
  rcases mem_renderNumber inside with digit | minus
  · rw [noDigit] at digit
    cases digit
  · exact other minus

theorem withBounds_of_split (found : splitRange content.value = some (lower, upper))
    (low : lower ≠ []) (high : upper ≠ []) : withBounds content make = some (make lower upper) := by
  rw [withBounds, found, Option.map_some]
  exact congrArg some (if_neg (not_or.mpr ⟨low, high⟩))

theorem withBounds_ok (made : withBounds content make = some (.ok filter)) :
    ∃ lower upper, splitRange content.value = some (lower, upper) ∧ lower ≠ [] ∧ upper ≠ [] ∧
      make lower upper = .ok filter := by
  obtain ⟨⟨lower, upper⟩, found, made⟩ := Option.map_eq_some_iff.mp made
  dsimp only at made
  split at made
  · cases made
  next some_ =>
    obtain ⟨low, high⟩ := not_or.mp some_
    exact ⟨lower, upper, found, low, high, made⟩

/-- A range of numbers is read back. -/
theorem toRange_numeric (runtime : Runtime) {key : NumericRangeKey} {lower upper : Int}
    (order : lower ≤ upper) (low : isSafeInteger lower = true) (high : isSafeInteger upper = true)
    (least : belowMinimum key lower = false) :
    toRange runtime (.numeric key) ⟨negated, some key.text,
      renderRange (renderNumber lower) (renderNumber upper) none, false⟩ =
        some (.ok (.numeric key negated lower upper)) := by
  have found : splitRange (renderRange (renderNumber lower) (renderNumber upper) none) =
      some (renderNumber lower, renderNumber upper) := by
    simp only [renderRange, Option.elim_none, List.append_nil, List.append_assoc, List.cons_append,
      List.nil_append]
    exact splitRange_of_not_mem (not_mem_renderNumber (by decide) (by decide)) _
  rw [toRange, if_neg Bool.false_ne_true,
    withBounds_of_split found (renderNumber_ne_nil lower) (renderNumber_ne_nil upper),
    toNumericFilter, parseNumericBound_renderNumber low, parseNumericBound_renderNumber high]
  simp [Except.bind, Int.not_lt.mpr order, least]

/-! ### Conditions that are read back -/

/-- A condition that the parser makes. A range of times is one whose text makes it again. -/
def WellFormed (runtime : Runtime) : QueryFilter → Prop
  | .equality key _ values =>
      values ≠ [] ∧ values.Nodup ∧ ∀ value ∈ values, value ≠ [] ∧
        checkEnumeratedValue key value = .ok ()
  | .numeric key _ lower upper =>
      lower ≤ upper ∧ isSafeInteger lower = true ∧ isSafeInteger upper = true ∧
        belowMinimum key lower = false
  | .temporal key negated lower upper timezone =>
      (∀ c ∈ renderRange lower upper timezone, isSpace c = false) ∧
        (renderRange lower upper timezone).head? ≠ some '"' ∧
          toRange runtime (.temporal key)
            ⟨negated, some key.text, renderRange lower upper timezone, false⟩ =
              some (.ok (.temporal key negated lower upper timezone))

/-- The key and the sign under which values gather. -/
def slot : QueryFilter → Option (EqualityKey × Bool)
  | .equality key negated _ => some (key, negated)
  | _ => none

/-- The conditions of a tree that the parser makes. -/
structure Lawful (runtime : Runtime) (filters : List QueryFilter) : Prop where
  wellFormed : ∀ filter ∈ filters, WellFormed runtime filter
  apart : (filters.filterMap slot).Nodup

/-- The contents of the pieces of a condition. -/
def contentsOf : QueryFilter → List Content
  | .equality key negated values =>
      values.map fun value => ⟨negated, some key.text, value, needsQuotes value⟩
  | .numeric key negated lower upper =>
      [⟨negated, some key.text, renderRange (renderNumber lower) (renderNumber upper) none, false⟩]
  | .temporal key negated lower upper timezone =>
      [⟨negated, some key.text, renderRange lower upper timezone, false⟩]

def partsOf : QueryFilter → List Part
  | .equality key negated values => values.map (Part.value key negated)
  | filter => [.range filter]

theorem renderRange_numbers_solid (lower upper : Int) :
    ∀ c ∈ renderRange (renderNumber lower) (renderNumber upper) none, isSpace c = false := by
  intro c inside
  simp only [renderRange, Option.elim_none, List.append_nil, List.append_assoc, List.mem_append,
    List.mem_cons, List.not_mem_nil, or_false] at inside
  have number : ∀ n : Int, c ∈ renderNumber n → isSpace c = false := by
    intro n digit
    rcases mem_renderNumber digit with digit | rfl
    · exact isSpace_of_isAlphanum (by simp [Char.isAlphanum, digit])
    · decide
  rcases inside with low | (dot | dot) | high
  · exact number lower low
  · exact dot ▸ by decide
  · exact dot ▸ by decide
  · exact number upper high

/-- The pieces of a condition are read as its contents. -/
theorem pieces_renderFilter (made : WellFormed runtime filter) :
    List.Forall₂ Piece (renderFilter filter) (contentsOf filter) := by
  cases filter with
  | equality key negated values =>
    simp only [renderFilter, contentsOf, List.forall₂_map_left_iff, List.forall₂_map_right_iff]
    exact List.forall₂_same.mpr fun value _ => piece_keyed (.equality key) negated
      fun tail ends => readValue_renderValue negated _ value ends
  | numeric key negated lower upper =>
    refine .cons (piece_keyed (.numeric key) negated fun tail ends => ?_) .nil
    apply readValue_bare (renderRange_numbers_solid lower upper) _ ends
    intro first
    cases number : renderNumber lower with
    | nil => exact renderNumber_ne_nil lower number
    | cons c rest =>
      have mark : c = '"' := by simpa [renderRange, number] using first
      have inside : c ∈ renderNumber lower := by simp [number]
      rw [mark] at inside
      exact not_mem_renderNumber (by decide) (by decide) inside
  | temporal key negated lower upper timezone =>
    refine .cons (piece_keyed (.temporal key) negated fun tail ends => ?_) .nil
    exact readValue_bare made.1 made.2.1 ends

/-- The contents of a condition add its parts. -/
theorem partsOf_contentsOf (made : WellFormed runtime filter) :
    PartsOf runtime (contentsOf filter) (partsOf filter) := by
  cases filter with
  | equality key negated values =>
    simp only [PartsOf, contentsOf, partsOf, List.forall₂_map_left_iff, List.forall₂_map_right_iff]
    apply List.forall₂_same.mpr
    intro value inside
    obtain ⟨some_, allowed⟩ := made.2.2 value inside
    have named := isQueryKey_text (.equality key)
    simp only [QueryKey.text] at named
    have scalar : toRange runtime (.equality key)
        ⟨negated, some key.text, value, needsQuotes value⟩ = none := by
      rw [toRange]
      split <;> rfl
    simp [parseContent, named, scalar, toScalar, some_, allowed, Except.map]
  | numeric key negated lower upper =>
    have named := isQueryKey_text (.numeric key)
    simp only [QueryKey.text] at named
    obtain ⟨order, low, high, least⟩ := made
    refine .cons ?_ .nil
    simp [parseContent, named, toRange_numeric runtime order low high least, Except.map]
  | temporal key negated lower upper timezone =>
    have named := isQueryKey_text (.temporal key)
    simp only [QueryKey.text] at named
    refine .cons ?_ .nil
    simp [parseContent, named, made.2.2, Except.map]

/-! ### Gathering values -/

theorem addValue_append {key : EqualityKey} {rest : List QueryFilter}
    (absent : (key, negated) ∉ filters.filterMap slot) :
    addValue key negated value (filters ++ rest) = filters ++ addValue key negated value rest := by
  induction filters with
  | nil => rfl
  | cons filter filters ih =>
    cases filter with
    | equality other sign values =>
      simp only [slot, List.filterMap_cons, List.mem_cons, not_or, Prod.mk.injEq] at absent
      have different : ¬ (other = key ∧ sign = negated) := fun same =>
        absent.1 ⟨same.1.symm, same.2.symm⟩
      simp only [List.cons_append, addValue, different, if_false, ih absent.2]
    | numeric | temporal =>
      simp only [slot, List.filterMap_cons] at absent
      simp only [List.cons_append, addValue, ih absent]

/-- Values that are all different gather in their order. -/
theorem gather_values (key : EqualityKey) (negated : Bool) {seen values : List Text}
    (apart : (seen ++ values).Nodup) :
    (values.map (Part.value key negated)).foldl Part.addTo [.equality key negated seen] =
      [.equality key negated (seen ++ values)] := by
  induction values generalizing seen with
  | nil => simp
  | cons value rest ih =>
    have new : value ∉ seen := fun inside =>
      (List.disjoint_of_nodup_append apart) inside List.mem_cons_self
    have next : (seen ++ [value] ++ rest).Nodup := by simpa using apart
    simp only [List.map_cons, List.foldl_cons, Part.addTo, addValue, and_self, if_true, new,
      if_false]
    rw [ih next]
    simp

/-- The parts of a condition make the condition again, behind those of other keys and signs. -/
theorem gather_filter (made : WellFormed runtime filter)
    (apart : ((filters ++ [filter]).filterMap slot).Nodup) :
    (partsOf filter).foldl Part.addTo filters = filters ++ [filter] := by
  cases filter with
  | equality key negated values =>
    have absent : (key, negated) ∉ filters.filterMap slot := by
      rw [List.filterMap_append] at apart
      exact fun inside => (List.disjoint_of_nodup_append apart) inside List.mem_cons_self
    -- every value finds the same place, behind the conditions that are there
    have behind : ∀ (parts : List Part) (rest : List QueryFilter),
        (∀ part ∈ parts, ∃ value, part = .value key negated value) →
          parts.foldl Part.addTo (filters ++ rest) =
            filters ++ parts.foldl Part.addTo rest := by
      intro parts
      induction parts with
      | nil => exact fun rest _ => rfl
      | cons part parts ih =>
        intro rest only
        obtain ⟨value, rfl⟩ := only part List.mem_cons_self
        rw [List.foldl_cons, List.foldl_cons, Part.addTo, addValue_append absent]
        exact ih _ fun other later => only other (List.mem_cons_of_mem _ later)
    cases values with
    | nil => exact absurd rfl made.1
    | cons value rest =>
      have gathered : (rest.map (Part.value key negated)).foldl Part.addTo
          [.equality key negated [value]] = [.equality key negated ([value] ++ rest)] :=
        gather_values key negated made.2.1
      have placed := behind (partsOf (.equality key negated (value :: rest))) [] fun part inside => by
        obtain ⟨value, -, rfl⟩ := List.mem_map.mp inside
        exact ⟨value, rfl⟩
      rw [List.append_nil] at placed
      rw [placed]
      exact congrArg (filters ++ ·) gathered
  | numeric | temporal => rfl

/-- The parts of all conditions make the conditions again. -/
theorem filtersOf_partsOf (lawful : Lawful runtime filters) :
    filtersOf (filters.flatMap partsOf) = filters := by
  have general : ∀ before : List QueryFilter, ((before ++ filters).filterMap slot).Nodup →
      (∀ filter ∈ filters, WellFormed runtime filter) →
        (filters.flatMap partsOf).foldl Part.addTo before = before ++ filters := by
    clear lawful
    induction filters with
    | nil => intro before _ _; simp
    | cons filter rest ih =>
      intro before apart made
      rw [← List.singleton_append, ← List.append_assoc] at apart
      have first : ((before ++ [filter]).filterMap slot).Nodup := by
        rw [List.filterMap_append] at apart
        exact apart.of_append_left
      rw [List.flatMap_cons, List.foldl_append,
        gather_filter (made filter List.mem_cons_self) first,
        ih (before ++ [filter]) apart fun other later => made other (List.mem_cons_of_mem _ later)]
      simp
  simpa [filtersOf] using general [] lawful.apart lawful.wellFormed

theorem wordsOf_partsOf (filters : List QueryFilter) : wordsOf (filters.flatMap partsOf) = [] := by
  induction filters with
  | nil => rfl
  | cons filter rest ih =>
    have none_ : wordsOf (partsOf filter) = [] := by
      cases filter <;> simp [wordsOf, partsOf, Part.words]
    rw [wordsOf, List.flatMap_cons, List.flatMap_append]
    exact List.append_eq_nil_iff.mpr ⟨none_, ih⟩

theorem pieces_filters (made : ∀ filter ∈ filters, WellFormed runtime filter) :
    List.Forall₂ Piece (filters.flatMap renderFilter) (filters.flatMap contentsOf) ∧
      PartsOf runtime (filters.flatMap contentsOf) (filters.flatMap partsOf) := by
  induction filters with
  | nil => exact ⟨.nil, .nil⟩
  | cons filter rest ih =>
    have first := made filter List.mem_cons_self
    obtain ⟨pieces, parts⟩ := ih fun other later => made other (List.mem_cons_of_mem _ later)
    simp only [List.flatMap_cons]
    exact ⟨List.rel_append (pieces_renderFilter first) pieces,
      List.rel_append (partsOf_contentsOf first) parts⟩

end PrSearch.Query
