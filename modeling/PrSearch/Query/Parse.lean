import PrSearch.Query.Tokenizer

/-! # The parser

Every token becomes a word of the text, a range, or a value of an equality condition. Values of one
key and one sign gather in one condition, each once, at the place of the first. An error blames a
token, and only there does the place of the token matter.
-/
namespace PrSearch.Query

/-- `MIN_TEXT_LENGTH` -/
def minTextLength : Nat := 2

/-- A character is a code point. -/
def countCodePoints (value : Text) : Nat := value.length

/-- What the runtime of the language knows about times. -/
structure Runtime where
  /-- `Date.parse`, with `none` for `NaN` -/
  dateParse : Text → Option Int
  /-- The time zone that `Intl.DateTimeFormat` resolves a name to, if there is one. -/
  resolvedTimeZone : Text → Option Text

/-- An error before it knows the token to blame. -/
abbrev Blame := Text → Nat → Nat → QueryParseError

/-- A text with a value in it. -/
def around (before : String) (value : Text) (after : String) : Text :=
  before.toList ++ value ++ after.toList

/-! ### Numbers -/

/-- `Number.MAX_SAFE_INTEGER` -/
def maxSafeInteger : Int := 9007199254740991

def isSafeInteger (n : Int) : Bool := -maxSafeInteger ≤ n && n ≤ maxSafeInteger

def isDigits (text : Text) : Bool := text ≠ [] && text.all Char.isDigit

/-- The number that `/^-?\d+$/` admits. -/
def readInteger : Text → Option Int
  | '-' :: digits => if isDigits digits then some (-(Nat.ofDigitChars 10 digits 0 : Int)) else none
  | digits => if isDigits digits then some (Nat.ofDigitChars 10 digits 0 : Int) else none

def parseNumericBound (raw : Text) : Except Blame Int :=
  match readInteger raw with
  | none => .error (syntaxError (around "Range bound must be an integer: '" raw "'"))
  | some parsed =>
      if isSafeInteger parsed then .ok parsed
      else .error (syntaxError (around "Range bound is too large: '" raw "'"))

/-! ### Times -/

/-- The text has this shape, where `d` stands for a digit. -/
def fits : Text → Text → Bool
  | [], [] => true
  | p :: pattern, c :: text => (if p = 'd' then c.isDigit else p = c) && fits pattern text
  | _, _ => false

def datePattern : Text := "dddd-dd-dd".toList

/-- `DATE_ONLY` -/
def dateOnly (text : Text) : Bool := fits datePattern text

def secondPatterns : List Text :=
  ["".toList, ":dd".toList, ":dd.d".toList, ":dd.dd".toList, ":dd.ddd".toList]

def zonePatterns : List Text :=
  ["Z".toList, "+dd:dd".toList, "+dddd".toList, "-dd:dd".toList, "-dddd".toList]

/-- `DATE_TIME` -/
def dateTime (text : Text) : Bool :=
  ['T', ' '].any fun separator =>
    secondPatterns.any fun seconds =>
      ([] :: zonePatterns).any fun zone =>
        fits (datePattern ++ separator :: "dd:dd".toList ++ seconds ++ zone) text

def daysInMonth (year month : Nat) : Nat :=
  if month = 2 then
    if (year % 4 = 0 ∧ year % 100 ≠ 0) ∨ year % 400 = 0 then 29 else 28
  else if month = 4 ∨ month = 6 ∨ month = 9 ∨ month = 11 then 30
  else 31

/-- `Date.UTC` gives these parts back. It takes the years before 100 for those of the last
century. -/
def isCalendarDay (text : Text) : Bool :=
  let year := Nat.ofDigitChars 10 (text.take 4) 0
  let month := Nat.ofDigitChars 10 ((text.drop 5).take 2) 0
  let day := Nat.ofDigitChars 10 ((text.drop 8).take 2) 0
  100 ≤ year && 1 ≤ month && month ≤ 12 && 1 ≤ day && day ≤ daysInMonth year month

def checkTemporalBound (runtime : Runtime) (raw : Text) : Except Blame Text :=
  if !dateOnly raw && !dateTime raw then
    .error (syntaxError (around "Invalid date format: '" raw
      "' (for example: 2026-08-10 or 2026-08-10T05:02:11Z)"))
  else if !isCalendarDay raw || (runtime.dateParse raw).isNone then
    .error (syntaxError (around "Invalid calendar date: '" raw "'"))
  else .ok raw

/-- `bound.replace(' ', 'T')` -/
def replaceFirst (old new : Char) : Text → Text
  | [] => []
  | c :: rest => if c = old then new :: rest else c :: replaceFirst old new rest

/-- `/(Z|[+-]\d{2}:?\d{2})$/` -/
def hasOffset (text : Text) : Bool :=
  zonePatterns.any fun zone => fits zone (text.drop (text.length - zone.length))

/-- A time without an offset is read as UTC. -/
def instantOf (runtime : Runtime) (bound : Text) : Option Int :=
  if dateOnly bound then runtime.dateParse bound
  else
    let normalized := replaceFirst ' ' 'T' bound
    runtime.dateParse (if hasOffset normalized then normalized else normalized ++ ['Z'])

/-- `a > b` of numbers that may be `NaN` -/
def isAfter (a b : Option Int) : Bool :=
  match a, b with
  | some a, some b => b < a
  | _, _ => false

def isZoneChar (c : Char) : Bool := c.isAlphanum || c == '_' || c == '+' || c == '-'

/-- `ZONE_NAME` -/
def zoneName (name : Text) : Bool :=
  match name.splitOn '/' with
  | (first :: rest) :: segments =>
      first.isAlpha && rest.all isZoneChar && segments.all fun segment =>
        segment ≠ [] && segment.all isZoneChar
  | _ => false

def canonicalTimeZone (runtime : Runtime) (name : Text) : Option Text :=
  if zoneName name then runtime.resolvedTimeZone name else none

/-- A resolved name is a name of a time zone, and resolves to itself. -/
def Runtime.Canonical (runtime : Runtime) : Prop :=
  ∀ zone name, zoneName zone = true → runtime.resolvedTimeZone zone = some name →
    zoneName name = true ∧ runtime.resolvedTimeZone name = some name

/-! ### Ranges -/

/-- What stands before the first `..` and what stands after it. -/
def splitRange : Text → Option (Text × Text)
  | [] => none
  | '.' :: '.' :: rest => some ([], rest)
  | c :: rest => (splitRange rest).map fun (lower, upper) => (c :: lower, upper)

/-- `from`, `to` and `timezone` of `<date>..<date>@<zone>`. Without a mark there is no zone. -/
def splitTimeZone (runtime : Runtime) (lower upper value : Text) :
    Except Blame (Option (Text × Text × Text)) :=
  if '@' ∈ lower then
    .error (syntaxError (around "The time zone goes after the range: '" value
      "' (for example: 2026-09-27..2026-09-27@Asia/Seoul)"))
  else
    match upper.dropWhile fun c => c != '@' with
    | [] => .ok none
    | _ :: zone =>
        let high := upper.takeWhile fun c => c != '@'
        if high = [] then
          .error (syntaxError (around "Both range bounds are required: '" value
            "' (for example: 2026-09-27..2026-09-27@Asia/Seoul)"))
        else if !dateOnly lower || !dateOnly high then
          .error (syntaxError (around "A time zone applies to calendar dates only: '" value
            "' (for example: 2026-09-27..2026-09-27@Asia/Seoul)"))
        else
          (checkTemporalBound runtime lower).bind fun _ =>
          (checkTemporalBound runtime high).bind fun _ =>
          match canonicalTimeZone runtime zone with
          | none =>
              .error (syntaxError (around "Unknown time zone: '" zone
                "' (for example: Asia/Seoul)"))
          | some timezone =>
              if high < lower then
                .error (syntaxError (around "Range bounds are reversed: '" value "'"))
              else .ok (some (lower, high, timezone))

/-- `low < minimum`, where the key has a minimum -/
def belowMinimum (key : NumericRangeKey) (low : Int) : Bool :=
  (minRangeValue key).any fun minimum => low < minimum

def belowMinimumMessage (subject : String) (key : NumericRangeKey) (value : Text) : Text :=
  subject.toList ++ " is below the minimum for '".toList ++ key.text ++ "' (".toList ++
    ((minRangeValue key).elim [] fun minimum => (toString minimum).toList) ++
      around "): '" value "'"

def toNumericFilter (key : NumericRangeKey) (content : Content) (lower upper : Text) :
    Except Blame QueryFilter :=
  (parseNumericBound lower).bind fun low =>
  (parseNumericBound upper).bind fun high =>
  if high < low then
    .error (syntaxError (around "Range bounds are reversed: '" content.value "'"))
  else if belowMinimum key low then
    .error (syntaxError (belowMinimumMessage "Range bound" key content.value))
  else .ok (.numeric key content.negated low high)

def toTemporalFilter (runtime : Runtime) (key : TemporalRangeKey) (content : Content)
    (lower upper : Text) : Except Blame QueryFilter :=
  (splitTimeZone runtime lower upper content.value).bind fun
  | some (low, high, timezone) => .ok (.temporal key content.negated low high (some timezone))
  | none =>
      (checkTemporalBound runtime lower).bind fun low =>
      (checkTemporalBound runtime upper).bind fun high =>
      if isAfter (instantOf runtime low) (instantOf runtime high) then
        .error (syntaxError (around "Range bounds are reversed: '" content.value "'"))
      else .ok (.temporal key content.negated low high none)

def toSingleValueRangeFilter (key : NumericRangeKey) (content : Content) :
    Except Blame QueryFilter :=
  (parseNumericBound content.value).bind fun value =>
  if belowMinimum key value then
    .error (syntaxError (belowMinimumMessage "Value" key content.value))
  else .ok (.numeric key content.negated value value)

def checkEnumeratedValue (key : EqualityKey) (value : Text) : Except Blame Unit :=
  match enumeratedValues key with
  | none => .ok ()
  | some allowed =>
      if value ∈ allowed then .ok ()
      else
        .error fun token start stop =>
          { code := .querySyntaxError
            message := "Invalid value for '".toList ++ key.text ++ around "': '" value "'"
            detail := { token := token, offsetStart := start, offsetEnd := stop,
                        allowedValues := some allowed } }

/-! ### Tokens -/

/-- What a token adds. -/
inductive Part
  | word (word : Text)
  | range (filter : QueryFilter)
  | value (key : EqualityKey) (negated : Bool) (value : Text)
  deriving DecidableEq, Repr

def rangeOnly (key : QueryKey) : Except Blame Part := .error (rangeOnlyKey key)

/-- A token with a key that is not a range of two bounds. -/
def toScalar (key : QueryKey) (content : Content) : Except Blame Part :=
  if content.value = [] then
    .error (syntaxError (around "The value for '" key.text "' is empty"))
  else
    match key with
    | .equality key =>
        (checkEnumeratedValue key content.value).map fun _ =>
          .value key content.negated content.value
    | .numeric number =>
        if acceptsSingleValue number then (toSingleValueRangeFilter number content).map Part.range
        else rangeOnly key
    | .temporal _ => rangeOnly key

/-- Both bounds of a range are there. -/
def withBounds (content : Content) (make : Text → Text → Except Blame QueryFilter) :
    Option (Except Blame QueryFilter) :=
  (splitRange content.value).map fun (lower, upper) =>
    if lower = [] ∨ upper = [] then
      .error (syntaxError (around "Both range bounds are required: '" content.value
        "' (for example: 1200..1350)"))
    else make lower upper

/-- In quotation marks `..` is taken literally. -/
def toRange (runtime : Runtime) (key : QueryKey) (content : Content) :
    Option (Except Blame QueryFilter) :=
  if content.quoted then none
  else
    match key with
    | .equality _ => none
    | .numeric number => withBounds content (toNumericFilter number content)
    | .temporal time => withBounds content (toTemporalFilter runtime time content)

def parseContent (runtime : Runtime) (content : Content) : Except Blame Part :=
  match content.key with
  | none => .ok (.word (if content.negated then '-' :: content.value else content.value))
  | some name =>
      match isQueryKey name with
      | none => .error (unsupportedKey name)
      | some key =>
          match toRange runtime key content with
          | some filter => filter.map Part.range
          | none => toScalar key content

/-! ### Queries -/

/-- Values of one key and one sign gather in one condition. -/
def addValue (key : EqualityKey) (negated : Bool) (value : Text) :
    List QueryFilter → List QueryFilter
  | [] => [.equality key negated [value]]
  | .equality other sign values :: rest =>
      if other = key ∧ sign = negated then
        .equality other sign (if value ∈ values then values else values ++ [value]) :: rest
      else .equality other sign values :: addValue key negated value rest
  | filter :: rest => filter :: addValue key negated value rest

namespace Part

def addTo (filters : List QueryFilter) : Part → List QueryFilter
  | .word _ => filters
  | .range filter => filters ++ [filter]
  | .value key negated given => addValue key negated given filters

def words : Part → List Text
  | word text => [text]
  | _ => []

end Part

structure Parsed where
  filters : List QueryFilter
  textTerms : List Text
  /-- Where the first word stands. -/
  firstTextStart : Option Nat
  deriving DecidableEq, Repr

def Parsed.add (parsed : Parsed) (start : Nat) (part : Part) : Parsed where
  filters := part.addTo parsed.filters
  textTerms := parsed.textTerms ++ part.words
  firstTextStart :=
    parsed.firstTextStart.or (if part.words = [] then none else some start)

def parseTokens (runtime : Runtime) : Parsed → List RawToken → Except QueryParseError Parsed
  | parsed, [] => .ok parsed
  | parsed, token :: rest =>
      match parseContent runtime token.content with
      | .error blame => .error (blame token.raw token.start token.stop)
      | .ok part => parseTokens runtime (parsed.add token.start part) rest

/-- `textTerms.join(' ')`, if there are any -/
def joinWords (words : List Text) : Option Text :=
  if words = [] then none else some ([' '].intercalate words)

def finish (parsed : Parsed) : Except QueryParseError QueryAst :=
  match joinWords parsed.textTerms with
  | none => .ok ⟨parsed.filters, none⟩
  | some text =>
      if countCodePoints text < minTextLength then
        let start := parsed.firstTextStart.getD 0
        .error
          { code := .queryTooShort
            message := "Search text must contain at least ".toList ++
              (toString minTextLength).toList ++ " characters".toList
            detail := { token := text, offsetStart := start, offsetEnd := start + units text } }
      else .ok ⟨parsed.filters, some text⟩

def parseQuery (runtime : Runtime) (input : Text) : Except QueryParseError QueryAst :=
  (tokenize input).bind fun tokens => (parseTokens runtime ⟨[], [], none⟩ tokens).bind finish

/-! ### What is accepted -/

/-- The contents of tokens and what they add. -/
def PartsOf (runtime : Runtime) : List Content → List Part → Prop :=
  List.Forall₂ fun content part => parseContent runtime content = .ok part

def filtersOf (parts : List Part) : List QueryFilter := parts.foldl Part.addTo []

def wordsOf (parts : List Part) : List Text := parts.flatMap Part.words

/-- The tree of what has been read, if its text is long enough. -/
def IsTree (parts : List Part) (ast : QueryAst) : Prop :=
  ast.filters = filtersOf parts ∧ ast.text = joinWords (wordsOf parts) ∧
    ∀ text ∈ ast.text, minTextLength ≤ countCodePoints text

theorem bind_ok_iff {ε α β : Type} {x : Except ε α} {f : α → Except ε β} {b : β} :
    x.bind f = .ok b ↔ ∃ a, x = .ok a ∧ f a = .ok b := by
  cases x <;> simp [Except.bind]

variable {runtime : Runtime} {ast : QueryAst}

/-- Where the tokens stand matters to errors only. -/
theorem parseTokens_iff {tokens : List RawToken} {before : Parsed} {filters : List QueryFilter}
    {terms : List Text} :
    (∃ after, parseTokens runtime before tokens = .ok after ∧ after.filters = filters ∧
      after.textTerms = terms) ↔
        ∃ parts, PartsOf runtime (tokens.map RawToken.content) parts ∧
          parts.foldl Part.addTo before.filters = filters ∧
            before.textTerms ++ wordsOf parts = terms := by
  induction tokens generalizing before with
  | nil =>
    constructor
    · rintro ⟨after, ⟨⟩, rfl, rfl⟩
      exact ⟨[], .nil, rfl, List.append_nil _⟩
    · rintro ⟨parts, of, rfl, rfl⟩
      cases of
      exact ⟨before, rfl, rfl, (List.append_nil _).symm⟩
  | cons token rest ih =>
    simp only [parseTokens, List.map_cons]
    cases parsed : parseContent runtime token.content with
    | error blame =>
      constructor
      · rintro ⟨after, ⟨⟩, -⟩
      · rintro ⟨parts, of, -⟩
        cases of with
        | cons first => rw [parsed] at first; cases first
    | ok part =>
      rw [ih]
      constructor
      · rintro ⟨parts, of, rfl, rfl⟩
        refine ⟨part :: parts, .cons parsed of, rfl, ?_⟩
        simp [Parsed.add, wordsOf]
      · rintro ⟨parts, of, rfl, rfl⟩
        cases of with
        | cons first of =>
          rw [parsed] at first
          cases first
          refine ⟨_, of, rfl, ?_⟩
          simp [Parsed.add, wordsOf]

theorem finish_iff {parsed : Parsed} :
    finish parsed = .ok ast ↔ ast.filters = parsed.filters ∧
      ast.text = joinWords parsed.textTerms ∧
        ∀ text ∈ ast.text, minTextLength ≤ countCodePoints text := by
  obtain ⟨filters, text⟩ := ast
  unfold finish
  cases joinWords parsed.textTerms with
  | none =>
    constructor
    · rintro ⟨⟩
      exact ⟨rfl, rfl, fun _ none => by cases none⟩
    · rintro ⟨rfl, rfl, -⟩
      rfl
  | some joined =>
    by_cases short : countCodePoints joined < minTextLength
    · simp only [short, if_true]
      constructor
      · rintro ⟨⟩
      · rintro ⟨-, rfl, long⟩
        exact absurd short (Nat.not_lt.mpr (long joined rfl))
    · simp only [short, if_false]
      constructor
      · rintro ⟨⟩
        exact ⟨rfl, rfl, fun _ is => by cases is; exact Nat.not_lt.mp short⟩
      · rintro ⟨rfl, rfl, -⟩
        rfl

/-- A query is accepted when it can be read to its end, every token says something, and the text is
long enough. -/
theorem parseQuery_iff {input : Text} :
    parseQuery runtime input = .ok ast ↔
      ∃ contents parts, Reads input contents ∧ PartsOf runtime contents parts ∧
        IsTree parts ast := by
  simp only [parseQuery, bind_ok_iff, finish_iff]
  constructor
  · rintro ⟨tokens, run, parsed, of, filters, text, long⟩
    obtain ⟨parts, of, gathered, words⟩ := parseTokens_iff.mp ⟨parsed, of, rfl, rfl⟩
    refine ⟨_, parts, tokenize_iff.mp ⟨tokens, run, rfl⟩, of, ?_, ?_, long⟩
    · rw [filters, filtersOf, gathered]
    · rw [text, ← words, List.nil_append]
  · rintro ⟨contents, parts, reads, of, filters, text, long⟩
    obtain ⟨tokens, run, rfl⟩ := tokenize_iff.mpr reads
    obtain ⟨parsed, run', gathered, words⟩ := parseTokens_iff.mpr ⟨parts, of, rfl, rfl⟩
    refine ⟨tokens, run, parsed, run', ?_, ?_, long⟩
    · rw [filters, filtersOf, gathered]
    · rw [text, words, List.nil_append]

end PrSearch.Query
