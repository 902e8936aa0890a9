import Mathlib.Data.List.DropRight
import Mathlib.Data.List.TakeWhile
import PrSearch.Lib.Decimal
import PrSearch.Query.Serialize

/-! # Labels and identifiers

A merge number is written `M-<code>-<number>`, a sequence space `owner/name@branch`. What is typed
into the search box is an identifier of some kind or a text: an address of the host, a merge number, a
number of a pull request, a name of a commit. The readers of the two labels accept what the printers
print and nothing else, and a printed merge number is taken for nothing but that.
-/
namespace PrSearch.Query

open Lib Decimal

/-! ### Merge numbers -/

/-- `Number.MAX_SAFE_INTEGER` -/
def mergeNumberMax : Int := 9007199254740991

/-- Without a code of digits, or with a number out of bounds, it throws. -/
def formatMergeNumber (code : Text) (number : Int) : Option Text :=
  if isDigits code ∧ 1 ≤ number ∧ number ≤ mergeNumberMax then
    some ('M' :: '-' :: (code ++ '-' :: renderNumber number))
  else none

structure ParsedMergeNumber where
  code : Text
  number : Int
  deriving DecidableEq, Repr

/-- `^M-([0-9]+)-([1-9][0-9]*)$` -/
def mergeNumberPattern : Text → Option (Text × Text)
  | 'M' :: '-' :: rest =>
      match rest.dropWhile Char.isDigit with
      | '-' :: digits =>
          if rest.takeWhile Char.isDigit ≠ [] ∧ isDigits digits ∧ digits.head? ≠ some '0' then
            some (rest.takeWhile Char.isDigit, digits)
          else none
      | _ => none
  | _ => none

def parseMergeNumber (text : Text) : Option ParsedMergeNumber :=
  (mergeNumberPattern text).bind fun (code, digits) =>
    if 16 < digits.length then none
    else
      let value : Int := Nat.ofDigitChars 10 digits 0
      if value < 1 ∨ mergeNumberMax < value then none else some ⟨code, value⟩

theorem isDigits_iff (text : Text) :
    isDigits text = true ↔ text ≠ [] ∧ ∀ c ∈ text, c.isDigit = true := by
  simp [isDigits]

/-- A code of digits ends where a hyphen stands. -/
theorem span_digits {code : Text} (digits : ∀ c ∈ code, c.isDigit = true) (rest : Text) :
    (code ++ '-' :: rest).takeWhile Char.isDigit = code ∧
      (code ++ '-' :: rest).dropWhile Char.isDigit = '-' :: rest := by
  induction code with
  | nil => exact ⟨rfl, rfl⟩
  | cons c code ih =>
    have digit := digits c List.mem_cons_self
    obtain ⟨taken, dropped⟩ := ih fun d inside => digits d (List.mem_cons_of_mem _ inside)
    rw [List.cons_append, List.takeWhile_cons_of_pos digit, List.dropWhile_cons_of_pos digit]
    exact ⟨congrArg (c :: ·) taken, dropped⟩

theorem mergeNumberPattern_iff (text code digits : Text) :
    mergeNumberPattern text = some (code, digits) ↔
      isDigits code = true ∧ Canonical digits ∧ text = 'M' :: '-' :: (code ++ '-' :: digits) := by
  constructor
  · intro matched
    unfold mergeNumberPattern at matched
    split at matched
    · case h_1 rest =>
      split at matched
      · case h_1 rest' after =>
        split at matched
        · case isTrue holds =>
          obtain ⟨rfl, rfl⟩ := Prod.mk.inj (Option.some.inj matched)
          obtain ⟨some, areDigits, noZero⟩ := holds
          rw [isDigits_iff] at areDigits
          refine ⟨(isDigits_iff _).mpr ⟨some, fun c => List.mem_takeWhile_imp⟩,
            ⟨areDigits.1, areDigits.2, noZero⟩, ?_⟩
          rw [← after, List.takeWhile_append_dropWhile]
        · case isFalse => exact absurd matched.symm (Option.some_ne_none _)
      · case h_2 => exact absurd matched.symm (Option.some_ne_none _)
    · case h_2 => exact absurd matched.symm (Option.some_ne_none _)
  · rintro ⟨isCode, ⟨some, areDigits, noZero⟩, rfl⟩
    have code_digits := (isDigits_iff code).mp isCode
    obtain ⟨taken, dropped⟩ := span_digits code_digits.2 digits
    have holds : code ≠ [] ∧ isDigits digits ∧ digits.head? ≠ Option.some '0' :=
      ⟨code_digits.1, (isDigits_iff digits).mpr ⟨some, areDigits⟩, noZero⟩
    rw [mergeNumberPattern, dropped, taken]
    exact if_pos holds

/-- The reader accepts what the printer prints, and reads what was printed. -/
theorem parseMergeNumber_iff (text code : Text) (number : Int) :
    parseMergeNumber text = some ⟨code, number⟩ ↔ formatMergeNumber code number = some text := by
  constructor
  · intro parsed
    obtain ⟨⟨readCode, digits⟩, matched, read⟩ := Option.bind_eq_some_iff.mp parsed
    obtain ⟨isCode, canonical, rfl⟩ := (mergeNumberPattern_iff text readCode digits).mp matched
    dsimp only at read
    split at read
    · exact absurd read.symm (Option.some_ne_none _)
    · split at read
      · exact absurd read.symm (Option.some_ne_none _)
      · case isFalse inBounds =>
        obtain ⟨rfl, rfl⟩ := ParsedMergeNumber.mk.inj (Option.some.inj read)
        rw [not_or, not_lt, not_lt] at inBounds
        rw [formatMergeNumber, if_pos ⟨isCode, inBounds⟩]
        have written : renderNumber (Nat.ofDigitChars 10 digits 0) = digits :=
          (renderNumber_ofNat _).trans (toDigits_ofDigitChars canonical)
        rw [written]
  · intro printed
    rw [formatMergeNumber] at printed
    split at printed
    · case isTrue holds =>
      obtain rfl := Option.some.inj printed
      obtain ⟨isCode, low, high⟩ := holds
      obtain ⟨n, rfl⟩ : ∃ n : Nat, number = n := ⟨number.toNat, by omega⟩
      have positive : 0 < n := by omega
      have digits : renderNumber n = Nat.toDigits 10 n := renderNumber_ofNat n
      have canonical := canonical_toDigits positive
      -- the greatest number has sixteen digits
      have short : ¬ 16 < (Nat.toDigits 10 n).length := by
        rw [not_lt, Nat.length_toDigits_le_iff (by decide) (by decide)]
        rw [mergeNumberMax] at high
        omega
      have inBounds : ¬ ((n : Int) < 1 ∨ mergeNumberMax < n) := by omega
      rw [parseMergeNumber, digits, (mergeNumberPattern_iff _ _ _).mpr ⟨isCode, canonical, rfl⟩,
        Option.bind_some]
      dsimp only
      rw [if_neg short, Nat.ofDigitChars_ten_toDigits, if_neg inBounds]
    · case isFalse => exact absurd printed.symm (Option.some_ne_none _)

/-! ### Sequence spaces -/

def sequenceSpaceLabel (repositorySlug baseBranch : Text) : Text := repositorySlug ++ '@' :: baseBranch

structure SequenceSpaceParts where
  owner : Text
  name : Text
  baseBranch : Text
  deriving DecidableEq, Repr

/-- The text before the first of a character and the text after it: `indexOf` and two slices. -/
def cut (mark : Char) : Text → Option (Text × Text)
  | [] => none
  | c :: rest =>
      if c = mark then some ([], rest)
      else (cut mark rest).map fun (before, after) => (c :: before, after)

def parseSequenceSpaceLabel (label : Text) : Option SequenceSpaceParts :=
  (cut '@' label).bind fun (slug, baseBranch) =>
    if baseBranch = [] then none
    else (cut '/' slug).bind fun (owner, name) =>
      if owner = [] ∨ name = [] then none else some ⟨owner, name, baseBranch⟩

theorem cut_iff (mark : Char) (text before after : Text) :
    cut mark text = some (before, after) ↔ mark ∉ before ∧ text = before ++ mark :: after := by
  induction text generalizing before with
  | nil => simp [cut]
  | cons c rest ih =>
    rw [cut]
    by_cases isMark : c = mark
    · subst isMark
      rw [if_pos rfl, Option.some.injEq, Prod.mk.injEq]
      constructor
      · rintro ⟨rfl, rfl⟩
        exact ⟨List.not_mem_nil, rfl⟩
      · rintro ⟨free, whole⟩
        cases before with
        | nil => exact ⟨rfl, (List.cons.inj whole).2⟩
        | cons d before =>
          rw [(List.cons.inj whole).1] at free
          exact absurd List.mem_cons_self free
    · rw [if_neg isMark, Option.map_eq_some_iff]
      constructor
      · rintro ⟨⟨front, back⟩, found, same⟩
        obtain ⟨rfl, rfl⟩ := Prod.mk.inj same
        obtain ⟨free, rfl⟩ := (ih front).mp found
        refine ⟨?_, rfl⟩
        rw [List.mem_cons, not_or]
        exact ⟨Ne.symm isMark, free⟩
      · rintro ⟨free, whole⟩
        cases before with
        | nil => exact absurd (List.cons.inj whole).1 isMark
        | cons d before =>
          obtain ⟨rfl, rfl⟩ := List.cons.inj whole
          exact ⟨(before, after), (ih before).mpr
            ⟨fun inside => free (List.mem_cons_of_mem _ inside), rfl⟩, rfl⟩

/-- The parts that a label is printed from. -/
structure SequenceSpaceParts.Valid (parts : SequenceSpaceParts) : Prop where
  owner : parts.owner ≠ [] ∧ '/' ∉ parts.owner ∧ '@' ∉ parts.owner
  name : parts.name ≠ [] ∧ '@' ∉ parts.name
  baseBranch : parts.baseBranch ≠ []

def SequenceSpaceParts.slug (parts : SequenceSpaceParts) : Text := parts.owner ++ '/' :: parts.name

/-- The reader accepts what the printer prints of valid parts, and reads these parts. -/
theorem parseSequenceSpaceLabel_iff (label : Text) (parts : SequenceSpaceParts) :
    parseSequenceSpaceLabel label = some parts ↔
      parts.Valid ∧ label = sequenceSpaceLabel parts.slug parts.baseBranch := by
  constructor
  · intro parsed
    obtain ⟨⟨slug, baseBranch⟩, first, rest⟩ := Option.bind_eq_some_iff.mp parsed
    obtain ⟨slugFree, rfl⟩ := (cut_iff '@' label slug baseBranch).mp first
    dsimp only at rest
    split at rest
    · exact absurd rest.symm (Option.some_ne_none _)
    · case isFalse branch =>
      obtain ⟨⟨owner, name⟩, second, made⟩ := Option.bind_eq_some_iff.mp rest
      obtain ⟨ownerFree, rfl⟩ := (cut_iff '/' slug owner name).mp second
      dsimp only at made
      split at made
      · exact absurd made.symm (Option.some_ne_none _)
      · case isFalse some =>
        obtain rfl := Option.some.inj made
        rw [not_or] at some
        rw [List.mem_append, List.mem_cons, not_or, not_or] at slugFree
        exact ⟨⟨⟨some.1, ownerFree, slugFree.1⟩, ⟨some.2, slugFree.2.2⟩, branch⟩, rfl⟩
  · rintro ⟨⟨⟨ownerSome, ownerSlash, ownerAt⟩, ⟨nameSome, nameAt⟩, branch⟩, rfl⟩
    have slugFree : '@' ∉ parts.slug := by
      rw [SequenceSpaceParts.slug, List.mem_append, List.mem_cons, not_or, not_or]
      exact ⟨ownerAt, by decide, nameAt⟩
    have first := (cut_iff '@' _ parts.slug parts.baseBranch).mpr ⟨slugFree, rfl⟩
    have second := (cut_iff '/' _ parts.owner parts.name).mpr ⟨ownerSlash, rfl⟩
    rw [parseSequenceSpaceLabel, sequenceSpaceLabel, first, Option.bind_some]
    dsimp only
    rw [if_neg branch, SequenceSpaceParts.slug, second, Option.bind_some]
    dsimp only
    rw [if_neg (not_or.mpr ⟨ownerSome, nameSome⟩)]

/-! ### Identifiers -/

def fullShaLength : Nat := 40

def minShaPrefixLength : Nat := 7

def maxPrNumber : Nat := 2147483647

def isHexDigit (c : Char) : Bool := c.isDigit || ('a' ≤ c && c ≤ 'f')

/-- `^[0-9a-f]+$` -/
def isHexText (text : Text) : Bool := text ≠ [] && text.all isHexDigit

def isSegmentChar (c : Char) : Bool := c.isAlphanum || c == '.' || c == '_' || c == '-'

/-- `[A-Za-z0-9._-]+` -/
def isSegment (text : Text) : Bool := text ≠ [] && text.all isSegmentChar

/-- `^[A-Za-z0-9._-]+\/[A-Za-z0-9._-]+$` -/
def isOwnerRepo (text : Text) : Bool :=
  (cut '/' text).any fun (owner, name) => isSegment owner && isSegment name

/-- `^(?:([A-Za-z0-9._-]+\/[A-Za-z0-9._-]+))?#(\d+)$` -/
def hashNumber (text : Text) : Option (Option Text × Text) :=
  (cut '#' text).bind fun (repository, digits) =>
    if isDigits digits then
      if repository = [] then some (none, digits)
      else if isOwnerRepo repository then some (some repository, digits)
      else none
    else none

inductive ShaMatch
  | exact_
  | prefix_
  deriving DecidableEq, Repr

inductive Identifier
  | commit (match_ : ShaMatch) (sha : Text)
  | pullRequest (repository : Option Text) (number : Nat)
  | mergeNumber (code : Text) (number : Int) (label : Text)
  | text
  deriving DecidableEq, Repr

structure IdentifierRejection where
  code : String
  message : String
  minLength : Nat
  actualLength : Nat
  deriving DecidableEq, Repr

structure IdentifierDetection where
  input : Text
  interpretations : List Identifier
  rejection : Option IdentifierRejection
  deriving DecidableEq, Repr

structure Url where
  host : Text
  pathname : Text
  deriving DecidableEq, Repr

def trimInput (raw : Text) : Text := (raw.dropWhile isSpace).rdropWhile isSpace

/-- Whether a text begins with a scheme and a colon, tabs and newlines taken out. -/
def hasScheme (text : Text) : Bool :=
  let input := (text.dropWhile fun c => c.toNat ≤ 0x20).filter fun c => !("\t\n\r".toList.contains c)
  match cut ':' input with
  | some (first :: rest, _) =>
      first.isAlpha && rest.all fun c => c.isAlphanum || c == '+' || c == '-' || c == '.'
  | _ => false

section Detect

-- What `new URL` makes of a text with a scheme; lower case of a host
variable (absoluteUrl : Text → Option Url) (toLowerCase : Text → Text)

/-- `new URL(text)`, without a base. -/
def newUrl (text : Text) : Option Url := if hasScheme text then absoluteUrl text else none

def hostOf (value : Text) : Option Text := (newUrl absoluteUrl value).map fun url => toLowerCase url.host

def pullRequestOf (repository : Option Text) (digits : Text) : Option Identifier :=
  let number := Nat.ofDigitChars 10 digits 0
  if number < 1 ∨ maxPrNumber < number then none else some (.pullRequest repository number)

def fromUrl (input : Text) (gheBaseUrl : Option Text) : Option Identifier :=
  match gheBaseUrl with
  | none => none
  | some [] => none
  | some base =>
      match hostOf absoluteUrl toLowerCase base, hostOf absoluteUrl toLowerCase input,
          newUrl absoluteUrl input with
      | some expected, some actual, some url =>
          if expected ≠ actual then none
          else
            match (url.pathname.splitOn '/').filter (· ≠ []) with
            | owner :: repo :: resource :: value :: _ =>
                let repository := owner ++ '/' :: repo
                if !isOwnerRepo repository then none
                else if resource = "pull".toList ∨ resource = "pulls".toList then
                  if isDigits value then pullRequestOf (some repository) value else none
                else if resource = "commit".toList ∨ resource = "commits".toList then
                  let sha := value.map Char.toLower
                  if isHexText sha ∧ sha.length = fullShaLength then some (.commit .exact_ sha)
                  else none
                else none
            | _ => none
      | _, _, _ => none

def fromMergeNumber (input : Text) : Option Identifier :=
  let text := if input.head? = some '[' ∧ input.getLast? = some ']' then input.tail.dropLast else input
  let text := if text.take 2 = ['m', '-'] then 'M' :: text.tail else text
  (parseMergeNumber text).bind fun parsed =>
    (formatMergeNumber parsed.code parsed.number).map fun label =>
      .mergeNumber parsed.code parsed.number label

def fromHashNumber (input : Text) : Option Identifier :=
  (hashNumber input).bind fun (repository, digits) => pullRequestOf repository digits

def fromHex (input : Text) : Option Identifier :=
  let sha := input.map Char.toLower
  if !isHexText sha then none
  else if sha.length = fullShaLength then some (.commit .exact_ sha)
  else if minShaPrefixLength ≤ sha.length ∧ sha.length < fullShaLength then
    some (.commit .prefix_ sha)
  else none

def shaPrefixTooShort (input : Text) : IdentifierRejection where
  code := "SHA_PREFIX_TOO_SHORT"
  message := s!"A shortened SHA must contain at least {minShaPrefixLength} characters"
  minLength := minShaPrefixLength
  actualLength := units input

/-- A number of a pull request, a name of a commit, or both. -/
def detectPlain (input : Text) : IdentifierDetection :=
  let hash := fromHashNumber input
  let number := if hash = none ∧ isDigits input then pullRequestOf none input else none
  let interpretations := hash.toList ++ number.toList
  match fromHex input with
  | some hex => ⟨input, interpretations ++ [hex], none⟩
  | none =>
      if interpretations = [] ∧ isHexText (input.map Char.toLower) then
        ⟨input, [.text], some (shaPrefixTooShort input)⟩
      else if interpretations = [] then ⟨input, [.text], none⟩
      else ⟨input, interpretations, none⟩

def detectIdentifier (raw : Text) (gheBaseUrl : Option Text) : IdentifierDetection :=
  let input := trimInput raw
  if input = [] then ⟨input, [.text], none⟩
  else
    match fromUrl absoluteUrl toLowerCase input gheBaseUrl with
    | some url => ⟨input, [url], none⟩
    | none =>
        match fromMergeNumber input with
        | some mergeNumber => ⟨input, [mergeNumber], none⟩
        | none => detectPlain input

end Detect

section PrintedLabel

variable {code text : Text} {number : Int}

/-- What a printed merge number looks like. -/
theorem of_formatMergeNumber (printed : formatMergeNumber code number = some text) :
    ∃ digits, isDigits code = true ∧ isDigits digits = true ∧
      text = 'M' :: '-' :: (code ++ '-' :: digits) := by
  obtain ⟨⟨readCode, digits⟩, matched, read⟩ :=
    Option.bind_eq_some_iff.mp ((parseMergeNumber_iff text code number).mpr printed)
  obtain ⟨isCode, canonical, whole⟩ := (mergeNumberPattern_iff text readCode digits).mp matched
  have same : readCode = code := by
    dsimp only at read
    split at read
    · exact absurd read.symm (Option.some_ne_none _)
    · split at read
      · exact absurd read.symm (Option.some_ne_none _)
      · exact (ParsedMergeNumber.mk.inj (Option.some.inj read)).1
  subst same
  exact ⟨digits, isCode, (isDigits_iff digits).mpr ⟨canonical.1, canonical.2.1⟩, whole⟩

/-- A printed merge number has no colon, so that it is no address. -/
theorem newUrl_of_formatMergeNumber (absoluteUrl : Text → Option Url)
    (printed : formatMergeNumber code number = some text) : newUrl absoluteUrl text = none := by
  obtain ⟨digits, isCode, areDigits, rfl⟩ := of_formatMergeNumber printed
  have noColon : ':' ∉ 'M' :: '-' :: (code ++ '-' :: digits) := by
    have codeFree : ':' ∉ code := fun inside =>
      absurd (((isDigits_iff code).mp isCode).2 ':' inside) (by decide)
    have digitsFree : ':' ∉ digits := fun inside =>
      absurd (((isDigits_iff digits).mp areDigits).2 ':' inside) (by decide)
    simp [codeFree, digitsFree]
  have noScheme : hasScheme ('M' :: '-' :: (code ++ '-' :: digits)) = false := by
    rw [hasScheme]
    split
    · case h_1 first rest after found =>
      -- what is taken out and dropped leaves the text without a colon
      have whole := ((cut_iff ':' _ _ _).mp found).2
      have inside : ':' ∈ (first :: rest) ++ ':' :: after := by simp
      rw [← whole] at inside
      have kept := (List.mem_filter.mp inside).1
      exact absurd ((List.dropWhile_sublist _).subset kept) noColon
    · rfl
  rw [newUrl, noScheme]
  rfl

theorem trimInput_of_formatMergeNumber (printed : formatMergeNumber code number = some text) :
    trimInput text = text := by
  obtain ⟨digits, _, areDigits, rfl⟩ := of_formatMergeNumber printed
  obtain ⟨some, areDigits⟩ := (isDigits_iff digits).mp areDigits
  have digit := areDigits _ (List.getLast_mem some)
  have lastIs : ('M' :: '-' :: (code ++ '-' :: digits)).getLast? = Option.some (digits.getLast some) := by
    rw [show 'M' :: '-' :: (code ++ '-' :: digits) = ('M' :: '-' :: (code ++ ['-'])) ++ digits by simp,
      List.getLast?_append, List.getLast?_eq_some_getLast some, Option.some_or]
  have first : isSpace 'M' = false := by decide
  rw [trimInput, List.dropWhile_cons_of_neg (by rw [first]; decide)]
  have noSpace : isSpace (digits.getLast some) = false :=
    isSpace_of_isAlphanum (by rw [Char.isAlphanum, digit, Bool.or_true])
  rw [List.rdropWhile_eq_self_iff]
  intro nonempty
  have same : ('M' :: '-' :: (code ++ '-' :: digits)).getLast nonempty = digits.getLast some := by
    rw [List.getLast?_eq_some_getLast nonempty] at lastIs
    exact Option.some.inj lastIs
  rw [same, noSpace]
  decide

/-- A printed merge number is that merge number and nothing else. -/
theorem detectIdentifier_of_formatMergeNumber (absoluteUrl : Text → Option Url)
    (toLowerCase : Text → Text) (gheBaseUrl : Option Text)
    (printed : formatMergeNumber code number = some text) :
    detectIdentifier absoluteUrl toLowerCase text gheBaseUrl =
      ⟨text, [.mergeNumber code number text], none⟩ := by
  have noUrl := newUrl_of_formatMergeNumber absoluteUrl printed
  have notUrl : fromUrl absoluteUrl toLowerCase text gheBaseUrl = none := by
    unfold fromUrl
    split
    · rfl
    · rfl
    · rw [noUrl]
      split
      · case h_1 => rename_i _ _ _ url; exact absurd url.symm (Option.some_ne_none _)
      · rfl
  have asMerge : fromMergeNumber text = some (.mergeNumber code number text) := by
    obtain ⟨digits, _, _, whole⟩ := of_formatMergeNumber printed
    have noBracket : ¬ (text.head? = some '[' ∧ text.getLast? = some ']') := by
      rw [whole, List.head?_cons]
      exact fun both => absurd (Option.some.inj both.1) (by decide)
    have noSmall : ¬ text.take 2 = ['m', '-'] := by
      rw [whole, List.take_succ_cons, List.cons.injEq]
      exact fun same => absurd same.1 (by decide)
    rw [fromMergeNumber, if_neg noBracket, if_neg noSmall, (parseMergeNumber_iff text code number).mpr printed,
      Option.bind_some, printed]
    rfl
  have some : text ≠ [] := by
    obtain ⟨_, _, _, whole⟩ := of_formatMergeNumber printed
    rw [whole]
    exact List.cons_ne_nil _ _
  rw [detectIdentifier, trimInput_of_formatMergeNumber printed, if_neg some, notUrl]
  dsimp only
  rw [asMerge]

end PrintedLabel

/-- Both readers read exactly what the printers print, and a printed merge number is detected as
itself. -/
theorem labels_round_trip :
    (∀ text code number, parseMergeNumber text = some ⟨code, number⟩ ↔
      formatMergeNumber code number = some text) ∧
    (∀ label parts, parseSequenceSpaceLabel label = some parts ↔
      parts.Valid ∧ label = sequenceSpaceLabel parts.slug parts.baseBranch) ∧
    ∀ absoluteUrl toLowerCase gheBaseUrl code number text,
      formatMergeNumber code number = some text →
        detectIdentifier absoluteUrl toLowerCase text gheBaseUrl =
          ⟨text, [.mergeNumber code number text], none⟩ :=
  ⟨parseMergeNumber_iff, parseSequenceSpaceLabel_iff, fun absoluteUrl toLowerCase gheBaseUrl _ _ _ =>
    detectIdentifier_of_formatMergeNumber absoluteUrl toLowerCase gheBaseUrl⟩

/-- A space without the name of a branch is not read back. -/
theorem not_read_back : ¬ ∀ owner name baseBranch : Text, '/' ∉ owner → '@' ∉ owner → '@' ∉ name →
    parseSequenceSpaceLabel (sequenceSpaceLabel (owner ++ '/' :: name) baseBranch) =
      some ⟨owner, name, baseBranch⟩ := by
  intro all
  exact absurd (all ['o'] ['r'] [] (by decide) (by decide) (by decide)) (by decide)

end PrSearch.Query
