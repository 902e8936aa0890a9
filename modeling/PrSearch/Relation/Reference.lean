import PrSearch.Lib.Double
import PrSearch.Query.Identifier
import PrSearch.Relation.Text

/-! # References in a text

A text refers to pull requests and commits by addresses, by numbers and by the names of commits. Each
expression has a key, which says what is written and not what it turns out to mean. A key can be read
again, and for a commit or a pull request the keys that may mean it can be listed.
-/
namespace PrSearch.Relation.Reference

open Query (Text units isSpace isDigits isHexDigit isHexText fullShaLength minShaPrefixLength Url
  newUrl)
open Lib.Double
open Pattern

/-! ### Targets and keys -/

def referenceLimit : Nat := 100

def maxReferenceShaPrefixLength : Nat := 12

structure RepoSlug where
  owner : Text
  name : Text
  deriving DecidableEq

/-- Without a repository the target is in that of the text. -/
inductive ReferenceTarget
  | pullRequest (repo : Option RepoSlug) (number : Number)
  | commit (repo : Option RepoSlug) (sha : Text)
  | commitPrefix (repo : Option RepoSlug) (start : Text)
  deriving DecidableEq

inductive ReferenceConfidence
  | derived
  | heuristic
  deriving DecidableEq

structure ExtractedReference where
  referenceKey : Text
  target : ReferenceTarget
  confidence : ReferenceConfidence
  evidence : Text
  deriving DecidableEq

def scopeText : Option RepoSlug → Text
  | none => []
  | some slug => 'x' :: ':' :: (slug.owner ++ '/' :: (slug.name ++ [':']))

def referenceKey : ReferenceTarget → Text
  | .pullRequest repo number => scopeText repo ++ ("pr:".toList ++ number.toText)
  | .commit repo sha => scopeText repo ++ ("commit:".toList ++ sha)
  | .commitPrefix repo start => scopeText repo ++ ("commit-prefix:".toList ++ start)

/-- A character of one class, and then as many of another as there are. -/
def segment (first more : Char → Bool) : Text → Option (Text × Text)
  | [] => none
  | c :: rest =>
      if first c then some (c :: rest.takeWhile more, rest.dropWhile more) else none

/-- The text after a given beginning. -/
def after (front : Text) (text : Text) : Option Text :=
  if front <+: text then some (text.drop front.length) else none

def isKeyFirst (c : Char) : Bool := c.isDigit || c.isLower

def isSlugMark (c : Char) : Bool := c == '.' || c == '_' || c == '-'

def isKeyMore (c : Char) : Bool := isKeyFirst c || isSlugMark c

/-- `x:(?<owner>…)\/(?<name>…):` -/
def parseScope (key : Text) : Option (RepoSlug × Text) := do
  let rest ← after ['x', ':'] key
  let (owner, rest) ← segment isKeyFirst isKeyMore rest
  let rest ← after ['/'] rest
  let (name, rest) ← segment isKeyFirst isKeyMore rest
  let rest ← after [':'] rest
  some (⟨owner, name⟩, rest)

/-- `(?:pr:(?<pr>\d+)|commit:(?<sha>[0-9a-f]+)|commit-prefix:(?<prefix>[0-9a-f]+))$` -/
def parseLocator (repo : Option RepoSlug) (text : Text) : Option ReferenceTarget :=
  let pr := (after "pr:".toList text).filter isDigits
  let sha := (after "commit:".toList text).filter isHexText
  let start := (after "commit-prefix:".toList text).filter isHexText
  (pr.map fun digits => .pullRequest repo (ofDigits digits)) <|>
    (sha.map fun sha => .commit repo sha) <|> start.map fun start => .commitPrefix repo start

/-- A key that begins with a scope is nothing without it. -/
def parseReferenceKey (key : Text) : Option ReferenceTarget :=
  match parseScope key with
  | some (slug, rest) => parseLocator (some slug) rest
  | none => parseLocator none key

def commitReferenceKeys (sha : Text) (repo : Option RepoSlug) : List Text :=
  let full := sha.map Char.toLower
  referenceKey (.commit repo full) ::
    (List.range' minShaPrefixLength (maxReferenceShaPrefixLength + 1 - minShaPrefixLength)).map
      fun length => referenceKey (.commitPrefix repo (full.take length))

def pullRequestReferenceKeys (prNumber : Number) (repo : Option RepoSlug) : List Text :=
  [referenceKey (.pullRequest repo prNumber)]

/-! ### The expressions -/

/-- The groups of a match. -/
inductive ScanMatch
  | url (raw : Text)
  | cross (owner name digits : Text)
  | number (digits : Text)
  | full (sha : Text)
  | abbrev_ (sha : Text)
  deriving DecidableEq

/-- The characters themselves -/
def literal (text : String) : List Piece := text.toList.map fun letter => one (· == letter)

def isUrlChar (c : Char) : Bool := !(isSpace c || "<>()[]\"'".toList.contains c)

/-- `https?:\/\/[^\s<>()\[\]"']+` -/
def urlPattern : Pattern :=
  ⟨literal "http" ++ [perhaps (· == 's')] ++ literal "://", ⟨isUrlChar, 1, none⟩, []⟩

/-- `#(?<num>\d+)` -/
def numberPattern : Pattern := ⟨[one (· == '#')], ⟨Char.isDigit, 1, none⟩, []⟩

/-- `\b(?<full>[0-9a-fA-F]{40})\b` -/
def fullPattern : Pattern := ⟨[.boundary], shaRun, [.boundary]⟩

/-- `\b(?<abbrev>[0-9a-fA-F]{7,12})\b` -/
def abbrevPattern : Pattern :=
  ⟨[.boundary],
    ⟨fun c => isHex c.toLower, minShaPrefixLength, some maxReferenceShaPrefixLength⟩, [.boundary]⟩

def isSlugMore (c : Char) : Bool := c.isAlphanum || isSlugMark c

/-- `[A-Za-z0-9][A-Za-z0-9._-]*` -/
def slugSegment : Text → Option (Text × Text) := segment Char.isAlphanum isSlugMore

/-- Neither `/` nor `#` may stand in a segment, so that a shorter one never helps. -/
def matchCross (text : Text) : Option (ScanMatch × Text) := do
  let (owner, rest) ← slugSegment text
  let rest ← after ['/'] rest
  let (name, rest) ← slugSegment rest
  let rest ← after ['#'] rest
  let (digits, rest) ← segment Char.isDigit Char.isDigit rest
  some (.cross owner name digits, rest)

/-- `SCAN` at a place: the first of the alternatives that matches. -/
def scanAt (before : Option Char) (text : Text) : Option (ScanMatch × Text) :=
  let url := (urlPattern.matchAt before text).map fun found =>
    (.url (text.take (text.length - found.2.length)), found.2)
  let number := (numberPattern.matchAt before text).map fun found => (.number found.1, found.2)
  let full := (fullPattern.matchAt before text).map fun found => (.full found.1, found.2)
  let abbrev_ := (abbrevPattern.matchAt before text).map fun found => (.abbrev_ found.1, found.2)
  url <|> matchCross text <|> number <|> full <|> abbrev_

/-! ### The lines -/

structure LineSpan where
  start : Nat
  stop : Nat
  -- the offset after the colon, in the line of a trailer
  trailerFrom : Option Nat
  deriving DecidableEq, Repr

/-- `^[ \t]*(?:refs|closes|fixes|resolves)[ \t]*:`, for one of the words -/
def trailerPattern (keyword : String) : Pattern :=
  ⟨[.run ⟨isBlank, 0, none⟩] ++ word keyword ++ [.run ⟨isBlank, 0, none⟩], ⟨(· == ':'), 1, some 1⟩, []⟩

/-- The length of the beginning that `TRAILER_LINE` matches. -/
def trailerLength (line : Text) : Option Nat :=
  ["refs", "closes", "fixes", "resolves"].findSome? fun keyword =>
    ((trailerPattern keyword).matchAt none line).map fun found => units line - units found.2

/-- The loop of `lineIndex`, from an offset on. -/
def lineSpans : Nat → List Text → List LineSpan
  | _, [] => []
  | start, line :: lines =>
      ⟨start, start + units line, (trailerLength line).map (start + ·)⟩ ::
        lineSpans (start + units line + 1) lines

def lineIndex (text : Text) : List LineSpan := lineSpans 0 (text.splitOn '\n')

/-- The search between two places, the second one excluded. Every round leaves fewer of them. -/
def lineAtFrom (lines : List LineSpan) (offset : Nat) : Nat → Nat → Nat → Option LineSpan
  | 0, _, _ => none
  | rounds + 1, low, high =>
      if low < high then
        let mid := (low + (high - 1)) / 2
        match lines[mid]? with
        | none => none
        | some span =>
            if offset < span.start then lineAtFrom lines offset rounds low mid
            else if span.stop < offset then lineAtFrom lines offset rounds (mid + 1) high
            else some span
      else none

def lineAt (lines : List LineSpan) (offset : Nat) : Option LineSpan :=
  lineAtFrom lines offset lines.length 0 lines.length

def inTrailer (lines : List LineSpan) (offset : Nat) : Bool :=
  ((lineAt lines offset).bind LineSpan.trailerFrom).any (· ≤ offset)

def evidenceAt (original : Text) (lines : List LineSpan) (offset : Nat) : Text :=
  match lineAt lines offset with
  | none => []
  | some span =>
      let line := trim (splitUnits (span.stop - span.start) (splitUnits span.start original).2).1
      if units line ≤ evidenceLimit then line
      else takeUnits (evidenceLimit - 1) line ++ ['…']

/-! ### Extraction -/

section Extract

-- What `new URL` makes of a text with a scheme; `String.prototype.toLowerCase`
variable (absoluteUrl : Text → Option Url) (toLowerCase : Text → Text)

def normalizeSlug (slug : RepoSlug) : RepoSlug := ⟨toLowerCase slug.owner, toLowerCase slug.name⟩

/-- A reference to the repository of the text is one without a repository. -/
def scopeOf (slug source : RepoSlug) : Option RepoSlug :=
  let normalized := normalizeSlug toLowerCase slug
  if normalized.owner = source.owner ∧ normalized.name = source.name then none else some normalized

def normalizeHost (host : Option Text) : Option Text :=
  match host with
  | none => none
  | some [] => none
  | some host =>
      let address := if "://".toList <:+: host then host else "https://".toList ++ host
      (newUrl absoluteUrl address).map fun url => toLowerCase url.host

/-- `[.,;:!?)\]}'"»]` -/
def isTrailingPunctuation (c : Char) : Bool := ".,;:!?)]\x7d'\"»".toList.contains c

inductive Resource
  | pull
  | commit
  deriving DecidableEq

/-- `(pull|commit)` -/
def matchResource (text : Text) : Option (Resource × Text) :=
  ((after "pull".toList text).map (Resource.pull, ·)) <|>
    (after "commit".toList text).map (Resource.commit, ·)

def isPathChar (c : Char) : Bool := c != '/' && c != '?' && c != '#'

/-- `^\/(SEGMENT)\/(SEGMENT)\/(pull|commit)\/([^/?#]+)\/?$` -/
def matchPath (path : Text) : Option (RepoSlug × Resource × Text) := do
  let rest ← after ['/'] path
  let (owner, rest) ← slugSegment rest
  let rest ← after ['/'] rest
  let (name, rest) ← slugSegment rest
  let rest ← after ['/'] rest
  let (resource, rest) ← matchResource rest
  let rest ← after ['/'] rest
  let (value, rest) ← segment isPathChar isPathChar rest
  if rest = [] ∨ rest = ['/'] then some (⟨owner, name⟩, resource, value) else none

/-- What the last part of an address names. -/
def pathTarget (repo : Option RepoSlug) (value : Text) : Resource → Option ReferenceTarget
  | .pull => if isDigits value then some (.pullRequest repo (ofDigits value)) else none
  | .commit =>
      let sha := value.map Char.toLower
      if isHexText sha ∧ sha.length = fullShaLength then some (.commit repo sha)
      else if isHexText sha ∧ minShaPrefixLength ≤ sha.length ∧
          sha.length ≤ maxReferenceShaPrefixLength then some (.commitPrefix repo sha)
      else none

def fromUrl (raw : Text) (source : RepoSlug) (host : Option Text) : Option ReferenceTarget :=
  match host with
  | none => none
  | some host =>
      match newUrl absoluteUrl (raw.rdropWhile isTrailingPunctuation) with
      | none => none
      | some url =>
          if toLowerCase url.host ≠ host then none
          else
            (matchPath url.pathname).bind fun (slug, resource, value) =>
              pathTarget (scopeOf toLowerCase slug source) value resource

def toTarget (source : RepoSlug) (host : Option Text) : ScanMatch → Option ReferenceTarget
  | .url raw => fromUrl absoluteUrl toLowerCase raw source host
  | .cross owner name digits =>
      some (.pullRequest (scopeOf toLowerCase ⟨owner, name⟩ source) (ofDigits digits))
  | .number digits => some (.pullRequest none (ofDigits digits))
  | .full sha => some (.commit none (sha.map Char.toLower))
  | .abbrev_ start => some (.commitPrefix none (start.map Char.toLower))

structure ExtractOptions where
  sourceRepo : RepoSlug
  gheHost : Option Text := none
  limit : Nat := referenceLimit

/-- A target with the offset of its expression. -/
abbrev Occurrence := Nat × ReferenceTarget

/-- The matches of the loop that have a target. -/
def occurrences (masked : Text) (options : ExtractOptions) : List Occurrence :=
  (scan scanAt masked).filterMap fun found =>
    (toTarget absoluteUrl toLowerCase (normalizeSlug toLowerCase options.sourceRepo)
      (normalizeHost absoluteUrl toLowerCase options.gheHost) found.2).map (found.1, ·)

/-- One round of the loop. A reference that is there already keeps its place, and can only get a
stronger confidence. -/
def record (text : Text) (lines : List LineSpan) (limit : Nat) (found : List ExtractedReference)
    (occurrence : Occurrence) : List ExtractedReference :=
  let key := referenceKey occurrence.2
  let confidence : ReferenceConfidence :=
    if inTrailer lines occurrence.1 then .derived else .heuristic
  let evidence := evidenceAt text lines occurrence.1
  match found.find? fun entry => entry.referenceKey = key with
  | none =>
      if limit ≤ found.length then found
      else found ++ [⟨key, occurrence.2, confidence, evidence⟩]
  | some existing =>
      if existing.confidence = .heuristic ∧ confidence = .derived then
        found.map fun entry =>
          if entry.referenceKey = key then { existing with confidence, evidence } else entry
      else found

def extractReferences (text : Text) (options : ExtractOptions) : List ExtractedReference :=
  let masked := maskExcluded text
  (occurrences absoluteUrl toLowerCase masked options).foldl
    (record text (lineIndex masked) options.limit) []

end Extract

end PrSearch.Relation.Reference
