import Mathlib.Data.List.DropRight
import PrSearch.Lib.Pattern
import PrSearch.Relation.Snapshots

/-! # What a text says about other entities

A revert names a commit by a trailer, or an entity by its title; a cherry-pick names a commit by a
trailer. Nothing is read inside code and quotations: these are covered with blanks before the
patterns are looked for. A commit that a trailer names can be found in the text itself.
-/
namespace PrSearch.Relation

open Query (Text isSpace units)
open Pattern

/-! ### Pieces of the patterns -/

def isBlank (c : Char) : Bool := c == ' ' || c == '\t'

/-- The characters of a word, in capitals or not. -/
def word (letters : String) : List Piece :=
  letters.toList.map fun letter => .run ⟨fun c => c.toLower == letter, 1, some 1⟩

def one (accepts : Char → Bool) : Piece := .run ⟨accepts, 1, some 1⟩

def perhaps (accepts : Char → Bool) : Piece := .run ⟨accepts, 0, some 1⟩

def spaces : Piece := .run ⟨isSpace, 0, none⟩

def someSpaces : Piece := .run ⟨isSpace, 1, none⟩

def shaRun : Run := ⟨fun c => isHex c.toLower, 40, some 40⟩

/-! ### What is covered -/

/-- Up to three blanks, and then three or more of the character. -/
def fence (mark : Char) : Pattern := ⟨[.run ⟨isBlank, 0, some 3⟩], ⟨(· == mark), 3, none⟩, []⟩

def opener (line : Text) : Option Text := (fence '`').matchStart line <|> (fence '~').matchStart line

def quotation : Pattern := ⟨[.run ⟨isBlank, 0, some 3⟩], ⟨(· == '>'), 1, some 1⟩, []⟩

def backticks : Pattern := ⟨[], ⟨(· == '`'), 1, none⟩, []⟩

def blank (line : Text) : Text := line.flatMap fun c => List.replicate (size c) ' '

/-- The spans of inline code: a run of backticks is closed by the next one of its length. The first
argument is the run that is open. -/
def codeSpans : Option (Nat × Text) → List (Nat × Text) → List (Nat × Nat)
  | _, [] => []
  | none, run :: runs => codeSpans (some run) runs
  | some (start, ticks), run :: runs =>
      if run.2.length = ticks.length then
        (start, run.1 + run.2.length) :: codeSpans none runs
      else codeSpans (some (start, ticks)) runs

/-- The characters at the offsets of the spans become blanks. -/
def cover (spans : List (Nat × Nat)) : Nat → Text → Text
  | _, [] => []
  | offset, c :: rest =>
      (if ∃ span ∈ spans, span.1 ≤ offset ∧ offset < span.2 then List.replicate (size c) ' '
        else [c]) ++ cover spans (offset + size c) rest

def maskInlineCode (line : Text) : Text := cover (codeSpans none (backticks.allMatches line)) 0 line

/-- The closing fence has the character of the opening one and is not shorter. -/
def closes (fence line : Text) : Bool :=
  (opener line).any fun run => run.head? == fence.head? && fence.length ≤ run.length

/-- The lines, from one that may be inside a fence. -/
def maskLines : Option Text → List Text → List Text
  | _, [] => []
  | some fence, line :: lines =>
      blank line :: maskLines (if closes fence line then none else some fence) lines
  | none, line :: lines =>
      match opener line with
      | some run => blank line :: maskLines (some run) lines
      | none =>
          if (quotation.matchStart line).isSome then blank line :: maskLines none lines
          else maskInlineCode line :: maskLines none lines

def maskExcluded (text : Text) : Text :=
  ['\n'].intercalate (maskLines none (text.splitOn '\n'))

/-! ### Evidence and titles -/

def trim (text : Text) : Text := (text.dropWhile isSpace).rdropWhile isSpace

/-- The longest beginning that has at most so many code units. -/
def takeUnits : Nat → Text → Text
  | _, [] => []
  | left, c :: rest => if size c ≤ left then c :: takeUnits (left - size c) rest else []

/-- The text before an offset and the text from there on. -/
def splitUnits : Nat → Text → Text × Text
  | _, [] => ([], [])
  | 0, text => ([], text)
  | left + 1, c :: rest =>
      let (front, back) := splitUnits (left + 1 - size c) rest
      (c :: front, back)

def evidenceLimit : Nat := 200

/-- The line of an offset. Between the newline at an offset and itself there is nothing. -/
def evidenceLine (original : Text) (offset : Nat) : Text :=
  let (front, back) := splitUnits offset original
  let line := trim (if back.head? = some '\n' then []
    else front.rtakeWhile (· != '\n') ++ back.takeWhile (· != '\n'))
  if units line ≤ evidenceLimit then line else takeUnits (evidenceLimit - 1) line ++ ['…']

def commitSubject (message : Text) : Text := trim (Snapshots.firstLine message)

def stripQuotes (raw : Text) : Text :=
  let trimmed := trim raw
  let first := trimmed.head?
  let last := trimmed.getLast?
  if (first = some '"' ∧ last = some '"') ∨ (first = some '“' ∧ last = some '”') then
    trimmed.tail.dropLast
  else trimmed

def titleMax : Nat := 512

/-- Runs of spaces become one blank. The flag tells whether a space has come last. -/
def collapse : Bool → Text → Text
  | _, [] => []
  | spaced, c :: rest =>
      if isSpace c then (if spaced then [] else [' ']) ++ collapse true rest
      else c :: collapse false rest

def normalizeTitle (raw : Text) : Option Text :=
  let collapsed := trim (collapse false raw)
  if collapsed = [] ∨ titleMax < units collapsed then none else some collapsed

/-! ### Reverts -/

inductive RevertTarget
  | commit (sha : Sha)
  | title (title : Text)
  deriving DecidableEq

inductive RevertConfidence
  | exact_
  | heuristic
  deriving DecidableEq

structure ExtractedRevert where
  target : RevertTarget
  confidence : RevertConfidence
  evidence : Text
  deriving DecidableEq

/-- `this\s+reverts\s+commit\s+([0-9a-f]{40})\b` -/
def revertTrailer : Pattern where
  lead := word "this" ++ [someSpaces] ++ word "reverts" ++ [someSpaces] ++ word "commit" ++
    [someSpaces]
  group := shaRun
  trail := [.boundary]

/-- `\brevert\s*:?\s*["“]([^"”\n]{1,512})["”]` -/
def revertQuoted : Pattern where
  lead := [.boundary] ++ word "revert" ++ [spaces, perhaps (· == ':'), spaces,
    one fun c => c == '"' || c == '“']
  group := ⟨fun c => c != '"' && c != '”' && c != '\n', 1, some 512⟩
  trail := [one fun c => c == '"' || c == '”']

def isLineEnd (c : Char) : Bool := c == '\n' || c == '\r' || c == '\u2028' || c == '\u2029'

/-- `^\s*revert\s*:?\s+(.+)$` -/
def revertPrefix : Pattern where
  lead := [spaces] ++ word "revert" ++ [spaces, perhaps (· == ':'), someSpaces]
  group := ⟨fun c => !isLineEnd c, 1, none⟩
  trail := [.ending]

theorem length_of_sha {text : Text} (is : text.length = 40 ∧ ∀ c ∈ text, isHex c = true) :
    text.length = 40 := is.1

theorem hexadecimal_of_sha {text : Text} (is : text.length = 40 ∧ ∀ c ∈ text, isHex c = true) :
    ∀ c ∈ text, isHex c = true := is.2

/-- The name that forty hexadecimal digits write in lower case. -/
def shaOf (digits : Text) : Option Sha :=
  let text := digits.map Char.toLower
  if holds : text.length = 40 ∧ ∀ c ∈ text, isHex c = true then
    some ⟨text, length_of_sha holds, hexadecimal_of_sha holds⟩
  else none

/-- The commits that the pattern names, with the offsets of the matches. -/
def named (pattern : Pattern) (text : Text) : List (Nat × Sha) :=
  (pattern.allMatches text).filterMap fun found => (shaOf found.2).map (found.1, ·)

section Extract

-- `String.prototype.toLowerCase`
variable (toLowerCase : Text → Text)

/-- What two expressions have in common that count once. -/
def RevertTarget.key : RevertTarget → RevertTarget
  | .commit sha => .commit sha
  | .title text => .title (toLowerCase text)

def titleRevert (text raw : Text) (offset : Nat) : Option ExtractedRevert :=
  (normalizeTitle raw).map fun title => ⟨.title title, .heuristic, evidenceLine text offset⟩

def extractReverts (text : Text) (isPullRequestTitle : Bool) : List ExtractedRevert :=
  let masked := maskExcluded text
  let trailers := (named revertTrailer masked).map fun found =>
    (⟨.commit found.2, .exact_, evidenceLine text found.1⟩ : ExtractedRevert)
  let quoted := (revertQuoted.allMatches masked).filterMap fun found =>
    titleRevert text found.2 found.1
  let prefixed := if isPullRequestTitle then
      ((revertPrefix.matchStart masked).bind fun found =>
        titleRevert text (stripQuotes found) 0).toList
    else []
  Rows.firsts (fun entry => entry.target.key toLowerCase) (trailers ++ quoted ++ prefixed)

def ExtractedRevert.byTitle (entry : ExtractedRevert) : Bool :=
  match entry.target with
  | .commit _ => false
  | .title _ => true

def extractCommitReverts (message : Text) : List ExtractedRevert :=
  let body := extractReverts toLowerCase message false
  if body.any ExtractedRevert.byTitle then body
  else body ++ (extractReverts toLowerCase (commitSubject message) true).filter
    ExtractedRevert.byTitle

end Extract

/-! ### Cherry-picks -/

structure ExtractedCherryPick where
  sha : Sha
  evidence : Text
  deriving DecidableEq

/-- `\(\s*cherry\s+picked\s+from\s+commit\s+([0-9a-f]{40})\s*\)` -/
def cherryTrailer : Pattern where
  lead := [one (· == '('), spaces] ++ word "cherry" ++ [someSpaces] ++ word "picked" ++
    [someSpaces] ++ word "from" ++ [someSpaces] ++ word "commit" ++ [someSpaces]
  group := shaRun
  trail := [spaces, one (· == ')')]

def extractCherryPicks (message : Text) : List ExtractedCherryPick :=
  Rows.firsts ExtractedCherryPick.sha <| (named cherryTrailer (maskExcluded message)).map fun found =>
    ⟨found.2, evidenceLine message found.1⟩

/-! ### What is left of a text

A character is left as it is or becomes one blank or more. What has no blanks in it and stands in the
covered text stands in the text itself. -/

inductive Masked : Text → Text → Prop
  | nil : Masked [] []
  | keep {c : Char} {text masked : Text} : Masked text masked → Masked (c :: text) (c :: masked)
  | hide {c : Char} {text masked : Text} : Masked text masked → Masked (c :: text) (' ' :: masked)
  | pad {text masked : Text} : Masked text masked → Masked text (' ' :: masked)

namespace Masked

variable {text masked : Text}

theorem refl (text : Text) : Masked text text := by
  induction text with
  | nil => exact .nil
  | cons c text ih => exact .keep ih

theorem append {text' masked' : Text} (first : Masked text masked) (second : Masked text' masked') :
    Masked (text ++ text') (masked ++ masked') := by
  induction first with
  | nil => exact second
  | keep _ ih => exact .keep ih
  | hide _ ih => exact .hide ih
  | pad _ ih => exact .pad ih

-- The blanks of a character: its size is not zero.
theorem hides (c : Char) (is : Masked text masked) :
    Masked (c :: text) (List.replicate (size c) ' ' ++ masked) := by
  unfold size
  split
  next => exact .hide is
  next => exact .pad (.hide is)

theorem beginning (is : Masked text masked) {part rest : Text} (whole : masked = part ++ rest)
    (solid : ∀ c ∈ part, c ≠ ' ') : part <+: text := by
  induction is generalizing part with
  | nil =>
    obtain ⟨rfl, -⟩ := List.append_eq_nil_iff.mp whole.symm
    exact List.nil_prefix
  | keep _ ih =>
    cases part with
    | nil => exact List.nil_prefix
    | cons d part =>
      obtain ⟨rfl, later⟩ := List.cons.inj whole
      exact List.cons_prefix_cons.mpr ⟨rfl, ih later fun c member =>
        solid c (List.mem_cons_of_mem _ member)⟩
  | hide _ _ | pad _ _ =>
    cases part with
    | nil => exact List.nil_prefix
    | cons d part =>
      obtain ⟨is, _⟩ := List.cons.inj whole
      exact absurd is.symm (solid d List.mem_cons_self)

theorem solid (is : Masked text masked) {part : Text} (inside : part <:+: masked)
    (noBlank : ∀ c ∈ part, c ≠ ' ') : part <:+: text := by
  induction is with
  | nil => exact inside
  | @keep c text masked rest ih =>
    rcases List.infix_cons_iff.mp inside with ⟨after, whole⟩ | later
    · exact ((Masked.keep rest).beginning whole.symm noBlank).isInfix
    · exact (ih later).trans (List.suffix_cons c text).isInfix
  | @hide c text masked rest ih =>
    rcases List.infix_cons_iff.mp inside with ⟨after, whole⟩ | later
    · exact ((Masked.hide rest).beginning whole.symm noBlank).isInfix
    · exact (ih later).trans (List.suffix_cons c text).isInfix
  | @pad text masked rest ih =>
    rcases List.infix_cons_iff.mp inside with ⟨after, whole⟩ | later
    · exact ((Masked.pad rest).beginning whole.symm noBlank).isInfix
    · exact ih later

end Masked

theorem masked_blank (line : Text) : Masked line (blank line) := by
  induction line with
  | nil => exact .nil
  | cons c line ih => exact ih.hides c

theorem masked_cover (spans : List (Nat × Nat)) (offset : Nat) (line : Text) :
    Masked line (cover spans offset line) := by
  induction line generalizing offset with
  | nil => exact .nil
  | cons c line ih =>
    rw [cover]
    split
    next => exact (ih _).hides c
    next => exact .keep (ih _)

theorem masked_lines (fence : Option Text) (lines : List Text) :
    List.Forall₂ Masked lines (maskLines fence lines) := by
  induction lines generalizing fence with
  | nil => cases fence <;> exact .nil
  | cons line lines ih =>
    cases fence with
    | some fence => exact .cons (masked_blank line) (ih _)
    | none =>
      rw [maskLines]
      split
      next => exact .cons (masked_blank line) (ih _)
      next =>
        split
        next => exact .cons (masked_blank line) (ih _)
        next => exact .cons (masked_cover _ _ line) (ih _)

theorem Masked.intercalate (separator : Text) {lines masked : List Text}
    (each : List.Forall₂ Masked lines masked) :
    Masked (separator.intercalate lines) (separator.intercalate masked) := by
  induction each with
  | nil => exact .nil
  | @cons line maskedLine lines masked is rest ih =>
    cases rest with
    | nil => simpa using is
    | cons =>
      rw [List.intercalate_cons_cons, List.intercalate_cons_cons]
      exact (is.append (Masked.refl separator)).append ih

theorem masked_maskExcluded (text : Text) : Masked text (maskExcluded text) := by
  have each := Masked.intercalate ['\n'] (masked_lines none (text.splitOn '\n'))
  rwa [List.intercalate_splitOn] at each

/-! ### A commit that is named is mentioned -/

theorem ne_blank_of_isHex {c : Char} (holds : isHex c.toLower = true) : c ≠ ' ' := by
  rintro rfl
  exact absurd holds (by decide)

theorem mentioned_of_named {pattern : Pattern} (sha : pattern.group = shaRun) {text : Text}
    {found : Nat × Sha} (member : found ∈ named pattern (maskExcluded text)) :
    found.2.text <:+: Snapshots.lower text := by
  obtain ⟨one, matched, made⟩ := List.mem_filterMap.mp member
  obtain ⟨inside, digits⟩ := of_mem_allMatches matched
  have there : one.2 <:+: text := by
    refine (masked_maskExcluded text).solid inside fun c has => ?_
    have hex := digits c has
    rw [sha] at hex
    exact ne_blank_of_isHex hex
  have written : found.2.text = Snapshots.lower one.2 := by
    simp only [shaOf] at made
    split at made
    next => exact (congrArg (fun named : Nat × Sha => named.2.text) (Option.some.inj made)).symm
    next => simp at made
  rw [written]
  exact there.map Char.toLower

section Mentions

variable {toLowerCase : Text → Text} {message : Text} {sha : Sha}

theorem mentioned_of_extractCherryPicks {pick : ExtractedCherryPick}
    (member : pick ∈ extractCherryPicks message) : pick.sha.text <:+: Snapshots.lower message := by
  obtain ⟨found, found_in, rfl⟩ := List.mem_map.mp (Rows.of_mem_firsts member)
  exact mentioned_of_named rfl found_in

end Mentions

end PrSearch.Relation
