import Mathlib.Data.List.Basic

/-! # Search queries: keys, syntax trees and errors

A string of a query is the list of its characters. The keys fall into three kinds: keys with an
equality condition, and keys with a range of numbers or of times. What a condition of one kind
cannot say cannot be written down in another.
-/
namespace PrSearch.Query

abbrev Text := List Char

-- What holds of all characters of a text is decided along the text, not over all characters.
instance (priority := high) {p : Char → Prop} [DecidablePred p] (text : Text) :
    Decidable (∀ c ∈ text, p c) :=
  List.decidableBAll p text

/-! ### Keys -/

/-- The keys that have equality conditions only. -/
inductive EqualityKey
  | repo
  | org
  | author
  | team
  | authorTeam
  | reviewer
  | label
  | base
  | head
  | state
  | release
  | path
  | is
  | kind
  deriving DecidableEq, Repr

inductive NumericRangeKey
  | seq
  | changedFiles
  | changedLines
  | prNumber
  | mnum
  deriving DecidableEq, Repr

inductive TemporalRangeKey
  | merged
  | created
  deriving DecidableEq, Repr

inductive QueryKey
  | equality (key : EqualityKey)
  | numeric (key : NumericRangeKey)
  | temporal (key : TemporalRangeKey)
  deriving DecidableEq, Repr

def EqualityKey.text : EqualityKey → Text
  | repo => "repo".toList
  | org => "org".toList
  | author => "author".toList
  | team => "team".toList
  | authorTeam => "author_team".toList
  | reviewer => "reviewer".toList
  | label => "label".toList
  | base => "base".toList
  | head => "head".toList
  | state => "state".toList
  | release => "release".toList
  | path => "path".toList
  | is => "is".toList
  | kind => "kind".toList

def NumericRangeKey.text : NumericRangeKey → Text
  | seq => "seq".toList
  | changedFiles => "changed_files".toList
  | changedLines => "changed_lines".toList
  | prNumber => "pr_number".toList
  | mnum => "mnum".toList

def TemporalRangeKey.text : TemporalRangeKey → Text
  | merged => "merged".toList
  | created => "created".toList

def QueryKey.text : QueryKey → Text
  | equality key => key.text
  | numeric key => key.text
  | temporal key => key.text

/-- `QUERY_KEYS`, in its order. -/
def queryKeys : List QueryKey :=
  [.equality .repo, .equality .org, .equality .author, .equality .team, .equality .authorTeam,
    .equality .reviewer, .equality .label, .equality .base, .equality .head, .equality .state,
    .temporal .merged, .temporal .created, .numeric .seq, .equality .release, .equality .path,
    .equality .is, .equality .kind, .numeric .changedFiles, .numeric .changedLines,
    .numeric .prNumber, .numeric .mnum]

/-- The key with this name. -/
def isQueryKey (value : Text) : Option QueryKey := queryKeys.find? fun key => key.text = value

-- Keys have names of their own, so that a name is read back as its key.
theorem isQueryKey_text (key : QueryKey) : isQueryKey key.text = some key := by
  rcases key with key | key | key <;> cases key <;> decide

/-- Keys that take a single number for a range. -/
def acceptsSingleValue : NumericRangeKey → Bool
  | .mnum => true
  | _ => false

/-- The least number of a key, where there is one. -/
def minRangeValue : NumericRangeKey → Option Int
  | .prNumber | .mnum => some 1
  | _ => none

def QueryKey.rangeExample : QueryKey → String
  | numeric .seq => "seq:1200..1350"
  | temporal .merged => "merged:2026-08-10..2026-08-19"
  | temporal .created => "created:2026-08-10..2026-08-19"
  | numeric .changedFiles => "changed_files:2..5"
  | numeric .changedLines => "changed_lines:51..200"
  | numeric .prNumber => "repo:acme/payments pr_number:100..200"
  | numeric .mnum => "repo:acme/payments base:main mnum:1..50"
  | equality _ => ""

/-- The values of a key whose values are enumerated. -/
def enumeratedValues : EqualityKey → Option (List Text)
  | .is => some ["merged".toList, "open".toList, "closed".toList, "reverted".toList]
  | .kind => some ["pull_request".toList, "commit".toList]
  | _ => none

/-! ### Syntax trees -/

/-- A condition; `op` is told by its kind and by `negated`. The bounds of a range of times stay as
they have been written. -/
inductive QueryFilter
  | equality (key : EqualityKey) (negated : Bool) (values : List Text)
  | numeric (key : NumericRangeKey) (negated : Bool) (lower upper : Int)
  | temporal (key : TemporalRangeKey) (negated : Bool) (lower upper : Text)
      (timezone : Option Text)
  deriving DecidableEq, Repr

structure QueryAst where
  filters : List QueryFilter
  text : Option Text
  deriving DecidableEq, Repr

namespace QueryFilter

def key : QueryFilter → QueryKey
  | equality key .. => .equality key
  | numeric key .. => .numeric key
  | temporal key .. => .temporal key

def isNegated : QueryFilter → Bool
  | equality _ negated _ => negated
  | numeric _ negated _ _ => negated
  | temporal _ negated _ _ _ => negated

end QueryFilter

/-! ### Errors -/

inductive QueryErrorCode
  | querySyntaxError
  | queryTooShort
  deriving DecidableEq, Repr

structure QueryErrorDetail where
  token : Text
  offsetStart : Nat
  offsetEnd : Nat
  supportedKeys : Option (List Text) := none
  allowedValues : Option (List Text) := none
  deriving DecidableEq, Repr

structure QueryParseError where
  code : QueryErrorCode
  message : Text
  detail : QueryErrorDetail
  deriving DecidableEq, Repr

def unsupportedKey (key token : Text) (start stop : Nat) : QueryParseError where
  code := .querySyntaxError
  message := "Unsupported search key: '".toList ++ key ++ "'".toList
  detail := { token := token, offsetStart := start, offsetEnd := stop,
              supportedKeys := some (queryKeys.map QueryKey.text) }

def rangeOnlyKey (key : QueryKey) (token : Text) (start stop : Nat) : QueryParseError where
  code := .querySyntaxError
  message := "'".toList ++ key.text ++ "' only supports ranges (for example: ".toList ++
    key.rangeExample.toList ++ ")".toList
  detail := { token := token, offsetStart := start, offsetEnd := stop }

def syntaxError (message token : Text) (start stop : Nat) : QueryParseError where
  code := .querySyntaxError
  message := message
  detail := { token := token, offsetStart := start, offsetEnd := stop }

end PrSearch.Query
