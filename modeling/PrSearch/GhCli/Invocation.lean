import Mathlib.Data.Rat.Defs
import Mathlib.Data.List.SplitOn
import PrSearch.Query.Serialize

/-! # Invocations of the command line tool

A capability definition says which path it has and which options it takes. An invocation is what a
user asks for: it comes over the network, and every value in it can be anything. What is accepted is
normalized: the value of each option in the order of the definition.
-/
namespace PrSearch.GhCli

open Query

/-- The four kinds of option. -/
inductive GhOption
  | enum (flag : Text) (values : List Text) (defaultValue : Text)
  | int (flag : Text) (min max defaultValue : Int)
  | jsonFields (flag : Text) (allowed defaultValue : List Text) (minItems maxItems : Int)
  | bool (flag : Text) (defaultValue : Bool)

namespace GhOption

def flag : GhOption → Text
  | .enum flag .. | .int flag .. | .jsonFields flag .. | .bool flag _ => flag

def isJsonFields : GhOption → Bool
  | .jsonFields .. => true
  | _ => false

def isInt : GhOption → Bool
  | .int .. => true
  | _ => false

def isBool : GhOption → Bool
  | .bool .. => true
  | _ => false

/-- The flag is written with a value behind it. -/
def takesValue : GhOption → Bool
  | .enum .. | .int .. => true
  | _ => false

end GhOption

inductive ContextKind
  | repository
  | host
deriving DecidableEq

/-- What must hold between options. -/
inductive GhConstraint
  | requires (flag : Text) (requires : List Text)
  | conflicts (flags : List Text)
  | oneOf (flags : List Text)
  | exactlyOne (flags : List Text)
  | atLeastOne (flags : List Text)
  | implies (flag : Text) (whenValue : Option Text) (implies : Text)
  | requiredIf (flag whenFlag whenValue : Text)
  | inputSourceExclusive (sources : List Text)
  | contextRequired (context : ContextKind)

structure GhCapabilityDefinition where
  id : Text
  path : List Text
  options : List GhOption
  constraints : List GhConstraint

/-- A value as it arrives. Of an array the items that are strings are told from those that are not;
`other` is any value of another kind. -/
inductive RawValue
  | undefined
  | text (text : Text)
  | number (number : ℚ)
  | bool (value : Bool)
  | list (items : List (Option Text))
  | other

/-- An object has one value for a key. -/
structure RawFlags where
  entries : List (Text × RawValue)
  once : (entries.map Prod.fst).Nodup

def RawFlags.get (flags : RawFlags) (flag : Text) : RawValue :=
  (flags.entries.lookup flag).getD .undefined

/-- `further` are the other keys of the object that hold a value. -/
structure GhInvocation where
  repository : RawValue
  flags : RawFlags
  jsonFields : RawValue
  further : List Text

structure RepositorySlug where
  owner : Text
  name : Text
deriving DecidableEq

/-- A value that has been checked. -/
inductive OptionValue
  | text (text : Text)
  | number (number : Int)
  | bool (value : Bool)
  | fields (fields : List Text)
deriving DecidableEq

structure GhNormalizedInvocation where
  capabilityId : Text
  repository : RepositorySlug
  options : List (Text × OptionValue)
  jsonFields : List Text
deriving DecidableEq

/-- What the server sets before a run. -/
structure GhExecutionContext where
  host : Text
  repository : RepositorySlug

inductive ViolationCode
  | unknownFlag
  | positionalNotAllowed
  | enumValue
  | intFormat
  | intRange
  | boolFormat
  | jsonFieldNotAllowed
  | jsonFieldsMin
  | jsonFieldsMax
  | jsonFieldsDuplicate
  | repositoryFormat
  | requires
  | conflicts
  | oneOf
  | exactlyOne
  | atLeastOne
  | implies
  | requiredIf
  | inputSourceExclusive
  | contextRequired
deriving DecidableEq

structure GhConstraintViolation where
  code : ViolationCode
  flag : Option Text
  message : Text
deriving DecidableEq

inductive EvaluationResult
  | accepted (invocation : GhNormalizedInvocation)
  | rejected (violations : List GhConstraintViolation)
deriving DecidableEq

end PrSearch.GhCli
