import PrSearch.Lib.Rows

/-! # The dead-letter table

A delivery that failed in a stage has one row there. The row is opened by a failure, marked when the
delivery is put back on the ingest stream, and closed when the delivery was projected. A failure of a marked
row counts, and after three of them the row is held.
-/
namespace PrSearch.DeadLetter

inductive DeadLetterStage
  | enrich
  | project
  | sequence
  | link
  deriving DecidableEq, Repr

inductive DeadLetterState
  | pending
  | reprocessing
  | held
  | resolved
  deriving DecidableEq, Repr

/-- What is told as the last error. -/
inductive Failure
  | incomplete (components : String)
  | other (detail : String)
  deriving DecidableEq, Repr

def Failure.isIncomplete : Failure → Bool
  | incomplete _ => true
  | other _ => false

def Failure.text : Failure → String
  | incomplete components => "보강 부분 실패로 부분 문서를 진행했다: " ++ components
  | other detail => detail

/-- `(delivery_id, stage)` -/
abbrev Key := String × DeadLetterStage

structure DeadLetterRow where
  deadLetterId : Nat
  deliveryId : String
  stage : DeadLetterStage
  repositoryId : Option Int
  error : Failure
  retryCount : Nat
  reprocessCount : Nat
  state : DeadLetterState
  createdAt : Int
  deriving DecidableEq, Repr

def DeadLetterRow.key (row : DeadLetterRow) : Key := (row.deliveryId, row.stage)

structure DeadLetterInput where
  deliveryId : String
  stage : DeadLetterStage
  repositoryId : Option Int
  error : Failure
  retryCount : Nat
  deriving DecidableEq, Repr

def DeadLetterInput.key (input : DeadLetterInput) : Key := (input.deliveryId, input.stage)

/-- `MAX_REPROCESS_ATTEMPTS` -/
def maxReprocessAttempts : Nat := 3

/-- `OPEN_STATES` -/
def openStates : List DeadLetterState := [.pending, .reprocessing]

/-- `DO UPDATE` of `recordDeadLetter` -/
def failAgain (row new : DeadLetterRow) : DeadLetterRow :=
  { row with
    repositoryId := new.repositoryId <|> row.repositoryId
    error := new.error
    retryCount := new.retryCount
    reprocessCount :=
      if row.state = .reprocessing then row.reprocessCount + 1
      else if row.state = .resolved then 0
      else row.reprocessCount
    state :=
      if row.state = .held then .held
      else if row.state = .reprocessing ∧ maxReprocessAttempts ≤ row.reprocessCount + 1 then .held
      else .pending }

def firstFailure (input : DeadLetterInput) (deadLetterId : Nat) (now : Int) : DeadLetterRow where
  deadLetterId := deadLetterId
  deliveryId := input.deliveryId
  stage := input.stage
  repositoryId := input.repositoryId
  error := input.error
  retryCount := input.retryCount
  reprocessCount := 0
  state := .pending
  createdAt := now

/-- The identifier is the next one of the sequence. -/
def recordDeadLetter (rows : List DeadLetterRow) (input : DeadLetterInput) (nextId : Nat) (now : Int) :
    List DeadLetterRow :=
  Rows.upsert DeadLetterRow.key failAgain (firstFailure input nextId now) rows

def resolve (row : DeadLetterRow) : DeadLetterRow :=
  if row.state ≠ .resolved then { row with state := .resolved } else row

def resolveByDelivery (rows : List DeadLetterRow) (deliveryId : String) : List DeadLetterRow :=
  rows.map fun row => if row.deliveryId = deliveryId then resolve row else row

def markReprocessing (rows : List DeadLetterRow) (ids : List Nat) : List DeadLetterRow :=
  rows.map fun row => if row.deadLetterId ∈ ids then { row with state := .reprocessing } else row

def revertReprocessing (rows : List DeadLetterRow) (deadLetterId : Nat) : List DeadLetterRow :=
  rows.map fun row =>
    if row.deadLetterId = deadLetterId ∧ row.state = .reprocessing then { row with state := .pending }
    else row

structure DeadLetterFilter where
  states : Option (List DeadLetterState)
  stage : Option DeadLetterStage
  repositoryId : Option Int

/-- `filterClauses` -/
def DeadLetterFilter.admits (filter : DeadLetterFilter) (row : DeadLetterRow) : Bool :=
  filter.states.all (fun states => row.state ∈ states) && filter.stage.all (fun stage => row.stage = stage) &&
    filter.repositoryId.all fun id => row.repositoryId = some id

/-- `ORDER BY created_at DESC, dead_letter_id DESC` -/
def newerFirst (row other : DeadLetterRow) : Prop :=
  other.createdAt < row.createdAt ∨
    other.createdAt = row.createdAt ∧ other.deadLetterId ≤ row.deadLetterId

instance : DecidableRel newerFirst := fun row other =>
  inferInstanceAs (Decidable (other.createdAt < row.createdAt ∨
    other.createdAt = row.createdAt ∧ other.deadLetterId ≤ row.deadLetterId))

def listDeadLetters (rows : List DeadLetterRow) (filter : DeadLetterFilter) (limit : Nat) :
    List DeadLetterRow :=
  Rows.select newerFirst rows filter.admits limit

/-- Rows stand in the order of their identifiers. -/
def findByIds (rows : List DeadLetterRow) (ids : List Nat) : List DeadLetterRow :=
  rows.filter fun row => row.deadLetterId ∈ ids

end PrSearch.DeadLetter
