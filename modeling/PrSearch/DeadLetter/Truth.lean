import PrSearch.DeadLetter.Queue

/-! # What the table should tell

From what has happened, each row has a state that it should be in. A row that was recorded because a
component is missing is closed by a projection without missing components only. A held row is put back when
an operator names it, and is held again when that fails. A row that opens again counts from zero.
-/
namespace PrSearch.DeadLetter

/-- What a row tells, or should tell. -/
structure Truth where
  error : Failure
  state : DeadLetterState
  failures : Nat
  deriving DecidableEq, Repr

def Truth.fail (truth : Truth) (error : Failure) : Truth :=
  match truth.state with
  | .pending => ⟨error, .pending, truth.failures⟩
  | .reprocessing =>
      ⟨error, if maxReprocessAttempts ≤ truth.failures + 1 then .held else .pending, truth.failures + 1⟩
  | .held => ⟨error, .held, truth.failures⟩
  | .resolved => ⟨error, .pending, 0⟩

/-- A projection closes every row of its delivery but one whose components are still missing. -/
def Truth.project (truth : Truth) (stage : DeadLetterStage) (missing : Bool) : Truth :=
  if stage = .enrich ∧ truth.error.isIncomplete ∧ missing then truth else { truth with state := .resolved }

/-- A held row follows explicit requests only; a closed one opens again. -/
def Truth.mark (truth : Truth) (cause : Cause) : Truth :=
  match truth.state with
  | .held => if cause = .byIds then { truth with state := .reprocessing } else truth
  | .resolved => ⟨truth.error, .reprocessing, 0⟩
  | _ => { truth with state := .reprocessing }

/-- A delivery was not put back: its row is held again after so many failures. -/
def Truth.unpublish (truth : Truth) (reverted : Bool) : Truth :=
  if truth.state = .reprocessing then
    if maxReprocessAttempts ≤ truth.failures then { truth with state := .held }
    else if reverted then { truth with state := .pending }
    else truth
  else truth

def Truth.next (key : Key) (fact : Fact) (truth : Truth) : Truth :=
  match fact with
  | .recorded other error => if other = key then truth.fail error else truth
  | .projected deliveryId missing => if deliveryId = key.1 then truth.project key.2 missing else truth
  | .marked cause keys => if key ∈ keys then truth.mark cause else truth
  | .unpublished other reverted => if other = key then truth.unpublish reverted else truth
  | .putBack _ _ => truth

/-- What should be told of a key after one more fact; the first failure opens its row. -/
def after (key : Key) (told : Option Truth) (fact : Fact) : Option Truth :=
  match told with
  | some truth => some (truth.next key fact)
  | none =>
      match fact with
      | .recorded other error => if other = key then some ⟨error, .pending, 0⟩ else none
      | _ => none

def truth (log : List Fact) (key : Key) : Option Truth := log.foldl (after key) none

/-- What a row tells. -/
def DeadLetterRow.told (row : DeadLetterRow) : Truth := ⟨row.error, row.state, row.reprocessCount⟩

/-- A key has a held row. -/
def HeldAt (log : List Fact) (key : Key) : Prop := ∃ should, truth log key = some should ∧ should.state = .held

/-- The table tells the truth, and a delivery with a held row is put back by explicit requests only. -/
structure Truthful (s : World) : Prop where
  unique : (s.rows.map DeadLetterRow.key).Nodup
  rows : ∀ key, (s.rows.find? fun row => row.key = key).map DeadLetterRow.told = truth s.log key
  explicit : ∀ earlier cause deliveryId later, s.log = earlier ++ .putBack cause deliveryId :: later →
    (∃ stage, HeldAt earlier (deliveryId, stage)) → cause = .byIds

/-- A step that the table follows truthfully, by the table before it. -/
def Honest (s : World) (turn : Nat × Action) : Prop :=
  match turn.2, s.tasks turn.1 with
  | .resolve, some (.resolving enrichment) =>
      enrichment.missing.isSome → ∀ row ∈ s.rows, row.deliveryId = enrichment.deliveryId →
        row.stage = .enrich → row.error.isIncomplete → row.state = .resolved
  | .mark, some (.marking cause targets) =>
      ∀ row ∈ s.rows, row.deadLetterId ∈ targets.map DeadLetterRow.deadLetterId →
        (row.state = .resolved → row.reprocessCount = 0) ∧ (row.state = .held → cause = .byIds)
  | .revert _, some (.reverting _ target _) =>
      ∀ row ∈ s.rows, row.deadLetterId = target.deadLetterId → row.state = .reprocessing →
        row.reprocessCount < maxReprocessAttempts
  | .publish true, some (.publishing cause (target :: _)) =>
      ∀ row ∈ s.rows, row.deliveryId = target.deliveryId → row.state = .held → cause = .byIds
  | .relayNext _ true _, some (.relaying (event :: _)) =>
      ∀ row ∈ s.rows, row.deliveryId = event.deliveryId → row.state ≠ .held
  | _, _ => True

end PrSearch.DeadLetter
