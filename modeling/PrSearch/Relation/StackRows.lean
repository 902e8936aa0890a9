import PrSearch.Relation.Plan

/-! # The rows of the stacks

The table of the stacks has a row for every edge that has ever held, in every repository. A
reconciliation writes the edges of a child that hold now and detaches its other rows; an import adds
rows that are not there yet. The same merge is computed from the rows alone, without a write.
-/
namespace PrSearch.Relation.StackRows

open Query (Text)
open Rows

/-! ### The table -/

/-- A row of `pull_request_stack`. -/
structure Row extends StackRow where
  repositoryId : Nat
  deriving DecidableEq, Repr

abbrev Key := Nat × Nat × Nat

/-- The primary key -/
def Row.key (row : Row) : Key := (row.repositoryId, row.childPrNumber, row.parentPrNumber)

def Row.parent (row : Row) : Nat := row.parentPrNumber

abbrev StackTable := Table Row.key

def maxInt : Nat := 2147483647

/-- What the columns of the numbers take: an `INT` each, and `pull_request_stack_pr_chk`. -/
def PrCheck (child parent : Nat) : Prop :=
  (0 < child ∧ child ≤ maxInt) ∧ (0 < parent ∧ parent ≤ maxInt) ∧ child ≠ parent

instance (child parent : Nat) : Decidable (PrCheck child parent) := by
  unfold PrCheck
  infer_instance

/-- The rows of one child -/
def Row.ofChild (repositoryId childPrNumber : Nat) (row : Row) : Prop :=
  row.repositoryId = repositoryId ∧ row.childPrNumber = childPrNumber

instance (repositoryId childPrNumber : Nat) (row : Row) :
    Decidable (row.ofChild repositoryId childPrNumber) := by
  unfold Row.ofChild
  infer_instance

/-- `ORDER BY parent_pr_number` -/
def byParent (left right : Row) : Prop := left.parent ≤ right.parent

instance : DecidableRel byParent := fun left right => Nat.decLe left.parent right.parent

instance : Std.Total byParent := ⟨fun left right => Nat.le_total left.parent right.parent⟩

instance : IsTrans Row byParent := ⟨fun _ _ _ => Nat.le_trans⟩

/-- The rows that `listStacksOfChildren` reads for one of the children. -/
def listStacksOfChild (table : StackTable) (repositoryId childPrNumber : Nat) : List Row :=
  (table.rows.filter fun row => row.ofChild repositoryId childPrNumber).insertionSort byParent

/-! ### Reconciliation -/

/-- The row of an edge that holds. -/
def desiredRow (repositoryId childPrNumber : Nat) (one : StackDesired) : Row :=
  { one.row childPrNumber with repositoryId := repositoryId }

def Row.detach (row : Row) : Row := { row with detached := true }

/-- `DO UPDATE … WHERE`: a derived row that holds already and says the same is left. -/
def overwrite (stored proposed : Row) : Row :=
  if stored.detached = true ∨ stored.origin ≠ .derived ∨ stored.evidence ≠ proposed.evidence ∨
      stored.edgeCreatedAt ≠ proposed.edgeCreatedAt then
    { stored with
      evidence := proposed.evidence
      edgeCreatedAt := proposed.edgeCreatedAt
      detached := false
      origin := .derived }
  else stored

theorem key_overwrite (stored proposed : Row) (same : stored.key = proposed.key) :
    (overwrite stored proposed).key = proposed.key := by
  unfold overwrite
  split
  · exact same
  · exact same

def insertDesired (table : StackTable) (rows : List Row) : StackTable :=
  rows.foldl (fun table row => table.merge overwrite key_overwrite row) table

/-- `NOT detached AND NOT (parent_pr_number = ANY(…))`, for a row of the child -/
def Row.falls (repositoryId childPrNumber : Nat) (parents : List Nat) (row : Row) : Prop :=
  row.ofChild repositoryId childPrNumber ∧ row.detached = false ∧ row.parent ∉ parents

instance (repositoryId childPrNumber : Nat) (parents : List Nat) (row : Row) :
    Decidable (row.falls repositoryId childPrNumber parents) := by
  unfold Row.falls
  infer_instance

def Row.settle (repositoryId childPrNumber : Nat) (parents : List Nat) (row : Row) : Row :=
  if row.falls repositoryId childPrNumber parents then row.detach else row

theorem key_settle (repositoryId childPrNumber : Nat) (parents : List Nat) (row : Row) :
    (row.settle repositoryId childPrNumber parents).key = row.key := by
  unfold Row.settle
  split
  · rfl
  · rfl

structure StackReconcileResult where
  rows : List Row
  detachedNow : Nat
  deriving DecidableEq, Repr

/-- `none` when it throws; the table is as it was then. -/
def reconcileStacks (table : StackTable) (repositoryId childPrNumber : Nat)
    (desired : List StackDesired) : Option (StackTable × StackReconcileResult) :=
  let parents := desired.map StackDesired.parentPrNumber
  -- `stack_desired_duplicate_parent`
  if ¬ parents.Nodup then none
  -- the `INSERT` violates the constraint of the table
  else if ∃ one ∈ desired, ¬ PrCheck childPrNumber one.parentPrNumber then none
  else
    let inserted := insertDesired table (desired.map (desiredRow repositoryId childPrNumber))
    let settled := inserted.update (Row.settle repositoryId childPrNumber parents)
      (key_settle repositoryId childPrNumber parents)
    some (settled,
      { rows := listStacksOfChild settled repositoryId childPrNumber
        detachedNow := inserted.rows.countP fun row =>
          row.falls repositoryId childPrNumber parents })

/-- The `Map` is a table with a row for each parent. -/
def mergeStackRows (repositoryId childPrNumber : Nat) (existing : List Row)
    (desired : List StackDesired) : List Row :=
  let merged : Table Row.parent :=
    Table.empty.putAll (desired.map (desiredRow repositoryId childPrNumber))
  (merged.putAllNew (existing.map Row.detach)).rows.insertionSort byParent

/-! ### Import -/

structure StackImport where
  repositoryId : Nat
  childPrNumber : Nat
  parentPrNumber : Nat
  evidence : Text
  edgeCreatedAt : Text
  detached : Bool
  deriving DecidableEq, Repr

def StackImport.row (one : StackImport) : Row where
  repositoryId := one.repositoryId
  childPrNumber := one.childPrNumber
  parentPrNumber := one.parentPrNumber
  evidence := one.evidence
  edgeCreatedAt := one.edgeCreatedAt
  detached := one.detached
  origin := .imported

structure ImportResult where
  inserted : Nat
  existing : Nat
  deriving DecidableEq, Repr

/-- `ON CONFLICT DO NOTHING`; `none` when it throws. -/
def importStacks (table : StackTable) (rows : List StackImport) :
    Option (StackTable × ImportResult) :=
  if ∃ one ∈ rows, ¬ PrCheck one.childPrNumber one.parentPrNumber then none
  else
    let after := table.putAllNew (rows.map StackImport.row)
    let inserted := after.rows.length - table.rows.length
    some (after, ⟨inserted, rows.length - inserted⟩)

/-! ### Histories -/

inductive Action
  | reconcile (repositoryId childPrNumber : Nat) (desired : List StackDesired)
  | import_ (rows : List StackImport)
  deriving DecidableEq, Repr

/-- A call that throws leaves the table. -/
def perform (table : StackTable) : Action → StackTable
  | .reconcile repositoryId childPrNumber desired =>
      ((reconcileStacks table repositoryId childPrNumber desired).map Prod.fst).getD table
  | .import_ rows => ((importStacks table rows).map Prod.fst).getD table

def run (table : StackTable) (history : List Action) : StackTable := history.foldl perform table

/-! What a row is to say after a history. -/

/-- The desired edges name each parent once, and the table takes them all. -/
def Accepted (childPrNumber : Nat) (desired : List StackDesired) : Prop :=
  (desired.map StackDesired.parentPrNumber).Nodup ∧
    ∀ one ∈ desired, PrCheck childPrNumber one.parentPrNumber

instance (childPrNumber : Nat) (desired : List StackDesired) :
    Decidable (Accepted childPrNumber desired) := by
  unfold Accepted
  infer_instance

abbrev Content := Text × Text

/-- The evidence and the edge time -/
def Row.content (row : Row) : Content := (row.evidence, row.edgeCreatedAt)

/-- What a reconciliation desires of the row of the key. -/
def Action.desires (key : Key) : Action → Option Content
  | .reconcile repositoryId childPrNumber desired =>
      if Accepted childPrNumber desired then
        (desired.find? fun one => (repositoryId, childPrNumber, one.parentPrNumber) = key).map
          fun one => (one.evidence, one.edgeCreatedAt)
      else none
  | .import_ _ => none

/-- What an import says of the row of the key. -/
def Action.imports (key : Key) : Action → Option Content
  | .reconcile .. => none
  | .import_ rows =>
      if ∀ one ∈ rows, PrCheck one.childPrNumber one.parentPrNumber then
        (rows.find? fun one =>
            (one.repositoryId, one.childPrNumber, one.parentPrNumber) = key).map
          fun one => (one.evidence, one.edgeCreatedAt)
      else none

/-- Of the last reconciliation that desired the row. -/
def lastDesired (key : Key) (history : List Action) : Option Content :=
  history.reverse.findSome? (Action.desires key)

/-- Of the first import of the row. -/
def firstImported (key : Key) (history : List Action) : Option Content :=
  history.findSome? (Action.imports key)

end PrSearch.Relation.StackRows
