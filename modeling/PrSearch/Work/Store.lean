import PrSearch.Sequence.Store

/-! # The table of durable work

The rows of `sequence_work` and the statements of its repository. A table carries the constraints of
its migrations; a statement that would break one of them fails. `now` is the database clock of the
statement. Rows that another transaction has locked are skipped by a claim, and the lease tokens it
draws come from the environment. What a statement does is stated once for the row of every key.
-/
namespace PrSearch.Work

open Sequence (Instant WorkKind Fault)

inductive WorkState
  | ready
  | leased
  | retry
  | parked
  | done
  | obsolete
  deriving DecidableEq, Repr

/-- A component of a key beyond the space: `string | number`. -/
inductive KeyPart
  | text (text : String)
  | number (number : Int)
  deriving DecidableEq, Repr

/-- `work_key`: the delivery of a push, or the tuple that is serialised to JSON. -/
inductive WorkKey
  | push (deliveryId : String)
  | space (kind : WorkKind) (repositoryId : Int) (baseBranch : String) (seqEpoch : Int)
      (extra : List KeyPart)
  deriving DecidableEq, Repr

def kindText : WorkKind → String
  | .refresh => "refresh"
  | .project => "project"
  | .reconcile => "reconcile"
  | .materialize => "materialize"
  | .announce => "announce"
  | .tag => "tag"

/-- How `JSON.stringify` writes one character of a string. -/
def jsonChar (c : Char) : String :=
  match c.toNat with
  | 8 => "\\b"
  | 9 => "\\t"
  | 10 => "\\n"
  | 12 => "\\f"
  | 13 => "\\r"
  | 34 => "\\\""
  | 92 => "\\\\"
  | code =>
      if code < 32 then
        "\\u00" ++ String.ofList [Nat.digitChar (code / 16), Nat.digitChar (code % 16)]
      else c.toString

def jsonString (text : String) : String :=
  "\"" ++ String.join (text.toList.map jsonChar) ++ "\""

def KeyPart.json : KeyPart → String
  | .text value => jsonString value
  | .number value => toString value

/-- The key as the column holds it. -/
def WorkKey.text : WorkKey → String
  | .push deliveryId => "push:" ++ deliveryId
  | .space kind repositoryId baseBranch seqEpoch extra =>
      kindText kind ++ ":[" ++ String.intercalate "," ([toString repositoryId,
        jsonString baseBranch, toString seqEpoch] ++ extra.map KeyPart.json) ++ "]"

structure WorkRow where
  workKey : WorkKey
  kind : WorkKind
  repositoryId : Int
  baseBranch : String
  seqEpoch : Option Int
  requestedGeneration : Nat
  completedGeneration : Nat
  /-- JSON text, as `progress` -/
  payload : String
  progress : String
  state : WorkState
  availableAt : Instant
  leaseUntil : Option Instant
  leaseToken : Option String
  attemptCount : Nat
  lastReason : Option String
  createdAt : Instant
  deriving DecidableEq, Repr

/-- `sequence_work_generation_chk`, `sequence_work_lease_chk` and `sequence_work_epoch_chk` -/
def WorkRow.Chk (row : WorkRow) : Prop :=
  row.completedGeneration ≤ row.requestedGeneration ∧
    (row.state = .leased ↔ row.leaseUntil.isSome) ∧ (row.state = .leased ↔ row.leaseToken.isSome) ∧
    (row.kind = .refresh ∨ row.seqEpoch.isSome)

instance (row : WorkRow) : Decidable row.Chk :=
  inferInstanceAs (Decidable (_ ∧ _ ∧ _ ∧ _))

structure Lawful (rows : List WorkRow) : Prop where
  key : rows.Pairwise fun a b => a.workKey ≠ b.workKey
  chk : ∀ row ∈ rows, row.Chk

instance (rows : List WorkRow) : Decidable (Lawful rows) :=
  decidable_of_iff ((rows.Pairwise fun a b => a.workKey ≠ b.workKey) ∧ ∀ row ∈ rows, row.Chk)
    ⟨fun ⟨key, chk⟩ => ⟨key, chk⟩, fun ⟨key, chk⟩ => ⟨key, chk⟩⟩

/-- `sequence_work` with its constraints. -/
structure Table where
  rows : List WorkRow
  lawful : Lawful rows

def Table.empty : Table := ⟨[], ⟨.nil, List.forall_mem_nil _⟩⟩

/-- A statement takes effect only if the rows it would leave meet the constraints. -/
def accept (rows : List WorkRow) : Option Table :=
  if lawful : Lawful rows then some ⟨rows, lawful⟩ else none

variable {rows : List WorkRow} {row : WorkRow} {now : Instant}

theorem accept_rows {table : Table} (accepted : accept rows = some table) : table.rows = rows := by
  unfold accept at accepted
  split at accepted
  · cases accepted
    rfl
  · cases accepted

/-! ### Statements -/

/-- The row that a lease is for, as long as it holds. -/
structure LeaseRef where
  workKey : WorkKey
  leaseToken : String
  deriving DecidableEq, Repr

/-- `work_key = $1 AND lease_token = $2 AND state = 'leased'` -/
def LeaseRef.Holds (lease : LeaseRef) (row : WorkRow) : Prop :=
  row.workKey = lease.workKey ∧ row.leaseToken = some lease.leaseToken ∧ row.state = .leased

instance (lease : LeaseRef) (row : WorkRow) : Decidable (lease.Holds row) :=
  inferInstanceAs (Decidable (_ ∧ _ ∧ _))

structure EnqueueRefreshInput where
  deliveryId : String
  repositoryId : Int
  baseBranch : String
  payload : String
  deriving DecidableEq, Repr

structure RequestWorkInput where
  kind : WorkKind
  repositoryId : Int
  baseBranch : String
  seqEpoch : Int
  payload : String
  keyExtra : List KeyPart := []
  availableAt : Option Instant := none
  notRefresh : kind ≠ .refresh := by decide
  deriving DecidableEq, Repr

structure ClaimOptions where
  kinds : List WorkKind
  limit : Nat
  leaseMs : Int
  deriving DecidableEq, Repr

inductive ReleaseState
  | retry
  | parked
  | obsolete
  | ready
  deriving DecidableEq, Repr

def ReleaseState.workState : ReleaseState → WorkState
  | retry => .retry
  | parked => .parked
  | obsolete => .obsolete
  | ready => .ready

structure Release where
  state : ReleaseState
  availableAt : Instant
  reason : Option String
  resetAttempts : Bool := false
  deriving DecidableEq, Repr

def refreshWorkKey (deliveryId : String) : WorkKey := .push deliveryId

def RequestWorkInput.workKey (input : RequestWorkInput) : WorkKey :=
  .space input.kind input.repositoryId input.baseBranch input.seqEpoch input.keyExtra

/-- The row that the first request inserts. -/
def EnqueueRefreshInput.fresh (input : EnqueueRefreshInput) (now : Instant) : WorkRow where
  workKey := refreshWorkKey input.deliveryId
  kind := .refresh
  repositoryId := input.repositoryId
  baseBranch := input.baseBranch
  seqEpoch := none
  requestedGeneration := 1
  completedGeneration := 0
  payload := input.payload
  progress := "[]"
  state := .ready
  availableAt := now
  leaseUntil := none
  leaseToken := none
  attemptCount := 0
  lastReason := none
  createdAt := now

/-- `ON CONFLICT (work_key) DO NOTHING` -/
def enqueueRefreshWork (input : EnqueueRefreshInput) (now : Instant) (rows : List WorkRow) :
    List WorkRow :=
  if rows.any fun row => row.workKey = refreshWorkKey input.deliveryId then rows
  else rows ++ [input.fresh now]

/-- The row that the first request inserts. -/
def RequestWorkInput.fresh (input : RequestWorkInput) (now : Instant) : WorkRow where
  workKey := input.workKey
  kind := input.kind
  repositoryId := input.repositoryId
  baseBranch := input.baseBranch
  seqEpoch := some input.seqEpoch
  requestedGeneration := 1
  completedGeneration := 0
  payload := input.payload
  progress := "[]"
  state := .ready
  availableAt := input.availableAt.getD now
  leaseUntil := none
  leaseToken := none
  attemptCount := 0
  lastReason := none
  createdAt := now

/-- `DO UPDATE`: a leased row keeps its lease and only counts the request. -/
def RequestWorkInput.again (input : RequestWorkInput) (now : Instant) (row : WorkRow) : WorkRow :=
  { row with
    requestedGeneration := row.requestedGeneration + 1
    payload := input.payload
    state := if row.state = .leased then .leased else .ready
    availableAt := if row.state = .leased then row.availableAt else input.availableAt.getD now
    attemptCount := if row.state = .leased then row.attemptCount else 0
    lastReason := if row.state = .leased then row.lastReason else none }

def requestWork (input : RequestWorkInput) (now : Instant) (rows : List WorkRow) : List WorkRow :=
  if rows.any fun row => row.workKey = input.workKey then
    rows.map fun row => if row.workKey = input.workKey then input.again now row else row
  else rows ++ [input.fresh now]

/-- `state IN ('ready', 'retry') AND available_at <= now() AND kind = ANY($1)` -/
def ClaimOptions.Due (options : ClaimOptions) (now : Instant) (row : WorkRow) : Prop :=
  (row.state = .ready ∨ row.state = .retry) ∧ row.availableAt ≤ now ∧ row.kind ∈ options.kinds

instance (options : ClaimOptions) (now : Instant) (row : WorkRow) :
    Decidable (options.Due now row) :=
  inferInstanceAs (Decidable (_ ∧ _ ∧ _))

/-- `ORDER BY available_at, work_key` -/
def WorkRow.Before (a b : WorkRow) : Prop :=
  a.availableAt < b.availableAt ∨
    (a.availableAt = b.availableAt ∧ a.workKey.text ≤ b.workKey.text)

instance (a b : WorkRow) : Decidable (a.Before b) :=
  inferInstanceAs (Decidable (_ ∨ _))

/-- `… FOR UPDATE SKIP LOCKED LIMIT $2` -/
def ClaimOptions.select (options : ClaimOptions) (locked : WorkKey → Bool) (now : Instant)
    (rows : List WorkRow) : List WorkRow :=
  ((rows.filter fun row => options.Due now row ∧ locked row.workKey = false).insertionSort
    WorkRow.Before).take options.limit

def WorkRow.lease (genRandomUuid : WorkKey → String) (leaseUntil : Instant) (row : WorkRow) :
    WorkRow :=
  { row with
    state := .leased
    leaseUntil := some leaseUntil
    leaseToken := some (genRandomUuid row.workKey)
    attemptCount := row.attemptCount + 1 }

/-- The rows that the claim returns, and the table it leaves. -/
def claimDueWork (options : ClaimOptions) (locked : WorkKey → Bool)
    (genRandomUuid : WorkKey → String) (now : Instant) (rows : List WorkRow) :
    List WorkRow × List WorkRow :=
  let selected := options.select locked now rows
  let lease := WorkRow.lease genRandomUuid (now + options.leaseMs)
  (selected.map lease, rows.map fun row => if row ∈ selected then lease row else row)

/-- `UPDATE sequence_work SET … WHERE work_key = $1 AND lease_token = $2 AND state = 'leased'` -/
def updateHeld (lease : LeaseRef) (set : WorkRow → WorkRow) (rows : List WorkRow) :
    Bool × List WorkRow :=
  (rows.any fun row => lease.Holds row,
    rows.map fun row => if lease.Holds row then set row else row)

def WorkRow.complete (generation : Nat) (now : Instant) (row : WorkRow) : WorkRow :=
  { row with
    completedGeneration := max row.completedGeneration generation
    state := if generation < row.requestedGeneration then .ready else .done
    leaseUntil := none
    leaseToken := none
    availableAt := now
    lastReason := none }

def completeWork (lease : LeaseRef) (generation : Nat) (now : Instant) :
    List WorkRow → Bool × List WorkRow :=
  updateHeld lease (WorkRow.complete generation now)

def WorkRow.release (next : Release) (row : WorkRow) : WorkRow :=
  { row with
    state := next.state.workState
    availableAt := next.availableAt
    lastReason := next.reason
    attemptCount := if next.resetAttempts then 0 else row.attemptCount
    leaseUntil := none
    leaseToken := none }

def releaseWork (lease : LeaseRef) (next : Release) : List WorkRow → Bool × List WorkRow :=
  updateHeld lease (WorkRow.release next)

def updateWorkProgress (lease : LeaseRef) (progress : String) : List WorkRow → Bool × List WorkRow :=
  updateHeld lease fun row => { row with progress := progress }

def heartbeatWork (lease : LeaseRef) (leaseMs now : Instant) : List WorkRow → Bool × List WorkRow :=
  updateHeld lease fun row => { row with leaseUntil := some (now + leaseMs) }

/-- `state = 'leased' AND lease_until < now()` -/
def WorkRow.Expired (now : Instant) (row : WorkRow) : Prop :=
  row.state = .leased ∧ ∃ leaseUntil ∈ row.leaseUntil, leaseUntil < now

instance (now : Instant) (row : WorkRow) : Decidable (row.Expired now) :=
  inferInstanceAs (Decidable (_ ∧ _))

def WorkRow.reclaim (now : Instant) (row : WorkRow) : WorkRow :=
  { row with
    state := .retry
    leaseUntil := none
    leaseToken := none
    availableAt := now
    lastReason := some "lease_expired" }

def reclaimExpiredLeases (now : Instant) (rows : List WorkRow) : List WorkRow :=
  rows.map fun row => if row.Expired now then row.reclaim now else row

/-- `kind = 'refresh' AND work_key = ANY($1) AND (state IN ('ready', 'retry') OR …)` -/
def Coverable (workKeys : List WorkKey) (leaseToken : Option String) (row : WorkRow) : Prop :=
  row.kind = .refresh ∧ row.workKey ∈ workKeys ∧
    (row.state = .ready ∨ row.state = .retry ∨
      (row.state = .leased ∧ leaseToken.isSome ∧ row.leaseToken = leaseToken))

instance (workKeys : List WorkKey) (leaseToken : Option String) (row : WorkRow) :
    Decidable (Coverable workKeys leaseToken row) :=
  inferInstanceAs (Decidable (_ ∧ _ ∧ _))

def WorkRow.cover (row : WorkRow) : WorkRow :=
  { row with
    state := .done
    completedGeneration := row.requestedGeneration
    leaseUntil := none
    leaseToken := none
    lastReason := some "covered" }

def completeCoveredRefreshWorks (workKeys : List WorkKey) (leaseToken : Option String)
    (rows : List WorkRow) : List WorkRow :=
  rows.map fun row => if Coverable workKeys leaseToken row then row.cover else row

/-- The statements other than the claim. -/
inductive Statement
  | enqueueRefreshWork (input : EnqueueRefreshInput)
  | requestWork (input : RequestWorkInput)
  | completeWork (lease : LeaseRef) (generation : Nat)
  | releaseWork (lease : LeaseRef) (next : Release)
  | updateWorkProgress (lease : LeaseRef) (progress : String)
  | heartbeatWork (lease : LeaseRef) (leaseMs : Int)
  | reclaimExpiredLeases
  | completeCoveredRefreshWorks (workKeys : List WorkKey) (leaseToken : Option String)
  deriving DecidableEq, Repr

def Statement.run (now : Instant) : Statement → List WorkRow → List WorkRow
  | enqueueRefreshWork input, rows => Work.enqueueRefreshWork input now rows
  | requestWork input, rows => Work.requestWork input now rows
  | completeWork lease generation, rows => (Work.completeWork lease generation now rows).2
  | releaseWork lease next, rows => (Work.releaseWork lease next rows).2
  | updateWorkProgress lease progress, rows => (Work.updateWorkProgress lease progress rows).2
  | heartbeatWork lease leaseMs, rows => (Work.heartbeatWork lease leaseMs now rows).2
  | reclaimExpiredLeases, rows => Work.reclaimExpiredLeases now rows
  | completeCoveredRefreshWorks workKeys leaseToken, rows =>
      Work.completeCoveredRefreshWorks workKeys leaseToken rows

/-! ### The row of one key -/

def findWork (workKey : WorkKey) (rows : List WorkRow) : Option WorkRow :=
  rows.find? fun row => row.workKey = workKey

variable {workKey : WorkKey} {statement : Statement} {options : ClaimOptions}
  {locked : WorkKey → Bool} {genRandomUuid : WorkKey → String}

theorem workKey_of_findWork (found : findWork workKey rows = some row) : row.workKey = workKey := by
  have matched := List.find?_some found
  simpa using matched

theorem mem_of_findWork (found : findWork workKey rows = some row) : row ∈ rows :=
  List.mem_of_find?_eq_some found

theorem Lawful.findWork_of_mem (lawful : Lawful rows) (stored : row ∈ rows) :
    findWork row.workKey rows = some row := by
  have key := lawful.key
  induction rows with
  | nil => exact absurd stored List.not_mem_nil
  | cons first rest ih =>
    rw [List.pairwise_cons] at key
    rcases List.mem_cons.mp stored with rfl | later
    · simp [findWork]
    · have different := key.1 row later
      have tail : Lawful rest := ⟨key.2, fun row more => lawful.chk row (List.mem_cons_of_mem _ more)⟩
      have found := ih tail later key.2
      simpa [findWork, different] using found

theorem findWork_eq_none : findWork workKey rows = none ↔ ∀ row ∈ rows, row.workKey ≠ workKey := by
  simp [findWork]

theorem findWork_map {f : WorkRow → WorkRow} (keeps : ∀ row, (f row).workKey = row.workKey)
    (workKey : WorkKey) (rows : List WorkRow) :
    findWork workKey (rows.map f) = (findWork workKey rows).map f := by
  induction rows with
  | nil => rfl
  | cons row rest ih =>
    simp only [findWork, List.map_cons, List.find?_cons, keeps] at ih ⊢
    split
    · rfl
    · exact ih

theorem findWork_append (workKey : WorkKey) (first rest : List WorkRow) :
    findWork workKey (first ++ rest) = (findWork workKey first).or (findWork workKey rest) := by
  simp [findWork, List.find?_append]

/-- The row that a statement makes for a key without one. -/
def Statement.inserted (now : Instant) (workKey : WorkKey) : Statement → Option WorkRow
  | enqueueRefreshWork input =>
      if workKey = refreshWorkKey input.deliveryId then some (input.fresh now) else none
  | requestWork input => if workKey = input.workKey then some (input.fresh now) else none
  | _ => none

theorem Statement.inserted_cases {now : Instant} {workKey : WorkKey} {statement : Statement}
    {row : WorkRow} (inserted : statement.inserted now workKey = some row) :
    (∃ input : EnqueueRefreshInput, workKey = refreshWorkKey input.deliveryId ∧ row = input.fresh now) ∨
      ∃ input : RequestWorkInput, workKey = input.workKey ∧ row = input.fresh now := by
  cases statement <;> simp [Statement.inserted] at inserted
  · exact .inl ⟨_, inserted.1, inserted.2.symm⟩
  · exact .inr ⟨_, inserted.1, inserted.2.symm⟩

/-- What a statement makes of a row. -/
def Statement.updated (now : Instant) : Statement → WorkRow → WorkRow
  | enqueueRefreshWork _, row => row
  | requestWork input, row => if row.workKey = input.workKey then input.again now row else row
  | completeWork lease generation, row =>
      if lease.Holds row then row.complete generation now else row
  | releaseWork lease next, row => if lease.Holds row then row.release next else row
  | updateWorkProgress lease progress, row =>
      if lease.Holds row then { row with progress := progress } else row
  | heartbeatWork lease leaseMs, row =>
      if lease.Holds row then { row with leaseUntil := some (now + leaseMs) } else row
  | reclaimExpiredLeases, row => if row.Expired now then row.reclaim now else row
  | completeCoveredRefreshWorks workKeys leaseToken, row =>
      if Coverable workKeys leaseToken row then row.cover else row

theorem Statement.updated_workKey (now : Instant) (statement : Statement) (row : WorkRow) :
    (statement.updated now row).workKey = row.workKey := by
  cases statement with
  | enqueueRefreshWork input => rfl
  | requestWork | completeWork | releaseWork | updateWorkProgress | heartbeatWork
  | reclaimExpiredLeases | completeCoveredRefreshWorks =>
    simp only [Statement.updated]
    split <;> rfl

theorem Statement.updated_kind (now : Instant) (statement : Statement) (row : WorkRow) :
    (statement.updated now row).kind = row.kind := by
  cases statement with
  | enqueueRefreshWork input => rfl
  | requestWork | completeWork | releaseWork | updateWorkProgress | heartbeatWork
  | reclaimExpiredLeases | completeCoveredRefreshWorks =>
    simp only [Statement.updated]
    split <;> rfl

theorem findWork_insert (workKey : WorkKey) (rows : List WorkRow) (fresh : WorkRow)
    (absent : findWork fresh.workKey rows = none) :
    findWork workKey (rows ++ [fresh]) =
      if workKey = fresh.workKey then some fresh else findWork workKey rows := by
  rw [findWork_append]
  split
  next same =>
    subst same
    rw [absent]
    simp [findWork]
  next different =>
    have other : findWork workKey [fresh] = none := by
      simp [findWork, Ne.symm different]
    rw [other, Option.or_none]

theorem any_workKey (workKey : WorkKey) (rows : List WorkRow) :
    (rows.any fun row => row.workKey = workKey) = (findWork workKey rows).isSome := by
  rw [findWork, List.isSome_find?]

theorem findWork_updated (statement : Statement) (now : Instant) (workKey : WorkKey)
    (rows : List WorkRow) :
    findWork workKey (rows.map (statement.updated now)) =
      (findWork workKey rows).map (statement.updated now) :=
  findWork_map (statement.updated_workKey now) workKey rows

/-- What a statement does, in terms of the row of each key. -/
def Statement.effect (now : Instant) (workKey : WorkKey) (statement : Statement)
    (row : Option WorkRow) : Option WorkRow :=
  row.elim (statement.inserted now workKey) fun row => some (statement.updated now row)

theorem findWork_enqueueRefreshWork (workKey : WorkKey) (input : EnqueueRefreshInput)
    (now : Instant) (rows : List WorkRow) :
    findWork workKey (enqueueRefreshWork input now rows) =
      (Statement.enqueueRefreshWork input).effect now workKey (findWork workKey rows) := by
  simp only [enqueueRefreshWork, any_workKey]
  cases found : findWork (refreshWorkKey input.deliveryId) rows with
  | none =>
    have inserted := findWork_insert workKey rows (input.fresh now) found
    simp only [Option.isSome_none, Bool.false_eq_true, if_false, inserted]
    by_cases same : workKey = refreshWorkKey input.deliveryId
    · simp [same, found, Statement.effect, Statement.inserted, EnqueueRefreshInput.fresh]
    · cases other : findWork workKey rows <;>
        simp [same, Statement.effect, Statement.inserted, Statement.updated,
          EnqueueRefreshInput.fresh]
  | some row =>
    simp only [Option.isSome_some, if_true]
    cases other : findWork workKey rows with
    | none =>
      have different : workKey ≠ refreshWorkKey input.deliveryId := by
        intro same
        rw [same, found] at other
        cases other
      simp [Statement.effect, Statement.inserted, different]
    | some row => rfl

theorem findWork_requestWork (workKey : WorkKey) (input : RequestWorkInput) (now : Instant)
    (rows : List WorkRow) :
    findWork workKey (requestWork input now rows) =
      (Statement.requestWork input).effect now workKey (findWork workKey rows) := by
  simp only [requestWork, any_workKey]
  cases found : findWork input.workKey rows with
  | none =>
    have inserted := findWork_insert workKey rows (input.fresh now) found
    simp only [Option.isSome_none, Bool.false_eq_true, if_false, inserted]
    by_cases same : workKey = input.workKey
    · simp [same, found, Statement.effect, Statement.inserted, RequestWorkInput.fresh]
    · cases other : findWork workKey rows with
      | none => simp [same, Statement.effect, Statement.inserted, RequestWorkInput.fresh]
      | some row =>
        have key := workKey_of_findWork other
        simp [same, key, Statement.effect, Statement.updated, RequestWorkInput.fresh]
  | some row =>
    simp only [Option.isSome_some, if_true]
    refine (findWork_updated (.requestWork input) now workKey rows).trans ?_
    cases other : findWork workKey rows with
    | none =>
      have different : workKey ≠ input.workKey := by
        intro same
        rw [same, found] at other
        cases other
      simp [Statement.effect, Statement.inserted, different]
    | some row => rfl

theorem findWork_of_updated (never : ∀ workKey, statement.inserted now workKey = none)
    (updates : statement.run now rows = rows.map (statement.updated now)) (workKey : WorkKey) :
    findWork workKey (statement.run now rows) =
      statement.effect now workKey (findWork workKey rows) := by
  rw [updates, findWork_updated]
  cases findWork workKey rows with
  | none => exact (never workKey).symm
  | some row => rfl

/-- Every statement acts on the row of each key alone. -/
theorem findWork_run (statement : Statement) (now : Instant) (workKey : WorkKey)
    (rows : List WorkRow) :
    findWork workKey (statement.run now rows) =
      statement.effect now workKey (findWork workKey rows) := by
  cases statement with
  | enqueueRefreshWork input => exact findWork_enqueueRefreshWork workKey input now rows
  | requestWork input => exact findWork_requestWork workKey input now rows
  | completeWork | releaseWork | updateWorkProgress | heartbeatWork | reclaimExpiredLeases
  | completeCoveredRefreshWorks => exact findWork_of_updated (fun _ => rfl) rfl workKey

/-- A row after a statement is a row inserted or a row updated. -/
theorem findWork_run_cases (found : findWork workKey (statement.run now rows) = some row) :
    (findWork workKey rows = none ∧ statement.inserted now workKey = some row) ∨
      ∃ old, findWork workKey rows = some old ∧ row = statement.updated now old := by
  rw [findWork_run] at found
  cases before : findWork workKey rows with
  | none =>
    rw [before] at found
    exact .inl ⟨rfl, found⟩
  | some old =>
    rw [before] at found
    cases found
    exact .inr ⟨old, rfl, rfl⟩

/-! ### Claims -/

theorem ClaimOptions.due_of_mem_select (selected : row ∈ options.select locked now rows) :
    row ∈ rows ∧ options.Due now row := by
  have sorted := List.mem_of_mem_take selected
  rw [List.mem_insertionSort, List.mem_filter] at sorted
  exact ⟨sorted.1, (by simpa using sorted.2 : options.Due now row ∧ _).1⟩

theorem findWork_claimDueWork (options : ClaimOptions) (locked : WorkKey → Bool)
    (genRandomUuid : WorkKey → String) (now : Instant) (rows : List WorkRow) (workKey : WorkKey) :
    findWork workKey (claimDueWork options locked genRandomUuid now rows).2 =
      (findWork workKey rows).map fun row =>
        if row ∈ options.select locked now rows then
          row.lease genRandomUuid (now + options.leaseMs)
        else row :=
  findWork_map (fun row => by split <;> rfl) workKey rows

/-- A claimed row is a due row of the table with its lease. -/
theorem mem_claimDueWork {claim : WorkRow}
    (claimed : claim ∈ (claimDueWork options locked genRandomUuid now rows).1) :
    ∃ row ∈ options.select locked now rows, row ∈ rows ∧ options.Due now row ∧
      claim = row.lease genRandomUuid (now + options.leaseMs) := by
  obtain ⟨row, selected, rfl⟩ := List.mem_map.mp claimed
  have due := ClaimOptions.due_of_mem_select selected
  exact ⟨row, selected, due.1, due.2, rfl⟩

/-- The claim of a key, when its row is selected. -/
theorem findWork_claims (lawful : Lawful rows) (workKey : WorkKey) :
    findWork workKey (claimDueWork options locked genRandomUuid now rows).1 =
      ((findWork workKey rows).filter fun row => row ∈ options.select locked now rows).map
        (WorkRow.lease genRandomUuid (now + options.leaseMs)) := by
  have mapped := findWork_map (f := WorkRow.lease genRandomUuid (now + options.leaseMs))
    (fun _ => rfl) workKey (options.select locked now rows)
  rw [claimDueWork, mapped]
  congr 1
  cases found : findWork workKey (options.select locked now rows) with
  | none =>
    rw [findWork_eq_none] at found
    symm
    rw [Option.filter_eq_none_iff]
    intro row stored selected
    have different := found row (by simpa using selected)
    exact absurd (workKey_of_findWork stored) different
  | some row =>
    have selected := mem_of_findWork found
    have stored := lawful.findWork_of_mem (ClaimOptions.due_of_mem_select selected).1
    rw [workKey_of_findWork found] at stored
    rw [stored]
    simp [Option.filter, selected]

end PrSearch.Work
