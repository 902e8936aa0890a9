import PrSearch.Sequence.RepairBehaviour

/-! # The tables after a committed transaction

What the statement lists of the previous modules leave in the rows and in the head. Both lists write
rows only at keys that are still free: above the head of the current epoch, or in an epoch that has
just been opened.
-/
namespace PrSearch.Sequence

/-! ### One statement -/

/-- What a statement that succeeds does to the tables. -/
def Write.effect : Write → Tables → Tables
  | .ensureSequenceSpace, t => t.ensureSequenceSpace
  | .upsertMergeSequence entry, t => (t.upsertMergeSequence entry).2
  | .copySequencesUpTo fromEpoch toEpoch upto, t => (t.copySequencesUpTo fromEpoch toEpoch upto).2
  | .bumpEpoch, t => t.bumpEpoch
  | .advanceHead headSha headSeq, t => t.advanceHead headSha headSeq
  | .markStale reason, t => t.markStale reason
  | .markReassigning, t => t.markReassigning
  | .restoreSequenceState state lastError, t => t.restoreSequenceState state lastError
  | .assignMergeNumbers seqEpoch assignments, t => (t.assignMergeNumbers seqEpoch assignments).2
  | .advanceMergeNumberCheckpoint seqEpoch checkpoint, t =>
      (t.advanceMergeNumberCheckpoint seqEpoch checkpoint).2
  | .upsertEvidence input, t => (t.upsertEvidence input).2
  | .request intent, t => { t with intents := t.intents ++ [intent] }

variable {db db' : Store} {requests : List Intent} {seqEpoch after : Int}
  {entries : List MergeSequenceInsert}

variable {t : Tables} {count keepSeq : Int} {write : Write} {rest : List Write}
  {commits : List FirstParentCommit} {entry : MergeSequenceInsert} {newHead : Sha}
  {core : SequenceSpace}

private theorem accepted_tables {answer : Int}
    (accepted : (match t.accept with
      | .ok next => .ok (answer, next)
      | .error fault => .error fault : Except Fault (Int × Store)) = .ok (count, db)) :
    db.toTables = t := by
  split at accepted
  next next here =>
    cases accepted
    exact Tables.accept_ok here
  next => cases accepted

theorem Write.run_effect (ran : write.run db = .ok (count, db')) :
    db'.toTables = write.effect db.toTables := by
  cases write with
  | upsertMergeSequence entry =>
    simp only [Write.run] at ran
    split at ran
    · cases ran
    · exact accepted_tables ran
  | bumpEpoch =>
    simp only [Write.run] at ran
    split at ran
    · cases ran
    · exact accepted_tables ran
  | upsertEvidence input =>
    simp only [Write.run] at ran
    split at ran
    · cases ran
    · exact accepted_tables ran
  | _ => exact accepted_tables ran

/-- The statement that opens an epoch fails when there is no space. -/
theorem Write.space_of_bumpEpoch (ran : Write.run .bumpEpoch db = .ok (count, db')) :
    ∃ space, db.space = some space := by
  simp only [Write.run] at ran
  split at ran
  · cases ran
  next space found => exact ⟨space, found⟩

theorem replay_cons (replayed : replay (write :: rest) db = .ok db') :
    ∃ count next, write.run db = .ok (count, next) ∧ replay rest next = .ok db' := by
  simp only [replay] at replayed
  split at replayed
  · cases replayed
  next count next ran => exact ⟨count, next, ran, replayed⟩

theorem replay_of_append {first : List Write} (replayed : replay (first ++ rest) db = .ok db') :
    ∃ between, replay first db = .ok between ∧ replay rest between = .ok db' := by
  rw [replay_append] at replayed
  split at replayed
  · cases replayed
  next between here => exact ⟨between, here, replayed⟩

theorem replay_requests (replayed : replay (requests.map .request) db = .ok db') :
    db'.space = db.space ∧ db'.rows = db.rows ∧ db'.evidence = db.evidence := by
  induction requests generalizing db with
  | nil =>
    cases replay_nil replayed
    exact ⟨rfl, rfl, rfl⟩
  | cons intent rest ih =>
    obtain ⟨count, next, ran, replayed⟩ := replay_cons replayed
    have effect := Write.run_effect ran
    have later := ih replayed
    rw [effect] at later
    exact later

/-! ### Runs of numbered rows -/

/-- The row that inserting an entry at a free key adds. -/
def MergeSequenceInsert.row (entry : MergeSequenceInsert) : MergeSequenceRow :=
  ⟨entry.seqEpoch, entry.mergeSeq, entry.commitSha, entry.pullRequestNumber, entry.committedAt, none⟩

/-- The entries are numbered one after another in the epoch, from the number after `after`. -/
def Consecutive (seqEpoch : Int) : Int → List MergeSequenceInsert → Prop
  | _, [] => True
  | after, entry :: rest =>
      entry.seqEpoch = seqEpoch ∧ entry.mergeSeq = after + 1 ∧ Consecutive seqEpoch (after + 1) rest

theorem numberCommits_cons (headSeq : Int) (commit : FirstParentCommit)
    (rest : List FirstParentCommit) :
    numberCommits headSeq (commit :: rest) =
      ⟨headSeq + 1, commit.sha, commit.committedAt⟩ :: numberCommits (headSeq + 1) rest := by
  simp only [numberCommits, List.mapIdx_cons]
  congr 1
  · simp
  · apply congrArg (fun f => List.mapIdx f rest)
    funext index entry
    have shift : headSeq + ((index + 1 : Nat) : Int) + 1 = headSeq + 1 + index + 1 := by omega
    rw [shift]

theorem Fills.consecutive (fills : Fills seqEpoch (numberCommits after commits) entries) :
    Consecutive seqEpoch after entries := by
  induction commits generalizing after entries with
  | nil =>
    cases fills
    trivial
  | cons commit rest ih =>
    rw [numberCommits_cons] at fills
    cases fills with
    | cons here later =>
      obtain ⟨pr, rfl⟩ := here
      exact ⟨rfl, rfl, ih later⟩

/-- The entries carry the commits in their order. -/
theorem Fills.commitSha_eq (fills : Fills seqEpoch (numberCommits after commits) entries) :
    entries.map MergeSequenceInsert.commitSha = commits.map FirstParentCommit.sha := by
  induction commits generalizing after entries with
  | nil =>
    cases fills
    rfl
  | cons commit rest ih =>
    rw [numberCommits_cons] at fills
    cases fills with
    | cons here later =>
      obtain ⟨pr, rfl⟩ := here
      simp only [List.map_cons, ih later]

theorem Consecutive.mem (consecutive : Consecutive seqEpoch after entries)
    (member : entry ∈ entries) :
    entry.seqEpoch = seqEpoch ∧ after < entry.mergeSeq ∧
      entry.mergeSeq ≤ after + entries.length := by
  induction entries generalizing after with
  | nil => cases member
  | cons head rest ih =>
    obtain ⟨epoch, seq, later⟩ := consecutive
    simp only [List.length_cons]
    rcases List.mem_cons.mp member with rfl | member
    · exact ⟨epoch, by omega, by omega⟩
    · obtain ⟨epoch, above, below⟩ := ih later member
      exact ⟨epoch, by omega, by omega⟩

theorem upsert_at_free_key
    (free : ∀ row ∈ t.rows, row.seqEpoch = entry.seqEpoch → row.mergeSeq ≠ entry.mergeSeq) :
    (t.upsertMergeSequence entry).2 = { t with rows := t.rows ++ [entry.row] } := by
  have none_held : t.rows.find? (MergeSequenceRow.keyed entry.seqEpoch entry.mergeSeq) = none := by
    rw [List.find?_eq_none]
    intro row member
    simp only [MergeSequenceRow.keyed, decide_eq_true_eq, not_and]
    exact free row member
  simp only [Tables.upsertMergeSequence, none_held, MergeSequenceInsert.row]

/-- Inserting above every number of the epoch appends the rows. -/
theorem replay_upserts (consecutive : Consecutive seqEpoch after entries)
    (free : ∀ row ∈ db.rows, row.seqEpoch = seqEpoch → row.mergeSeq ≤ after)
    (replayed : replay (entries.map .upsertMergeSequence) db = .ok db') :
    db'.toTables = { db.toTables with rows := db.rows ++ entries.map MergeSequenceInsert.row } := by
  induction entries generalizing db after with
  | nil =>
    cases replay_nil replayed
    simp
  | cons entry rest ih =>
    obtain ⟨epoch, seq, later⟩ := consecutive
    obtain ⟨count, next, ran, replayed⟩ := replay_cons replayed
    have inserted : next.toTables = { db.toTables with rows := db.rows ++ [entry.row] } := by
      rw [Write.run_effect ran]
      apply upsert_at_free_key
      intro row member same
      have below := free row member (same.trans epoch)
      omega
    have still_free : ∀ row ∈ next.rows, row.seqEpoch = seqEpoch → row.mergeSeq ≤ after + 1 := by
      intro row member same
      rw [inserted] at member
      rcases List.mem_append.mp member with old | new
      · have below := free row old same
        omega
      · rw [List.mem_singleton.mp new]
        exact seq.le
    rw [ih later still_free replayed, inserted]
    simp

/-! ### The two transactions -/

/-- The rows that `copySequencesUpTo` carries into the next epoch. -/
def keptRows (core : SequenceSpace) (keepSeq : Int) (rows : List MergeSequenceRow) :
    List MergeSequenceRow :=
  if 0 < keepSeq then
    (rows.filter fun row => row.seqEpoch = core.seqEpoch ∧ row.mergeSeq ≤ keepSeq).map
      fun row => { row with seqEpoch := core.seqEpoch + 1, mergeNumber := none }
  else []

theorem replay_headWrites {toSeq : Int} {space : SequenceSpace} (found : db.space = some space)
    (replayed : replay (headWrites newHead toSeq requests) db = .ok db') :
    db'.rows = db.rows ∧ db'.evidence = db.evidence ∧
      db'.core = { db.core with headSha := some newHead, headSeq := toSeq } := by
  obtain ⟨count, next, ran, replayed⟩ := replay_cons replayed
  obtain ⟨space_eq, rows_eq, evidence_eq⟩ := replay_requests replayed
  have effect := Write.run_effect ran
  rw [effect] at space_eq rows_eq evidence_eq
  refine ⟨rows_eq, evidence_eq, ?_⟩
  simp only [Tables.core, space_eq, Write.effect, Tables.advanceHead, Tables.updateSpace, found,
    Option.map_some, Option.getD_some]

/-- An assignment adds its rows above the head and moves the head. -/
theorem replay_appendWrites (consecutive : Consecutive db.core.seqEpoch db.core.headSeq entries)
    (free : ∀ row ∈ db.rows, row.seqEpoch = db.core.seqEpoch → row.mergeSeq ≤ db.core.headSeq)
    (same : core = db.core)
    (replayed : replay (appendWrites core newHead entries requests) db = .ok db') :
    db'.rows = db.rows ++ entries.map MergeSequenceInsert.row ∧ db'.evidence = db.evidence ∧
      db'.core = { db.core with
        headSha := some newHead, headSeq := db.core.headSeq + entries.length } := by
  subst same
  rw [appendWrites_eq, List.append_assoc] at replayed
  obtain ⟨ensured, ensures, replayed⟩ := replay_of_append replayed
  obtain ⟨filled, fills, replayed⟩ := replay_of_append replayed
  have core_eq := ensured_core ensures
  obtain ⟨count, next, ran, done⟩ := replay_cons ensures
  cases replay_nil done
  have effect := Write.run_effect ran
  have rows_eq : ensured.rows = db.rows := by
    rw [effect]
    cases h : db.space <;> simp [Write.effect, Tables.ensureSequenceSpace, h]
  have evidence_eq : ensured.evidence = db.evidence := by
    rw [effect]
    cases h : db.space <;> simp [Write.effect, Tables.ensureSequenceSpace, h]
  have found : ∃ space, ensured.space = some space := by
    rw [effect]
    cases h : db.space <;> simp [Write.effect, Tables.ensureSequenceSpace, h]
  have filled_eq := replay_upserts consecutive (by rw [rows_eq]; exact free) fills
  obtain ⟨space, found⟩ := found
  have still : filled.space = some space := by rw [filled_eq]; exact found
  obtain ⟨rows, evidence, head⟩ := replay_headWrites still replayed
  have filled_core : filled.core = db.core := by
    rw [filled_eq, ← core_eq]
    rfl
  refine ⟨?_, ?_, ?_⟩
  · rw [rows, filled_eq, rows_eq]
  · rw [evidence, filled_eq, evidence_eq]
  · rw [head, filled_core]

/-- A new epoch starts empty and takes what is kept of the old one. -/
theorem replay_epochWrites (free : ∀ row ∈ db.rows, row.seqEpoch ≠ db.core.seqEpoch + 1)
    (replayed : replay (epochWrites db.core keepSeq) db = .ok db') :
    db'.rows = db.rows ++ keptRows db.core keepSeq db.rows ∧ db'.evidence = db.evidence ∧
      (∃ space, db'.space = some space) ∧
      db'.core = ⟨db.core.seqEpoch + 1, none, 0, .ok, none, 0, 0, none⟩ := by
  obtain ⟨bumped, bumps, replayed⟩ := replay_of_append replayed
  obtain ⟨count, next, ran, done⟩ := replay_cons bumps
  cases replay_nil done
  obtain ⟨space, found⟩ := Write.space_of_bumpEpoch ran
  have effect := Write.run_effect ran
  have space_eq : bumped.space = some
      { space with
        seqEpoch := space.seqEpoch + 1, headSeq := 0, headSha := none, state := .reassigning,
        mnumberHeadSeq := 0, mnumberHead := 0, mnumberBlocked := none } := by
    rw [effect]
    simp [Write.effect, Tables.bumpEpoch, Tables.updateSpace, found]
  have rows_eq : bumped.rows = db.rows := by rw [effect]; rfl
  have evidence_eq : bumped.evidence = db.evidence := by rw [effect]; rfl
  have core_eq : bumped.core = ⟨db.core.seqEpoch + 1, none, 0, .ok, none, 0, 0, none⟩ := by
    simp [Tables.core, space_eq, found]
  by_cases keeps : 0 < keepSeq
  · rw [if_pos keeps] at replayed
    obtain ⟨count, next, ran, done⟩ := replay_cons replayed
    cases replay_nil done
    have copied := Write.run_effect ran
    have free_key : ∀ seq, db.rows.any
        (MergeSequenceRow.keyed (db.core.seqEpoch + 1) seq) = false := by
      intro seq
      rw [List.any_eq_false]
      intro row member
      simp [MergeSequenceRow.keyed, free row member]
    have copied_rows : db'.rows = db.rows ++ keptRows db.core keepSeq db.rows := by
      rw [copied]
      simp only [Write.effect, Tables.copySequencesUpTo, keptRows, if_pos keeps, free_key,
        Bool.false_eq_true, not_false_eq_true, and_true, rows_eq]
    refine ⟨copied_rows, ?_, ?_, ?_⟩
    · rw [copied]
      exact evidence_eq
    · rw [copied]
      exact ⟨_, space_eq⟩
    · rw [copied]
      exact core_eq
  · rw [if_neg keeps] at replayed
    cases replay_nil replayed
    refine ⟨?_, evidence_eq, ⟨_, space_eq⟩, core_eq⟩
    rw [rows_eq, keptRows, if_neg keeps, List.append_nil]

theorem mem_keptRows {rows : List MergeSequenceRow} {row : MergeSequenceRow} :
    row ∈ keptRows core keepSeq rows ↔ 0 < keepSeq ∧ ∃ old ∈ rows,
      old.seqEpoch = core.seqEpoch ∧ old.mergeSeq ≤ keepSeq ∧
        row = { old with seqEpoch := core.seqEpoch + 1, mergeNumber := none } := by
  unfold keptRows
  split
  next keeps =>
    simp only [List.mem_map, List.mem_filter, decide_eq_true_eq]
    constructor
    · rintro ⟨old, ⟨member, epoch, below⟩, rfl⟩
      exact ⟨keeps, old, member, epoch, below, rfl⟩
    · rintro ⟨-, old, member, epoch, below, rfl⟩
      exact ⟨old, ⟨member, epoch, below⟩, rfl⟩
  next none => simp [none]

/-- A rebuild keeps the old rows, copies a part of them into the new epoch and appends there. -/
theorem replay_rebuildWrites (consecutive : Consecutive (db.core.seqEpoch + 1) keepSeq entries)
    (free : ∀ row ∈ db.rows, row.seqEpoch ≠ db.core.seqEpoch + 1) (same : core = db.core)
    (replayed : replay (rebuildWrites core keepSeq newHead entries requests) db = .ok db') :
    db'.rows = db.rows ++ keptRows db.core keepSeq db.rows ++
        entries.map MergeSequenceInsert.row ∧
      db'.evidence = db.evidence ∧
      db'.core = ⟨db.core.seqEpoch + 1, some newHead, keepSeq + entries.length, .ok, none,
        0, 0, none⟩ := by
  subst same
  rw [rebuildWrites_eq, List.append_assoc] at replayed
  obtain ⟨started, starts, replayed⟩ := replay_of_append replayed
  obtain ⟨filled, fills, replayed⟩ := replay_of_append replayed
  obtain ⟨rows_eq, evidence_eq, ⟨space, found⟩, core_eq⟩ := replay_epochWrites free starts
  have still_free : ∀ row ∈ started.rows, row.seqEpoch = db.core.seqEpoch + 1 →
      row.mergeSeq ≤ keepSeq := by
    intro row member epoch
    rw [rows_eq] at member
    rcases List.mem_append.mp member with old | kept
    · exact absurd epoch (free row old)
    · obtain ⟨-, old, -, -, below, rfl⟩ := mem_keptRows.mp kept
      exact below
  have filled_eq := replay_upserts consecutive still_free fills
  have still : filled.space = some space := by rw [filled_eq]; exact found
  obtain ⟨rows, evidence, head⟩ := replay_headWrites still replayed
  have filled_core : filled.core = started.core := by
    rw [filled_eq]
    rfl
  refine ⟨?_, ?_, ?_⟩
  · rw [rows, filled_eq, rows_eq]
  · rw [evidence, filled_eq, evidence_eq]
  · rw [head, filled_core, core_eq]

end PrSearch.Sequence
