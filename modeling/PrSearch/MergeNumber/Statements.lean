import PrSearch.MergeNumber.Plan
import PrSearch.Sequence.Transitions

/-! # The statements of a numbering round

What `upsertEvidence` leaves of the evidence, which rows `assignMergeNumbers` writes, and what a
transaction of both does to the tables.
-/
namespace PrSearch.MergeNumber

open Sequence Tally

/-! ### Evidence -/

/-- Evidence stays, its version does not fall, and while the version stays the row does. -/
def EvidenceKept (a b : List EvidenceRow) : Prop :=
  ∀ old ∈ a, ∃ new ∈ b, (new.seqEpoch = old.seqEpoch ∧ new.mergeSeq = old.mergeSeq) ∧
    old.evidenceVersion ≤ new.evidenceVersion ∧
    (new.evidenceVersion = old.evidenceVersion → new = old)

theorem EvidenceKept.refl (evidence : List EvidenceRow) : EvidenceKept evidence evidence :=
  fun old member => ⟨old, member, ⟨rfl, rfl⟩, le_refl _, fun _ => rfl⟩

theorem EvidenceKept.trans {a b c : List EvidenceRow} (first : EvidenceKept a b)
    (second : EvidenceKept b c) : EvidenceKept a c := by
  intro old member
  obtain ⟨middle, between, ⟨epoch, seq⟩, grown, same⟩ := first old member
  obtain ⟨new, inside, ⟨epoch', seq'⟩, grown', same'⟩ := second middle between
  refine ⟨new, inside, ⟨epoch'.trans epoch, seq'.trans seq⟩, grown.trans grown', ?_⟩
  intro version
  -- Two steps that do not fall and end where they began have not moved.
  have still : middle.evidenceVersion = old.evidenceVersion := by omega
  rw [same' (version.trans still.symm), same still]

/-- The row is at the key of the upsert. -/
def AtKey (input : EvidenceUpsert) (row : EvidenceRow) : Prop :=
  row.seqEpoch = input.seqEpoch ∧ row.mergeSeq = input.mergeSeq

/-- What an upsert leaves at its key. -/
def StoredAs (input : EvidenceUpsert) (row : EvidenceRow) : Prop :=
  AtKey input row ∧ row.state = input.state ∧ row.prNumber = input.prNumber

@[simp] theorem upsertEvidence_rows (input : EvidenceUpsert) (t : Tables) :
    (t.upsertEvidence input).2.rows = t.rows := by
  unfold Tables.upsertEvidence
  dsimp only
  split
  · rfl
  · split <;> rfl

@[simp] theorem upsertEvidence_space (input : EvidenceUpsert) (t : Tables) :
    (t.upsertEvidence input).2.space = t.space := by
  unfold Tables.upsertEvidence
  dsimp only
  split
  · rfl
  · split <;> rfl

variable {input : EvidenceUpsert} {db db' : Store} {upserts : List EvidenceUpsert}
  {entries : List (Option Int)}

/-- Evidence at other keys is not touched. -/
theorem upsertEvidence_other {t : Tables} {row : EvidenceRow} (member : row ∈ t.evidence)
    (other : ¬ AtKey input row) : row ∈ (t.upsertEvidence input).2.evidence := by
  unfold AtKey at other
  unfold Tables.upsertEvidence
  dsimp only
  split
  · exact List.mem_append_left _ member
  · split
    · refine List.mem_map.mpr ⟨row, member, ?_⟩
      rw [if_neg other]
    · exact member

theorem upsertEvidence_kept (input : EvidenceUpsert) (t : Tables) :
    EvidenceKept t.evidence (t.upsertEvidence input).2.evidence := by
  intro old member
  unfold Tables.upsertEvidence
  dsimp only
  split
  · exact ⟨old, List.mem_append_left _ member, ⟨rfl, rfl⟩, le_refl _, fun _ => rfl⟩
  · split
    · refine ⟨_, List.mem_map_of_mem member, ?_, ?_, ?_⟩
      · split <;> exact ⟨rfl, rfl⟩
      · split
        · dsimp only
          omega
        · exact le_refl _
      · split
        · intro version
          dsimp only at version
          omega
        · exact fun _ => rfl
    · exact ⟨old, member, ⟨rfl, rfl⟩, le_refl _, fun _ => rfl⟩

/-- An upsert that succeeds has stored its input. -/
theorem upsertEvidence_stores {count : Int}
    (ran : Write.run (.upsertEvidence input) db = .ok (count, db')) :
    ∃ row ∈ db'.evidence, StoredAs input row := by
  have effect := Write.run_effect ran
  simp only [Write.run] at ran
  split at ran
  · cases ran
  next stored =>
    rw [effect]
    simp only [Write.effect]
    unfold Tables.upsertEvidence at stored ⊢
    dsimp only at stored ⊢
    split
    next found => exact ⟨_, List.mem_append_right _ List.mem_cons_self, ⟨rfl, rfl⟩, rfl, rfl⟩
    next held found =>
      have keyed := List.find?_some found
      simp only [decide_eq_true_eq] at keyed
      rw [found] at stored
      dsimp only at stored
      split
      next may =>
        refine ⟨_, List.mem_map_of_mem (List.mem_of_find?_eq_some found), ?_⟩
        rw [if_pos keyed]
        exact ⟨keyed, rfl, rfl⟩
      next refused =>
        rw [if_neg refused] at stored
        exact absurd rfl stored

theorem effect_evidence (write : Write) (t : Tables) :
    EvidenceKept t.evidence (write.effect t).evidence := by
  cases write with
  | ensureSequenceSpace =>
    simp only [Write.effect, Tables.ensureSequenceSpace]
    split <;> exact .refl _
  | upsertMergeSequence entry =>
    simp only [Write.effect, Tables.upsertMergeSequence]
    split
    · exact .refl _
    · split <;> exact .refl _
  | markStale reason =>
    simp only [Write.effect, Tables.markStale]
    split <;> exact .refl _
  | advanceMergeNumberCheckpoint epoch checkpoint =>
    simp only [Write.effect, Tables.advanceMergeNumberCheckpoint]
    split
    · exact .refl _
    · split <;> exact .refl _
  | upsertEvidence input => exact upsertEvidence_kept input t
  | copySequencesUpTo fromEpoch toEpoch upto => exact .refl _
  | assignMergeNumbers epoch assignments => exact .refl _
  | bumpEpoch => exact .refl _
  | advanceHead headSha headSeq => exact .refl _
  | markReassigning => exact .refl _
  | restoreSequenceState state lastError => exact .refl _
  | request intent => exact .refl _

theorem replay_evidence {ws : List Write} (replayed : replay ws db = .ok db') :
    EvidenceKept db.evidence db'.evidence := by
  induction ws generalizing db with
  | nil =>
    cases replay_nil replayed
    exact .refl _
  | cons write rest ih =>
    obtain ⟨count, next, ran, replayed⟩ := replay_cons replayed
    have first := effect_evidence write db.toTables
    rw [← Write.run_effect ran] at first
    exact first.trans (ih replayed)

/-- Upserts that agree where they meet: each is stored, and what they do not name is kept. -/
theorem replay_upsertEvidence
    (agree : ∀ u ∈ upserts, ∀ v ∈ upserts,
      u.seqEpoch = v.seqEpoch → u.mergeSeq = v.mergeSeq → u = v)
    (replayed : replay (upserts.map .upsertEvidence) db = .ok db') :
    db'.rows = db.rows ∧ db'.space = db.space ∧
      (∀ u ∈ upserts, ∃ row ∈ db'.evidence, StoredAs u row) ∧
      ∀ row ∈ db.evidence, (∀ u ∈ upserts, ¬ AtKey u row) → row ∈ db'.evidence := by
  induction upserts generalizing db with
  | nil =>
    cases replay_nil replayed
    exact ⟨rfl, rfl, by simp, fun row member _ => member⟩
  | cons first rest ih =>
    obtain ⟨count, next, ran, replayed⟩ := replay_cons replayed
    have effect := Write.run_effect ran
    obtain ⟨rows, space, stored, kept⟩ := ih
      (fun u here v there => agree u (List.mem_cons_of_mem _ here) v (List.mem_cons_of_mem _ there))
      replayed
    refine ⟨?_, ?_, ?_, ?_⟩
    · rw [rows, effect]
      exact upsertEvidence_rows first db.toTables
    · rw [space, effect]
      exact upsertEvidence_space first db.toTables
    · intro u member
      rcases List.mem_cons.mp member with rfl | later
      · -- The first upsert is stored now, and a later one at its key is the same.
        by_cases repeated : u ∈ rest
        · exact stored u repeated
        · obtain ⟨row, inside, keyed, value⟩ := upsertEvidence_stores ran
          refine ⟨row, kept row inside ?_, keyed, value⟩
          rintro v later ⟨epoch, seq⟩
          apply repeated
          rw [agree u member v (List.mem_cons_of_mem _ later) (keyed.1.symm.trans epoch)
            (keyed.2.symm.trans seq)]
          exact later
      · exact stored u later
    · intro row member other
      apply kept row
      · rw [effect]
        exact upsertEvidence_other member (other first List.mem_cons_self)
      · exact fun u later => other u (List.mem_cons_of_mem _ later)

/-! ### Rows -/

/-- What `assignMergeNumbers` makes of one row. -/
def assignRow (seqEpoch : Int) (assignments : List MergeNumberAssignment)
    (row : MergeSequenceRow) : MergeSequenceRow :=
  match Tables.assignmentFor seqEpoch assignments row with
  | some a => { row with mergeNumber := some a.mergeNumber, pullRequestNumber := some a.prNumber }
  | none => row

theorem effect_assignMergeNumbers (seqEpoch : Int) (assignments : List MergeNumberAssignment)
    (t : Tables) :
    Write.effect (.assignMergeNumbers seqEpoch assignments) t =
      { t with rows := t.rows.map (assignRow seqEpoch assignments) } := rfl

section

variable {seqEpoch : Int} {assignments : List MergeNumberAssignment} {row : MergeSequenceRow}

@[simp] theorem assignRow_seqEpoch :
    (assignRow seqEpoch assignments row).seqEpoch = row.seqEpoch := by
  unfold assignRow
  split <;> rfl

@[simp] theorem assignRow_mergeSeq :
    (assignRow seqEpoch assignments row).mergeSeq = row.mergeSeq := by
  unfold assignRow
  split <;> rfl

@[simp] theorem assignRow_commitSha :
    (assignRow seqEpoch assignments row).commitSha = row.commitSha := by
  unfold assignRow
  split <;> rfl

/-- A row of another epoch, or one without an assignment, is left alone. -/
theorem assignRow_unassigned
    (unassigned : row.seqEpoch = seqEpoch → ∀ a ∈ assignments, a.mergeSeq ≠ row.mergeSeq) :
    assignRow seqEpoch assignments row = row := by
  have none : Tables.assignmentFor seqEpoch assignments row = none := by
    unfold Tables.assignmentFor
    split
    next epoch =>
      rw [List.find?_eq_none]
      intro a member
      have apart := unassigned epoch a member
      simp [apart.symm]
    next => rfl
  simp only [assignRow, none]

/-- The assignment of an unnumbered row that does not contradict it. -/
theorem assignmentFor_eq {a : MergeNumberAssignment}
    (distinct : (assignments.map MergeNumberAssignment.mergeSeq).Nodup) (member : a ∈ assignments)
    (epoch : row.seqEpoch = seqEpoch) (seq : row.mergeSeq = a.mergeSeq)
    (pr : row.pullRequestNumber = none ∨ row.pullRequestNumber = some a.prNumber)
    (unnumbered : row.mergeNumber = none) :
    Tables.assignmentFor seqEpoch assignments row = some a := by
  simp only [Tables.assignmentFor, if_pos epoch]
  cases found : assignments.find? fun a => row.mergeSeq = a.mergeSeq ∧
      (row.pullRequestNumber = none ∨ row.pullRequestNumber = some a.prNumber) ∧
      (row.mergeNumber = none ∨ row.mergeNumber = some a.mergeNumber) with
  | none =>
    have missing := List.find?_eq_none.mp found a member
    simp [seq, pr, unnumbered] at missing
  | some other =>
    have matched := List.find?_some found
    simp only [decide_eq_true_eq] at matched
    have there := List.mem_of_find?_eq_some found
    rw [List.inj_on_of_nodup_map distinct there member (matched.1.symm.trans seq)]

end

/-- A round writes one row for each assignment, if each of them finds its row. -/
theorem countP_assigned {seqEpoch : Int} {assignments : List MergeNumberAssignment}
    (distinct : (assignments.map MergeNumberAssignment.mergeSeq).Nodup)
    (found : ∀ a ∈ assignments, ∃ row ∈ db.rows, row.seqEpoch = seqEpoch ∧
      row.mergeSeq = a.mergeSeq ∧
      (row.pullRequestNumber = none ∨ row.pullRequestNumber = some a.prNumber) ∧
      row.mergeNumber = none) :
    (db.rows.countP fun row => (Tables.assignmentFor seqEpoch assignments row).isSome) =
      assignments.length := by
  -- The written rows and the assignments have the same sequence numbers, each once.
  have once : ((db.rows.filter fun row =>
      (Tables.assignmentFor seqEpoch assignments row).isSome).map
        MergeSequenceRow.mergeSeq).Nodup := by
    rw [List.nodup_iff_pairwise_ne, List.pairwise_map, List.pairwise_filter]
    refine db.lawful.distinct.imp fun {a b} apart here there => ?_
    have epoch : ∀ {row}, (Tables.assignmentFor seqEpoch assignments row).isSome →
        row.seqEpoch = seqEpoch := by
      intro row some
      unfold Tables.assignmentFor at some
      split at some
      · assumption
      · cases some
    exact (apart ((epoch here).trans (epoch there).symm)).1
  have same : ∀ seq, seq ∈ (db.rows.filter fun row =>
      (Tables.assignmentFor seqEpoch assignments row).isSome).map MergeSequenceRow.mergeSeq ↔
        seq ∈ assignments.map MergeNumberAssignment.mergeSeq := by
    intro seq
    simp only [List.mem_map, List.mem_filter]
    constructor
    · rintro ⟨row, ⟨-, matched⟩, rfl⟩
      obtain ⟨a, here⟩ := Option.isSome_iff_exists.mp matched
      unfold Tables.assignmentFor at here
      split at here
      · have agrees := List.find?_some here
        simp only [decide_eq_true_eq] at agrees
        exact ⟨a, List.mem_of_find?_eq_some here, agrees.1.symm⟩
      · cases here
    · rintro ⟨a, member, rfl⟩
      obtain ⟨row, inside, epoch, seq, pr, unnumbered⟩ := found a member
      refine ⟨row, ⟨inside, ?_⟩, seq⟩
      rw [assignmentFor_eq distinct member epoch seq pr unnumbered]
      rfl
  have permuted := (List.perm_ext_iff_of_nodup once distinct).mpr same
  have lengths := permuted.length_eq
  rw [List.length_map, List.length_map] at lengths
  rw [List.countP_eq_length_filter, lengths]

/-! ### The transaction -/

/-- The statement that writes the numbers of `entries`, if there are any. -/
def assignWrites (core : SequenceSpace) (entries : List (Option Int)) : List Write :=
  if assigned core.mnumberHeadSeq core.mnumberHead entries = [] then []
  else [.assignMergeNumbers core.seqEpoch (assigned core.mnumberHeadSeq core.mnumberHead entries)]

/-- The statements of a round that passes `entries` after the checkpoint of `core`. -/
def numberWrites (core : SequenceSpace) (upserts : List EvidenceUpsert)
    (entries : List (Option Int)) (blocked : Option Blocked) (requests : List Intent) :
    List Write :=
  upserts.map .upsertEvidence ++ assignWrites core entries ++
    [.advanceMergeNumberCheckpoint core.seqEpoch
      ⟨core.mnumberHeadSeq + entries.length, core.mnumberHead + total entries, blocked⟩] ++
    requests.map .request

theorem replay_assignWrites {core : SequenceSpace}
    (replayed : replay (assignWrites core entries) db = .ok db') :
    db'.toTables = { db.toTables with
      rows := db.rows.map (assignRow core.seqEpoch
        (assigned core.mnumberHeadSeq core.mnumberHead entries)) } := by
  unfold assignWrites at replayed
  split at replayed
  next empty =>
    cases replay_nil replayed
    have unchanged : ∀ row, assignRow core.seqEpoch
        (assigned core.mnumberHeadSeq core.mnumberHead entries) row = row := by
      intro row
      apply assignRow_unassigned
      simp [empty]
    rw [List.map_id'' unchanged]
  next =>
    obtain ⟨count, next, ran, done⟩ := replay_cons replayed
    cases replay_nil done
    rw [Write.run_effect ran, effect_assignMergeNumbers]

theorem advanceMergeNumberCheckpoint_core (t : Tables) (checkpoint : MergeNumberCheckpoint) :
    (Write.effect (.advanceMergeNumberCheckpoint t.core.seqEpoch checkpoint) t).core =
      match t.space with
      | none => t.core
      | some _ => { t.core with
          mnumberHeadSeq := checkpoint.headSeq
          mnumberHead := checkpoint.headNumber
          mnumberBlocked := checkpoint.blocked } := by
  simp only [Write.effect, Tables.advanceMergeNumberCheckpoint]
  cases h : t.space with
  | none => rfl
  | some space => simp [Tables.core, h]

/-- A round writes its evidence and its numbers, and moves the checkpoint of its epoch. -/
theorem replay_numberWrites {blocked : Option Blocked} {requests : List Intent}
    (agree : ∀ u ∈ upserts, ∀ v ∈ upserts,
      u.seqEpoch = v.seqEpoch → u.mergeSeq = v.mergeSeq → u = v)
    (replayed : replay (numberWrites db.core upserts entries blocked requests) db = .ok db') :
    db'.rows = db.rows.map (assignRow db.core.seqEpoch
        (assigned db.core.mnumberHeadSeq db.core.mnumberHead entries)) ∧
      ((∀ u ∈ upserts, ∃ row ∈ db'.evidence, StoredAs u row) ∧
        ∀ row ∈ db.evidence, (∀ u ∈ upserts, ¬ AtKey u row) → row ∈ db'.evidence) ∧
      db'.core = match db.space with
        | none => db.core
        | some _ => { db.core with
            mnumberHeadSeq := db.core.mnumberHeadSeq + entries.length
            mnumberHead := db.core.mnumberHead + total entries
            mnumberBlocked := blocked } := by
  rw [numberWrites, List.append_assoc, List.append_assoc] at replayed
  obtain ⟨stored, stores, replayed⟩ := replay_of_append replayed
  obtain ⟨numbered, numbers, replayed⟩ := replay_of_append replayed
  obtain ⟨moved, moves, replayed⟩ := replay_of_append replayed
  obtain ⟨rows, space, evidence⟩ := replay_upsertEvidence agree stores
  have assigns := replay_assignWrites numbers
  obtain ⟨count, next, ran, done⟩ := replay_cons moves
  cases replay_nil done
  have effect := Write.run_effect ran
  obtain ⟨space_eq, rows_eq, evidence_eq⟩ := replay_requests replayed
  have numbered_space : numbered.space = db.space := by
    rw [assigns]
    exact space
  have moved_rows : moved.rows = numbered.rows ∧ moved.evidence = numbered.evidence := by
    rw [effect]
    simp only [Write.effect, Tables.advanceMergeNumberCheckpoint]
    split
    · exact ⟨rfl, rfl⟩
    · split <;> exact ⟨rfl, rfl⟩
  refine ⟨?_, ?_, ?_⟩
  · rw [rows_eq, moved_rows.1, assigns]
    dsimp only
    rw [rows]
  · rw [evidence_eq, moved_rows.2, assigns]
    exact evidence
  · have core_eq : numbered.core = db.core := by simp only [Tables.core, numbered_space]
    have moved_core : db'.core = moved.core := by simp only [Tables.core, space_eq]
    rw [moved_core, effect, ← core_eq, ← numbered_space]
    exact advanceMergeNumberCheckpoint_core numbered.toTables _

end PrSearch.MergeNumber
