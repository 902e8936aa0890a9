import PrSearch.MergeNumber.Ledger

/-! # What a round appends to the ledger

A committed round passes the rows right after the checkpoint: each of them is a row of the table
that its entry does not contradict, and its evidence is stored by the round or was there already.
Such a round takes counted tables to counted tables and appends its entries to the ledger.
-/
namespace PrSearch.MergeNumber

open Sequence Tally

/-- The upsert says what the entry told. -/
def Says (input : EvidenceUpsert) : Option Int → Prop
  | none => input.state = .directConfirmed
  | some prNumber => input.state = .prConfirmed ∧ input.prNumber = some prNumber

/-- The row that an entry stands for, and its evidence once the upserts are stored. -/
structure Backed (db : Store) (upserts : List EvidenceUpsert) (mergeSeq : Int)
    (entry : Option Int) : Prop where
  row : ∃ row ∈ db.rows, (row.seqEpoch = db.core.seqEpoch ∧ row.mergeSeq = mergeSeq) ∧
    ∀ prNumber, entry = some prNumber →
      row.pullRequestNumber = none ∨ row.pullRequestNumber = some prNumber
  evidence : (∃ u ∈ upserts, u.mergeSeq = mergeSeq ∧ Says u entry) ∨
    Attests db.evidence db.core.seqEpoch mergeSeq entry ∧ ∀ u ∈ upserts, u.mergeSeq ≠ mergeSeq

/-- The evidence of a round: for rows of the epoch above the checkpoint, one upsert for each. -/
structure Fresh (core : SequenceSpace) (upserts : List EvidenceUpsert) : Prop where
  epoch : ∀ u ∈ upserts, u.seqEpoch = core.seqEpoch
  above : ∀ u ∈ upserts, core.mnumberHeadSeq < u.mergeSeq
  once : ∀ u ∈ upserts, ∀ v ∈ upserts, u.mergeSeq = v.mergeSeq → u = v

/-- A committed round. -/
structure Numbered (ws : List Write) (db db' : Store) : Prop where
  shape : ∃ upserts entries blocked requests,
    ws = numberWrites db.core upserts entries blocked requests ∧ Fresh db.core upserts ∧
      ∀ (i : Nat) entry, entries[i]? = some entry →
        Backed db upserts (db.core.mnumberHeadSeq + i + 1) entry
  replayed : replay ws db = .ok db'

section

variable {db db' : Store} {upserts : List EvidenceUpsert} {entries : Ledger}
  {blocked : Option Blocked} {requests : List Intent}

/-- The checkpoint moves over the entries. A round without a space has no entries. -/
theorem numbered_core (sound : Sound db)
    (backed : ∀ (i : Nat) entry, entries[i]? = some entry →
      Backed db upserts (db.core.mnumberHeadSeq + i + 1) entry)
    (core_eq : db'.core = match db.space with
      | none => db.core
      | some _ => { db.core with
          mnumberHeadSeq := db.core.mnumberHeadSeq + entries.length
          mnumberHead := db.core.mnumberHead + total entries
          mnumberBlocked := blocked }) :
    (db'.core.seqEpoch = db.core.seqEpoch ∧ db'.core.headSeq = db.core.headSeq) ∧
      db'.core.mnumberHeadSeq = db.core.mnumberHeadSeq + entries.length ∧
      db'.core.mnumberHead = db.core.mnumberHead + total entries := by
  cases h : db.space with
  | some space =>
    rw [h] at core_eq
    rw [core_eq]
    exact ⟨⟨rfl, rfl⟩, rfl, rfl⟩
  | none =>
    rw [h] at core_eq
    have nothing : db.core.headSeq = 0 ∧ db.core.mnumberHeadSeq = 0 := by
      simp [Tables.core, h]
    cases entries with
    | nil =>
      rw [core_eq]
      simp
    | cons first rest =>
      -- The first entry would stand for a row, and there is none.
      obtain ⟨row, member, ⟨epoch, seq⟩, -⟩ := (backed 0 first rfl).row
      have bounds := (sound.dense row.mergeSeq).mp ⟨row.commitSha, row, member, epoch, rfl, rfl⟩
      simp only [nothing, seq, Nat.cast_zero] at bounds
      omega

variable {ledger : Ledger} {row : MergeSequenceRow}

/-- A row that the round does not number stays as it is. -/
theorem assignRow_outside (represents : Represents db ledger) {i : Nat}
    (place : row.mergeSeq = i + 1)
    (outside : ∀ j prNumber, i = ledger.length + j → entries[j]? ≠ some (some prNumber)) :
    assignRow db.core.seqEpoch
      (assigned db.core.mnumberHeadSeq db.core.mnumberHead entries) row = row := by
  apply assignRow_unassigned
  rintro - a member same
  obtain ⟨j, n, prNumber, here, -, rfl⟩ := mem_assigned.mp member
  apply outside j prNumber _ here
  rw [represents.headSeq] at same
  dsimp only at same
  omega

/-- A row that the round numbers takes the number of its entry. -/
theorem assignRow_inside (represents : Represents db ledger) {j n : Nat} {prNumber : Int}
    (member : row ∈ db.rows) (epoch : row.seqEpoch = db.core.seqEpoch)
    (place : row.mergeSeq = (ledger.length + j : Nat) + 1)
    (backed : Backed db upserts (db.core.mnumberHeadSeq + j + 1) (some prNumber))
    (here : entries[j]? = some (some prNumber)) (numbered : numberAt entries j = some n) :
    assignRow db.core.seqEpoch
        (assigned db.core.mnumberHeadSeq db.core.mnumberHead entries) row =
      { row with
        mergeNumber := some (db.core.mnumberHead + n), pullRequestNumber := some prNumber } := by
  have seq : row.mergeSeq = db.core.mnumberHeadSeq + j + 1 := by
    rw [place, represents.headSeq]
    push_cast
    omega
  obtain ⟨row', member', ⟨epoch', seq'⟩, compatible⟩ := backed.row
  have same := rows_distinct db member member' (epoch.trans epoch'.symm)
    (Or.inl (seq.trans seq'.symm))
  subst same
  have unnumbered : row.mergeNumber = none := by
    rw [represents.number row member epoch _ place, numberAt_of_length_le (by omega)]
    rfl
  have taken : (⟨db.core.mnumberHeadSeq + j + 1, prNumber, db.core.mnumberHead + n⟩ :
      MergeNumberAssignment) ∈ assigned db.core.mnumberHeadSeq db.core.mnumberHead entries :=
    mem_assigned.mpr ⟨j, n, prNumber, here, numbered, rfl⟩
  have chosen := assignmentFor_eq (assigned_nodup _ _ entries) taken epoch seq
    (compatible prNumber rfl) unnumbered
  simp only [assignRow, chosen]

/-- The round appends its entries to the ledger. -/
theorem Represents.number_rows (represents : Represents db ledger) (sound : Sound db)
    (fresh : Fresh db.core upserts)
    (backed : ∀ (i : Nat) entry, entries[i]? = some entry →
      Backed db upserts (db.core.mnumberHeadSeq + i + 1) entry)
    (replayed : replay (numberWrites db.core upserts entries blocked requests) db = .ok db') :
    Represents db' (ledger ++ entries) := by
  have agree : ∀ u ∈ upserts, ∀ v ∈ upserts,
      u.seqEpoch = v.seqEpoch → u.mergeSeq = v.mergeSeq → u = v :=
    fun u here v there _ seq => fresh.once u here v there seq
  obtain ⟨rows, ⟨stored, kept⟩, core_eq⟩ := replay_numberWrites agree replayed
  obtain ⟨⟨epoch_eq, -⟩, headSeq, head⟩ := numbered_core sound backed core_eq
  constructor
  · rw [headSeq, represents.headSeq, List.length_append]
    push_cast
    rfl
  · rw [head, represents.head, total_append]
    push_cast
    rfl
  · intro row' member' epoch i place
    rw [rows] at member'
    obtain ⟨row, member, rfl⟩ := List.mem_map.mp member'
    rw [assignRow_seqEpoch, epoch_eq] at epoch
    rw [assignRow_mergeSeq] at place
    have number := represents.number row member epoch i place
    by_cases old : i < ledger.length
    · rw [assignRow_outside represents place (by omega), number, numberAt_append_left _ old]
    · obtain ⟨j, rfl⟩ := Nat.exists_eq_add_of_le (Nat.le_of_not_lt old)
      rw [numberAt_append_right]
      rw [numberAt_of_length_le (by omega)] at number
      cases numbered : numberAt entries j with
      | none =>
        rw [assignRow_outside represents place, number]
        · rfl
        · intro k prNumber same here
          have sameIndex : k = j := by omega
          subst sameIndex
          have some := (numberAt_isSome_iff entries k).mpr ⟨prNumber, here⟩
          rw [numbered] at some
          cases some
      | some n =>
        obtain ⟨prNumber, here⟩ := (numberAt_isSome_iff entries j).mp (by rw [numbered]; rfl)
        rw [assignRow_inside represents member epoch place (backed j _ here) here numbered,
          represents.head]
        simp only [Option.map_some, Option.some.injEq]
        push_cast
        omega
  · intro row' member' epoch i place prNumber here
    rw [rows] at member'
    obtain ⟨row, member, rfl⟩ := List.mem_map.mp member'
    rw [assignRow_seqEpoch, epoch_eq] at epoch
    rw [assignRow_mergeSeq] at place
    by_cases old : i < ledger.length
    · rw [assignRow_outside represents place (by omega)]
      rw [List.getElem?_append_left old] at here
      exact represents.pullRequest row member epoch i place prNumber here
    · obtain ⟨j, rfl⟩ := Nat.exists_eq_add_of_le (Nat.le_of_not_lt old)
      rw [List.getElem?_append_right (by omega)] at here
      have index : ledger.length + j - ledger.length = j := by omega
      rw [index] at here
      obtain ⟨n, numbered⟩ := Option.isSome_iff_exists.mp
        ((numberAt_isSome_iff entries j).mpr ⟨prNumber, here⟩)
      rw [assignRow_inside represents member epoch place (backed j _ here) here numbered]
  · intro i entry here
    rw [epoch_eq]
    by_cases old : i < ledger.length
    · -- The evidence below the checkpoint is not written again.
      rw [List.getElem?_append_left old] at here
      obtain ⟨row, member, ⟨epoch, seq⟩, told⟩ := represents.evidence i entry here
      refine ⟨row, kept row member ?_, ⟨epoch, seq⟩, told⟩
      rintro u inside ⟨-, same⟩
      have above := fresh.above u inside
      rw [represents.headSeq] at above
      omega
    · obtain ⟨j, rfl⟩ := Nat.exists_eq_add_of_le (Nat.le_of_not_lt old)
      rw [List.getElem?_append_right (by omega)] at here
      have index : ledger.length + j - ledger.length = j := by omega
      rw [index] at here
      have place : ((ledger.length + j : Nat) : Int) + 1 = db.core.mnumberHeadSeq + j + 1 := by
        rw [represents.headSeq]
        push_cast
        omega
      rw [place]
      rcases (backed j entry here).evidence with ⟨u, inside, seq, told⟩ | ⟨attested, other⟩
      · obtain ⟨row, member, ⟨epoch, same⟩, state, pr⟩ := stored u inside
        refine ⟨row, member, ⟨epoch.trans (fresh.epoch u inside), same.trans seq⟩, ?_⟩
        cases entry with
        | none => exact state.trans told
        | some prNumber => exact ⟨state.trans told.1, pr.trans told.2⟩
      · obtain ⟨row, member, ⟨epoch, seq⟩, told⟩ := attested
        refine ⟨row, kept row member ?_, ⟨epoch, seq⟩, told⟩
        rintro u inside ⟨-, same⟩
        exact other u inside (same.symm.trans seq)

/-- Numbering does not touch epochs, sequence numbers or commits. -/
theorem evolves_of_assignRow {assignments : List MergeNumberAssignment}
    (rows : db'.rows = db.rows.map (assignRow db.core.seqEpoch assignments))
    (binds : ∀ seqEpoch mergeSeq sha, BindsIn db.rows seqEpoch mergeSeq sha →
      BindsIn db'.rows seqEpoch mergeSeq sha)
    (core : Sound db → db'.core.seqEpoch = db.core.seqEpoch ∧ db'.core.headSeq = db.core.headSeq) :
    Evolves db db' := by
  constructor
  · exact binds
  · intro sound
    obtain ⟨epoch_eq, headSeq_eq⟩ := core sound
    constructor
    · rw [headSeq_eq]
      exact sound.headSeq
    · intro seq
      rw [epoch_eq, headSeq_eq, rows]
      simp only [bindsIn_map fun row => ⟨assignRow_seqEpoch, assignRow_mergeSeq,
        assignRow_commitSha⟩]
      exact sound.dense seq
    · intro row' member
      rw [rows] at member
      obtain ⟨row, inside, rfl⟩ := List.mem_map.mp member
      rw [assignRow_seqEpoch, epoch_eq]
      exact sound.unopened row inside
  · intro sound
    exact (core sound).1.ge
  · intro sound seqEpoch before
    rw [epochRows, epochRows, rows, List.filter_map]
    have same : ((fun row : MergeSequenceRow => decide (row.seqEpoch = seqEpoch)) ∘
        assignRow db.core.seqEpoch assignments) = fun row => decide (row.seqEpoch = seqEpoch) := by
      funext row
      simp
    rw [same]
    -- Rows of other epochs have no assignment.
    have unchanged : ∀ row ∈ db.rows.filter fun row => row.seqEpoch = seqEpoch,
        assignRow db.core.seqEpoch assignments row = row := by
      intro row member
      have epoch := of_decide_eq_true (List.mem_filter.mp member).2
      apply assignRow_unassigned
      intro current
      omega
    rw [List.map_congr_left unchanged, List.map_id']

/-- A committed round keeps the tables counted. -/
theorem Numbered.counts {ws : List Write} (numbered : Numbered ws db db') : Counts db db' := by
  obtain ⟨⟨upserts, entries, blocked, requests, rfl, fresh, backed⟩, replayed⟩ := numbered
  have agree : ∀ u ∈ upserts, ∀ v ∈ upserts,
      u.seqEpoch = v.seqEpoch → u.mergeSeq = v.mergeSeq → u = v :=
    fun u here v there _ seq => fresh.once u here v there seq
  obtain ⟨rows, -, core_eq⟩ := replay_numberWrites agree replayed
  have core := fun sound : Sound db => numbered_core sound backed core_eq
  have evolves : Evolves db db' :=
    evolves_of_assignRow rows (fun _ _ _ => replay_binds replayed) fun sound => (core sound).1
  have grows : ∀ counted : Counted db, ∀ ledger, Represents db ledger →
      Represents db' (ledger ++ entries) :=
    fun counted ledger represents => represents.number_rows counted.sound fresh backed replayed
  -- A row at or below the old checkpoint, or above the new one, is not numbered by the round.
  have stays : ∀ row ∈ db.rows, (row.seqEpoch = db.core.seqEpoch →
      row.mergeSeq ≤ db.core.mnumberHeadSeq ∨
        db.core.mnumberHeadSeq + entries.length < row.mergeSeq) → row ∈ db'.rows := by
    intro row member outside
    rw [rows]
    refine List.mem_map.mpr ⟨row, member, assignRow_unassigned ?_⟩
    intro epoch a assigned same
    obtain ⟨i, n, prNumber, here, -, rfl⟩ := mem_assigned.mp assigned
    have inside := (List.getElem?_eq_some_iff.mp here).1
    dsimp only at same
    rcases outside epoch with below | above <;> omega
  constructor
  · exact evolves
  · intro counted
    obtain ⟨ledger, represents⟩ := counted.ledger
    exact ⟨evolves.sound counted.sound, _, grows counted ledger represents⟩
  · intro counted row member numbered
    apply stays row member
    intro epoch
    exact Or.inl (counted.below_checkpoint member epoch numbered)
  · intro counted _ ledger represents
    exact ⟨entries, grows counted ledger represents⟩
  · intro counted _ row member _ above
    apply stays row member
    intro _
    rw [(core counted.sound).2.1] at above
    exact Or.inr above
  · exact replay_evidence replayed

end

end PrSearch.MergeNumber
