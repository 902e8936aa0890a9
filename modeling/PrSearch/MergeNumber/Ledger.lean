import PrSearch.MergeNumber.Statements
import PrSearch.Sequence.Invariant

/-! # The ledger behind the checkpoint

What an epoch has decided so far is a ledger: one entry for each row up to the checkpoint, with the
pull request that the row merged, or nothing for a direct push. The merge numbers in the table are
the tally of the ledger. A round appends to it, a new epoch starts an empty one, and everything else
leaves it alone.
-/
namespace PrSearch.MergeNumber

open Sequence Tally

abbrev Ledger := List (Option Int)

/-- The evidence says what the entry says. -/
def Attests (evidence : List EvidenceRow) (seqEpoch mergeSeq : Int) (entry : Option Int) : Prop :=
  ∃ row ∈ evidence, (row.seqEpoch = seqEpoch ∧ row.mergeSeq = mergeSeq) ∧
    match entry with
    | none => row.state = .directConfirmed
    | some prNumber => row.state = .prConfirmed ∧ row.prNumber = some prNumber

/-- The checkpoint and the rows of the current epoch are those of the ledger. -/
structure Represents (db : Store) (ledger : Ledger) : Prop where
  headSeq : db.core.mnumberHeadSeq = ledger.length
  head : db.core.mnumberHead = total ledger
  number : ∀ row ∈ db.rows, row.seqEpoch = db.core.seqEpoch → ∀ i : Nat, row.mergeSeq = i + 1 →
    row.mergeNumber = (numberAt ledger i).map Nat.cast
  pullRequest : ∀ row ∈ db.rows, row.seqEpoch = db.core.seqEpoch → ∀ i : Nat,
    row.mergeSeq = i + 1 → ∀ prNumber, ledger[i]? = some (some prNumber) →
      row.pullRequestNumber = some prNumber
  evidence : ∀ (i : Nat) entry, ledger[i]? = some entry →
    Attests db.evidence db.core.seqEpoch (i + 1) entry

/-- Sound tables whose merge numbers are those of a ledger. -/
structure Counted (db : Store) : Prop where
  sound : Sound db
  ledger : ∃ ledger, Represents db ledger

/-! ### Rows of the current epoch -/

section

variable {db : Store} {ledger : Ledger} {row : MergeSequenceRow}

theorem checkpoint_chk (db : Store) : db.core.CheckpointChk := by
  cases h : db.space with
  | none => simp [SequenceSpace.CheckpointChk, Tables.core, h]
  | some space =>
    have checked := db.lawful.space space h
    simpa [SequenceSpace.CheckpointChk, Tables.core, h] using checked

/-- A row of the current epoch has a place, counted from zero. -/
theorem place_of_row (sound : Sound db) (member : row ∈ db.rows)
    (epoch : row.seqEpoch = db.core.seqEpoch) : ∃ i : Nat, row.mergeSeq = i + 1 := by
  have bounds := (sound.dense row.mergeSeq).mp ⟨row.commitSha, row, member, epoch, rfl, rfl⟩
  exact ⟨(row.mergeSeq - 1).toNat, by omega⟩

/-- Every place up to the head has its row. -/
theorem row_of_place (sound : Sound db) {i : Nat} (below : (i : Int) < db.core.headSeq) :
    ∃ row ∈ db.rows, row.seqEpoch = db.core.seqEpoch ∧ row.mergeSeq = i + 1 := by
  obtain ⟨sha, row, member, epoch, seq, -⟩ := (sound.dense (i + 1)).mpr (by omega)
  exact ⟨row, member, epoch, seq⟩

/-- A numbered row lies within the ledger. -/
theorem Represents.below_checkpoint (represents : Represents db ledger) (sound : Sound db)
    (member : row ∈ db.rows) (epoch : row.seqEpoch = db.core.seqEpoch)
    (numbered : row.mergeNumber.isSome) : row.mergeSeq ≤ db.core.mnumberHeadSeq := by
  obtain ⟨i, place⟩ := place_of_row sound member epoch
  rw [represents.number row member epoch i place, Option.isSome_map] at numbered
  obtain ⟨n, here⟩ := Option.isSome_iff_exists.mp numbered
  have inside := lt_length_of_numberAt here
  rw [represents.headSeq, place]
  omega

theorem Counted.below_checkpoint (counted : Counted db) (member : row ∈ db.rows)
    (epoch : row.seqEpoch = db.core.seqEpoch) (numbered : row.mergeNumber.isSome) :
    row.mergeSeq ≤ db.core.mnumberHeadSeq := by
  obtain ⟨ledger, represents⟩ := counted.ledger
  exact represents.below_checkpoint counted.sound member epoch numbered

theorem Counted.unnumbered (counted : Counted db) (member : row ∈ db.rows)
    (epoch : row.seqEpoch = db.core.seqEpoch) (above : db.core.mnumberHeadSeq < row.mergeSeq) :
    row.mergeNumber = none := by
  rw [← Option.not_isSome_iff_eq_none]
  intro numbered
  have below := counted.below_checkpoint member epoch numbered
  omega

end

/-! ### What the ledger says of the table -/

/-- A decided row: a pull request with its number, or a direct push without one. -/
def Decided (db : Store) (row : MergeSequenceRow) : Prop :=
  (row.mergeNumber.isSome ∧ ∃ prNumber, row.pullRequestNumber = some prNumber ∧
    Attests db.evidence row.seqEpoch row.mergeSeq (some prNumber)) ∨
    row.mergeNumber = none ∧ Attests db.evidence row.seqEpoch row.mergeSeq none

/-- The invariant of the checkpoint, over the rows of the current epoch. -/
structure CheckpointInvariant (db : Store) : Prop where
  /-- The numbers are exactly those from one to `mnumber_head`. -/
  exact : ∀ n, (∃ row ∈ epochRows db db.core.seqEpoch, row.mergeNumber = some n) ↔
    1 ≤ n ∧ n ≤ db.core.mnumberHead
  ascending : ∀ row ∈ epochRows db db.core.seqEpoch, ∀ row' ∈ epochRows db db.core.seqEpoch,
    ∀ m n, row.mergeNumber = some m → row'.mergeNumber = some n →
      row.mergeSeq < row'.mergeSeq → m < n
  /-- A pull request holds at most one of them. -/
  onePerPullRequest : ∀ row ∈ epochRows db db.core.seqEpoch,
    ∀ row' ∈ epochRows db db.core.seqEpoch, row.mergeNumber.isSome → row'.mergeNumber.isSome →
      row.pullRequestNumber = row'.pullRequestNumber → row = row'
  decided : ∀ row ∈ epochRows db db.core.seqEpoch, row.mergeSeq ≤ db.core.mnumberHeadSeq →
    Decided db row
  unnumbered : ∀ row ∈ epochRows db db.core.seqEpoch, db.core.mnumberHeadSeq < row.mergeSeq →
    row.mergeNumber = none

theorem mem_epochRows {db : Store} {seqEpoch : Int} {row : MergeSequenceRow} :
    row ∈ epochRows db seqEpoch ↔ row ∈ db.rows ∧ row.seqEpoch = seqEpoch := by
  simp [epochRows]

/-- Tables that a ledger counts meet the invariant. -/
theorem Counted.invariant {db : Store} (counted : Counted db) : CheckpointInvariant db := by
  obtain ⟨ledger, represents⟩ := counted.ledger
  have sound := counted.sound
  constructor
  · intro n
    rw [represents.head]
    constructor
    · rintro ⟨row, member, numbered⟩
      obtain ⟨inside, epoch⟩ := mem_epochRows.mp member
      obtain ⟨i, place⟩ := place_of_row sound inside epoch
      rw [represents.number row inside epoch i place] at numbered
      obtain ⟨k, here, rfl⟩ := Option.map_eq_some_iff.mp numbered
      have bounds := numberAt_bounds here
      omega
    · rintro ⟨positive, most⟩
      obtain ⟨i, here⟩ := exists_numberAt (show 1 ≤ n.toNat by omega)
        (show n.toNat ≤ total ledger by omega)
      -- The place of the number lies below the checkpoint, and so has a row.
      have inside := lt_length_of_numberAt here
      have chk := checkpoint_chk db
      have below : (i : Int) < db.core.headSeq := by
        have most := chk.2.2
        rw [represents.headSeq] at most
        omega
      obtain ⟨row, member, epoch, place⟩ := row_of_place sound below
      refine ⟨row, mem_epochRows.mpr ⟨member, epoch⟩, ?_⟩
      rw [represents.number row member epoch i place, here, Option.map_some]
      congr 1
      omega
  · intro row member row' member' m n first second before
    obtain ⟨inside, epoch⟩ := mem_epochRows.mp member
    obtain ⟨inside', epoch'⟩ := mem_epochRows.mp member'
    obtain ⟨i, place⟩ := place_of_row sound inside epoch
    obtain ⟨j, place'⟩ := place_of_row sound inside' epoch'
    rw [represents.number row inside epoch i place] at first
    rw [represents.number row' inside' epoch' j place'] at second
    obtain ⟨k, here, rfl⟩ := Option.map_eq_some_iff.mp first
    obtain ⟨l, there, rfl⟩ := Option.map_eq_some_iff.mp second
    have less := numberAt_lt (by omega) here there
    omega
  · intro row member row' member' numbered numbered' same
    obtain ⟨inside, epoch⟩ := mem_epochRows.mp member
    obtain ⟨inside', epoch'⟩ := mem_epochRows.mp member'
    have symmetric : Std.Symm MergeSequenceRow.Distinct :=
      ⟨fun _ _ => MergeSequenceRow.Distinct.symm⟩
    by_contra apart
    have distinct := db.lawful.distinct.forall inside inside' apart (epoch.trans epoch'.symm)
    exact (distinct.2.2 numbered numbered').2 same
  · intro row member below
    obtain ⟨inside, epoch⟩ := mem_epochRows.mp member
    obtain ⟨i, place⟩ := place_of_row sound inside epoch
    have within : i < ledger.length := by
      rw [represents.headSeq, place] at below
      omega
    obtain ⟨entry, here⟩ : ∃ entry, ledger[i]? = some entry :=
      ⟨_, List.getElem?_eq_getElem within⟩
    have attests := represents.evidence i entry here
    rw [← place, ← epoch] at attests
    have number := represents.number row inside epoch i place
    cases entry with
    | none =>
      rw [numberAt_of_none here] at number
      exact Or.inr ⟨number, attests⟩
    | some prNumber =>
      refine Or.inl ⟨?_, prNumber, represents.pullRequest row inside epoch i place _ here, attests⟩
      rw [number, Option.isSome_map]
      exact (numberAt_isSome_iff ledger i).mpr ⟨prNumber, here⟩
  · intro row member above
    obtain ⟨inside, epoch⟩ := mem_epochRows.mp member
    exact counted.unnumbered inside epoch above

/-! ### How the ledger evolves -/

/-- From counted tables on, the tables stay counted and a number once written stays. Within an epoch
the ledger only grows, and the rows it has not reached yet stay as they are. -/
structure Counts (a b : Store) : Prop where
  evolves : Evolves a b
  counted : Counted a → Counted b
  written : Counted a → ∀ row ∈ a.rows, row.mergeNumber.isSome → row ∈ b.rows
  grows : Counted a → b.core.seqEpoch = a.core.seqEpoch → ∀ ledger, Represents a ledger →
    ∃ more, Represents b (ledger ++ more)
  pending : Counted a → b.core.seqEpoch = a.core.seqEpoch → ∀ row ∈ a.rows,
    row.seqEpoch = a.core.seqEpoch → b.core.mnumberHeadSeq < row.mergeSeq → row ∈ b.rows
  evidence : EvidenceKept a.evidence b.evidence

variable {a b c db' : Store} {core : SequenceSpace} {newHead : Sha}
  {entries : List MergeSequenceInsert} {requests : List Intent}

/-- Neither head falls within an epoch. -/
theorem Counts.heads (counts : Counts a b) (counted : Counted a)
    (epoch : b.core.seqEpoch = a.core.seqEpoch) :
    a.core.mnumberHead ≤ b.core.mnumberHead ∧ a.core.mnumberHeadSeq ≤ b.core.mnumberHeadSeq := by
  obtain ⟨ledger, represents⟩ := counted.ledger
  obtain ⟨more, represents'⟩ := counts.grows counted epoch ledger represents
  rw [represents.head, represents'.head, represents.headSeq, represents'.headSeq, total_append,
    List.length_append]
  omega

/-- While the checkpoint stays at its row, so does its number. -/
theorem Counts.head_of_headSeq (counts : Counts a b) (counted : Counted a)
    (epoch : b.core.seqEpoch = a.core.seqEpoch)
    (still : b.core.mnumberHeadSeq = a.core.mnumberHeadSeq) :
    b.core.mnumberHead = a.core.mnumberHead := by
  obtain ⟨ledger, represents⟩ := counted.ledger
  obtain ⟨more, represents'⟩ := counts.grows counted epoch ledger represents
  rw [represents.headSeq, represents'.headSeq, List.length_append] at still
  have empty : more = [] := List.eq_nil_of_length_eq_zero (by omega)
  rw [represents.head, represents'.head, empty, List.append_nil]

theorem Represents.frozen (frozen : Frozen a b) {ledger : Ledger} (represents : Represents a ledger) :
    Represents b ledger := by
  constructor
  · rw [frozen.core]
    exact represents.headSeq
  · rw [frozen.core]
    exact represents.head
  · rw [frozen.core, frozen.rows]
    exact represents.number
  · rw [frozen.core, frozen.rows]
    exact represents.pullRequest
  · rw [frozen.core, frozen.evidence]
    exact represents.evidence

theorem Counts.of_frozen (frozen : Frozen a b) : Counts a b := by
  have evolves := Evolves.of_frozen frozen
  constructor
  · exact evolves
  · rintro ⟨sound, ledger, represents⟩
    exact ⟨evolves.sound sound, ledger, represents.frozen frozen⟩
  · intro _ row member _
    rw [frozen.rows]
    exact member
  · intro _ _ ledger represents
    refine ⟨[], ?_⟩
    rw [List.append_nil]
    exact represents.frozen frozen
  · intro _ _ row member _ _
    rw [frozen.rows]
    exact member
  · rw [frozen.evidence]
    exact .refl _

/-- Between two states of one epoch everything is in that epoch. -/
theorem Counts.epoch_between (first : Counts a b) (second : Counts b c) (counted : Counted a)
    (epoch : c.core.seqEpoch = a.core.seqEpoch) :
    b.core.seqEpoch = a.core.seqEpoch ∧ c.core.seqEpoch = b.core.seqEpoch := by
  have up := first.evolves.epoch counted.sound
  have on := second.evolves.epoch (first.counted counted).sound
  omega

theorem Counts.trans (first : Counts a b) (second : Counts b c) : Counts a c := by
  constructor
  · exact first.evolves.trans second.evolves
  · intro counted
    exact second.counted (first.counted counted)
  · intro counted row member numbered
    exact second.written (first.counted counted) row (first.written counted row member numbered)
      numbered
  · intro counted epoch ledger represents
    obtain ⟨here, there⟩ := first.epoch_between second counted epoch
    obtain ⟨more, middle⟩ := first.grows counted here ledger represents
    obtain ⟨rest, last⟩ := second.grows (first.counted counted) there _ middle
    refine ⟨more ++ rest, ?_⟩
    rw [← List.append_assoc]
    exact last
  · intro counted epoch row member rowEpoch above
    obtain ⟨here, there⟩ := first.epoch_between second counted epoch
    have below := (second.heads (first.counted counted) there).2
    apply second.pending (first.counted counted) there row
      (first.pending counted here row member rowEpoch (by omega)) _ above
    rw [rowEpoch, here]
  · exact first.evidence.trans second.evidence

/-! ### Appending rows and opening an epoch -/

/-- Rows that are added above the ledger do not touch it. -/
theorem Represents.add_rows {more : List MergeSequenceRow} {ledger : Ledger}
    (represents : Represents a ledger) (rows : b.rows = a.rows ++ more)
    (evidence : b.evidence = a.evidence) (epoch : b.core.seqEpoch = a.core.seqEpoch)
    (headSeq : b.core.mnumberHeadSeq = a.core.mnumberHeadSeq)
    (head : b.core.mnumberHead = a.core.mnumberHead)
    (above : ∀ row ∈ more, row.mergeNumber = none ∧ a.core.mnumberHeadSeq < row.mergeSeq) :
    Represents b ledger := by
  have beyond : ∀ row ∈ more, ∀ i : Nat, row.mergeSeq = i + 1 → ledger.length ≤ i := by
    intro row member i place
    have higher := (above row member).2
    rw [represents.headSeq] at higher
    omega
  constructor
  · rw [headSeq]
    exact represents.headSeq
  · rw [head]
    exact represents.head
  · intro row member current i place
    rw [rows] at member
    rw [epoch] at current
    rcases List.mem_append.mp member with old | new
    · exact represents.number row old current i place
    · rw [(above row new).1, numberAt_of_length_le (beyond row new i place)]
      rfl
  · intro row member current i place prNumber here
    rw [rows] at member
    rw [epoch] at current
    rcases List.mem_append.mp member with old | new
    · exact represents.pullRequest row old current i place prNumber here
    · rw [List.getElem?_eq_none (beyond row new i place)] at here
      cases here
  · rw [evidence, epoch]
    exact represents.evidence

theorem counts_of_append {db : Store}
    (consecutive : Consecutive db.core.seqEpoch db.core.headSeq entries) (same : core = db.core)
    (replayed : replay (appendWrites core newHead entries requests) db = .ok db') :
    Counts db db' := by
  have evolves := evolves_of_append consecutive same replayed
  have tables := fun counted : Counted db =>
    replay_appendWrites consecutive counted.sound.below_head same replayed
  have above : ∀ row ∈ entries.map MergeSequenceInsert.row,
      row.mergeNumber = none ∧ db.core.mnumberHeadSeq < row.mergeSeq := by
    intro row member
    obtain ⟨entry, inside, rfl⟩ := List.mem_map.mp member
    have higher := (consecutive.mem inside).2.1
    have chk := (checkpoint_chk db).2.2
    refine ⟨rfl, ?_⟩
    simp only [MergeSequenceInsert.row]
    omega
  have keeps : ∀ counted : Counted db, ∀ ledger, Represents db ledger → Represents db' ledger := by
    intro counted ledger represents
    obtain ⟨rows, evidence, core_eq⟩ := tables counted
    exact represents.add_rows rows evidence (by rw [core_eq]) (by rw [core_eq]) (by rw [core_eq])
      above
  have stays : ∀ counted : Counted db, ∀ row ∈ db.rows, row ∈ db'.rows := by
    intro counted row member
    rw [(tables counted).1]
    exact List.mem_append_left _ member
  constructor
  · exact evolves
  · intro counted
    obtain ⟨ledger, represents⟩ := counted.ledger
    exact ⟨evolves.sound counted.sound, ledger, keeps counted ledger represents⟩
  · intro counted row member _
    exact stays counted row member
  · intro counted _ ledger represents
    refine ⟨[], ?_⟩
    rw [List.append_nil]
    exact keeps counted ledger represents
  · intro counted _ row member _ _
    exact stays counted row member
  · exact replay_evidence replayed

/-- A new epoch begins with an empty ledger, and the rows of the old ones stay. -/
theorem counts_of_rebuild {keepSeq : Int} {db : Store}
    (consecutive : Consecutive (db.core.seqEpoch + 1) keepSeq entries) (same : core = db.core)
    (evolves : Evolves db db')
    (replayed : replay (rebuildWrites core keepSeq newHead entries requests) db = .ok db') :
    Counts db db' := by
  have free : ∀ counted : Counted db, ∀ row ∈ db.rows, row.seqEpoch ≠ db.core.seqEpoch + 1 := by
    intro counted row member epoch
    have opened := counted.sound.unopened row member
    omega
  have tables := fun counted : Counted db =>
    replay_rebuildWrites consecutive (free counted) same replayed
  have stays : ∀ counted : Counted db, ∀ row ∈ db.rows, row ∈ db'.rows := by
    intro counted row member
    obtain ⟨rows, -, -⟩ := tables counted
    rw [rows, List.append_assoc]
    exact List.mem_append_left _ member
  have opens : ∀ counted : Counted db, db'.core.seqEpoch = db.core.seqEpoch + 1 := by
    intro counted
    rw [(tables counted).2.2]
  constructor
  · exact evolves
  · intro counted
    obtain ⟨rows, -, core_eq⟩ := tables counted
    have unnumbered : ∀ row ∈ db'.rows, row.seqEpoch = db'.core.seqEpoch →
        row.mergeNumber = none := by
      intro row member epoch
      rw [rows, List.append_assoc] at member
      rw [opens counted] at epoch
      rcases List.mem_append.mp member with old | member
      · exact absurd epoch (free counted row old)
      · rcases List.mem_append.mp member with kept | new
        · obtain ⟨-, old, -, -, -, rfl⟩ := mem_keptRows.mp kept
          rfl
        · obtain ⟨entry, -, rfl⟩ := List.mem_map.mp new
          rfl
    refine ⟨evolves.sound counted.sound, [], ?_, ?_, ?_, ?_, ?_⟩
    · rw [core_eq]
      rfl
    · rw [core_eq]
      rfl
    · intro row member epoch i _
      rw [unnumbered row member epoch]
      rfl
    · intro row member epoch i _ prNumber here
      cases here
    · intro i entry here
      cases here
  · intro counted row member _
    exact stays counted row member
  · intro counted epoch
    rw [opens counted] at epoch
    omega
  · intro counted _ row member _ _
    exact stays counted row member
  · exact replay_evidence replayed

end PrSearch.MergeNumber
