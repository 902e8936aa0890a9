import Mathlib.Data.Finset.Card
import Mathlib.Data.Int.Interval
import PrSearch.Sequence.Comparison

/-! # The invariant of the sequence tables

The rows of the current epoch are numbered from one to the head, and no later epoch has rows. Every
committed transaction keeps this, whatever the graph has answered, and leaves the rows of the epochs
before its own alone.
-/
namespace PrSearch.Sequence

variable {seqEpoch mergeSeq : Int} {sha newHead : Sha} {entries : List MergeSequenceInsert}

/-! ### Bindings are never taken back -/

theorem bindsIn_map {rows : List MergeSequenceRow} {f : MergeSequenceRow → MergeSequenceRow}
    (keeps : ∀ row, (f row).seqEpoch = row.seqEpoch ∧ (f row).mergeSeq = row.mergeSeq ∧
      (f row).commitSha = row.commitSha) :
    BindsIn (rows.map f) seqEpoch mergeSeq sha ↔ BindsIn rows seqEpoch mergeSeq sha := by
  constructor
  · rintro ⟨row', member, epoch, seq, commit⟩
    obtain ⟨row, inside, rfl⟩ := List.mem_map.mp member
    obtain ⟨sameEpoch, sameSeq, sameCommit⟩ := keeps row
    exact ⟨row, inside, sameEpoch.symm.trans epoch, sameSeq.symm.trans seq,
      sameCommit.symm.trans commit⟩
  · rintro ⟨row, member, epoch, seq, commit⟩
    obtain ⟨sameEpoch, sameSeq, sameCommit⟩ := keeps row
    exact ⟨f row, List.mem_map_of_mem member, sameEpoch.trans epoch, sameSeq.trans seq,
      sameCommit.trans commit⟩

/-- No statement unbinds a sequence number. -/
theorem Write.effect_binds (write : Write) (t : Tables)
    (bound : BindsIn t.rows seqEpoch mergeSeq sha) :
    BindsIn (write.effect t).rows seqEpoch mergeSeq sha := by
  cases write with
  | ensureSequenceSpace =>
    simp only [Write.effect, Tables.ensureSequenceSpace]
    split <;> exact bound
  | upsertMergeSequence entry =>
    simp only [Write.effect, Tables.upsertMergeSequence]
    split
    · exact bindsIn_append.mpr (Or.inl bound)
    · split
      · refine (bindsIn_map fun row => ?_).mpr bound
        split <;> exact ⟨rfl, rfl, rfl⟩
      · exact bound
  | copySequencesUpTo fromEpoch toEpoch upto => exact bindsIn_append.mpr (Or.inl bound)
  | assignMergeNumbers epoch assignments =>
    refine (bindsIn_map fun row => ?_).mpr bound
    split <;> exact ⟨rfl, rfl, rfl⟩
  | markStale reason =>
    simp only [Write.effect, Tables.markStale]
    split <;> exact bound
  | advanceMergeNumberCheckpoint epoch checkpoint =>
    simp only [Write.effect, Tables.advanceMergeNumberCheckpoint]
    split
    · exact bound
    · split <;> exact bound
  | upsertEvidence input =>
    simp only [Write.effect, Tables.upsertEvidence]
    split
    · exact bound
    · split <;> exact bound
  | bumpEpoch => exact bound
  | advanceHead headSha headSeq => exact bound
  | markReassigning => exact bound
  | restoreSequenceState state lastError => exact bound
  | request intent => exact bound

theorem replay_binds {ws : List Write} {db db' : Store} (replayed : replay ws db = .ok db')
    (bound : BindsIn db.rows seqEpoch mergeSeq sha) : BindsIn db'.rows seqEpoch mergeSeq sha := by
  induction ws generalizing db with
  | nil =>
    cases replay_nil replayed
    exact bound
  | cons write rest ih =>
    obtain ⟨count, next, ran, replayed⟩ := replay_cons replayed
    apply ih replayed
    rw [Write.run_effect ran]
    exact write.effect_binds db.toTables bound

/-! ### The invariant -/

/-- The current epoch is numbered from one to the head, and is the last one opened. -/
structure Sound (db : Store) : Prop where
  headSeq : 0 ≤ db.core.headSeq
  dense : ∀ seq, (∃ sha, BindsIn db.rows db.core.seqEpoch seq sha) ↔
    1 ≤ seq ∧ seq ≤ db.core.headSeq
  unopened : Unopened db.rows db.core.seqEpoch

theorem sound_empty : Sound Store.empty where
  headSeq := le_refl _
  dense := by
    intro seq
    have none : ∀ sha, ¬ BindsIn Store.empty.rows Store.empty.core.seqEpoch seq sha := by
      rintro sha ⟨row, member, -⟩
      cases member
    have zero : Store.empty.core.headSeq = 0 := rfl
    simp only [none, exists_false, zero, false_iff]
    omega
  unopened := by
    intro row member
    cases member

theorem Sound.below_head {db : Store} (sound : Sound db) :
    ∀ row ∈ db.rows, row.seqEpoch = db.core.seqEpoch → row.mergeSeq ≤ db.core.headSeq := by
  intro row member epoch
  exact ((sound.dense row.mergeSeq).mp ⟨row.commitSha, row, member, epoch, rfl, rfl⟩).2

/-- The rows of one epoch. -/
def epochRows (db : Store) (seqEpoch : Int) : List MergeSequenceRow :=
  db.rows.filter fun row => row.seqEpoch = seqEpoch

/-- The head sequence counts the rows of the current epoch. -/
theorem Sound.headSeq_eq_length {db : Store} (sound : Sound db) :
    db.core.headSeq = (epochRows db db.core.seqEpoch).length := by
  have distinct : ((epochRows db db.core.seqEpoch).map MergeSequenceRow.mergeSeq).Nodup := by
    rw [List.nodup_iff_pairwise_ne, List.pairwise_map, epochRows, List.pairwise_filter]
    refine db.lawful.distinct.imp fun {a b} apart here there => ?_
    simp only [decide_eq_true_eq] at here there
    exact (apart (here.trans there.symm)).1
  have numbers : ((epochRows db db.core.seqEpoch).map MergeSequenceRow.mergeSeq).toFinset =
      Finset.Icc 1 db.core.headSeq := by
    ext seq
    rw [List.mem_toFinset, List.mem_map, Finset.mem_Icc, ← sound.dense]
    constructor
    · rintro ⟨row, member, rfl⟩
      obtain ⟨inside, epoch⟩ := List.mem_filter.mp member
      exact ⟨row.commitSha, row, inside, of_decide_eq_true epoch, rfl, rfl⟩
    · rintro ⟨sha, row, inside, epoch, rfl, -⟩
      exact ⟨row, List.mem_filter.mpr ⟨inside, decide_eq_true epoch⟩, rfl⟩
  have count := List.toFinset_card_of_nodup distinct
  rw [numbers, Int.card_Icc, List.length_map] at count
  have nonneg := sound.headSeq
  omega

/-! ### How the tables evolve -/

/-- From sound tables on, the invariant stays, the epoch does not fall and closed epochs are
frozen; a binding stays in any case. -/
structure Evolves (a b : Store) : Prop where
  binds : ∀ seqEpoch mergeSeq sha, BindsIn a.rows seqEpoch mergeSeq sha →
    BindsIn b.rows seqEpoch mergeSeq sha
  sound : Sound a → Sound b
  epoch : Sound a → a.core.seqEpoch ≤ b.core.seqEpoch
  closed : Sound a → ∀ seqEpoch, seqEpoch < a.core.seqEpoch →
    epochRows b seqEpoch = epochRows a seqEpoch

variable {a b : Store} {core : SequenceSpace} {requests : List Intent} {done : Reassigned}

theorem Evolves.of_frozen (frozen : Frozen a b) : Evolves a b := by
  constructor
  · intro seqEpoch mergeSeq sha bound
    rw [frozen.rows]
    exact bound
  · rintro ⟨headSeq, dense, unopened⟩
    constructor
    · rw [frozen.core]
      exact headSeq
    · rw [frozen.core, frozen.rows]
      exact dense
    · rw [frozen.core, frozen.rows]
      exact unopened
  · intro _
    rw [frozen.core]
  · intro _ seqEpoch _
    simp only [epochRows, frozen.rows]

theorem Evolves.trans {c : Store} (first : Evolves a b) (second : Evolves b c) : Evolves a c := by
  constructor
  · intro seqEpoch mergeSeq sha bound
    exact second.binds _ _ _ (first.binds _ _ _ bound)
  · intro sound
    exact second.sound (first.sound sound)
  · intro sound
    exact (first.epoch sound).trans (second.epoch (first.sound sound))
  · intro sound seqEpoch before
    have current := first.epoch sound
    rw [second.closed (first.sound sound) seqEpoch (by omega), first.closed sound seqEpoch before]

theorem epochRows_append {db db' : Store} {more : List MergeSequenceRow}
    (rows : db'.rows = db.rows ++ more) (later : ∀ row ∈ more, row.seqEpoch ≠ seqEpoch) :
    epochRows db' seqEpoch = epochRows db seqEpoch := by
  have none : more.filter (fun row => row.seqEpoch = seqEpoch) = [] := by
    rw [List.filter_eq_nil_iff]
    intro row member
    simpa using later row member
  simp only [epochRows, rows, List.filter_append, none, List.append_nil]

theorem bound_by_entries {after : Int} (consecutive : Consecutive seqEpoch after entries)
    (seq : Int) :
    (∃ sha, BindsIn (entries.map MergeSequenceInsert.row) seqEpoch seq sha) ↔
      after < seq ∧ seq ≤ after + entries.length := by
  simp only [bindsIn_entries consecutive]
  constructor
  · rintro ⟨sha, here⟩
    have bounds := elementAt_bounds here
    rw [List.length_map] at bounds
    omega
  · rintro ⟨above, below⟩
    apply elementAt_isSome (by omega)
    rw [List.length_map]
    omega

/-- Appending above the head keeps the invariant. -/
theorem evolves_of_append {db db' : Store}
    (consecutive : Consecutive db.core.seqEpoch db.core.headSeq entries) (same : core = db.core)
    (replayed : replay (appendWrites core newHead entries requests) db = .ok db') :
    Evolves db db' := by
  have tables := fun sound : Sound db =>
    replay_appendWrites consecutive sound.below_head same replayed
  have added : ∀ row ∈ entries.map MergeSequenceInsert.row, row.seqEpoch = db.core.seqEpoch := by
    intro row member
    obtain ⟨entry, inside, rfl⟩ := List.mem_map.mp member
    exact (consecutive.mem inside).1
  constructor
  · intro seqEpoch mergeSeq sha
    exact replay_binds replayed
  · intro sound
    obtain ⟨rows, -, core_eq⟩ := tables sound
    have nonneg := sound.headSeq
    constructor
    · rw [core_eq]
      dsimp only
      omega
    · intro seq
      rw [core_eq, rows]
      simp only [bindsIn_append, exists_or, sound.dense, bound_by_entries consecutive]
      omega
    · rw [core_eq, rows]
      intro row member
      rcases List.mem_append.mp member with old | new
      · exact sound.unopened row old
      · exact (added row new).le
  · intro sound
    obtain ⟨-, -, core_eq⟩ := tables sound
    rw [core_eq]
  · intro sound seqEpoch before
    apply epochRows_append (tables sound).1
    intro row member
    rw [added row member]
    omega

/-- Opening the next epoch over a numbered prefix keeps the invariant. -/
theorem evolves_of_rebuild {keepSeq : Int} {db db' : Store}
    (consecutive : Consecutive (db.core.seqEpoch + 1) keepSeq entries)
    (within : Sound db → 0 ≤ keepSeq ∧ keepSeq ≤ db.core.headSeq) (same : core = db.core)
    (replayed : replay (rebuildWrites core keepSeq newHead entries requests) db = .ok db') :
    Evolves db db' := by
  have free : Sound db → ∀ row ∈ db.rows, row.seqEpoch ≠ db.core.seqEpoch + 1 := by
    intro sound row member epoch
    have opened := sound.unopened row member
    omega
  have tables := fun sound : Sound db =>
    replay_rebuildWrites consecutive (free sound) same replayed
  have added : ∀ row ∈ keptRows db.core keepSeq db.rows ++ entries.map MergeSequenceInsert.row,
      row.seqEpoch = db.core.seqEpoch + 1 := by
    intro row member
    rcases List.mem_append.mp member with kept | new
    · obtain ⟨-, old, -, -, -, rfl⟩ := mem_keptRows.mp kept
      rfl
    · obtain ⟨entry, inside, rfl⟩ := List.mem_map.mp new
      exact (consecutive.mem inside).1
  constructor
  · intro seqEpoch mergeSeq sha
    exact replay_binds replayed
  · intro sound
    obtain ⟨rows, -, core_eq⟩ := tables sound
    obtain ⟨nonneg, most⟩ := within sound
    rw [List.append_assoc] at rows
    constructor
    · rw [core_eq]
      dsimp only
      omega
    · intro seq
      rw [core_eq, rows]
      have fresh : ∀ sha, ¬ BindsIn db.rows (db.core.seqEpoch + 1) seq sha := by
        rintro sha ⟨row, member, epoch, -⟩
        exact free sound row member epoch
      simp only [bindsIn_append, exists_or, fresh, false_or,
        bound_by_entries consecutive, bindsIn_keptRows, exists_and_left, sound.dense]
      omega
    · rw [core_eq, rows]
      intro row member
      rcases List.mem_append.mp member with old | new
      · have opened := sound.unopened row old
        dsimp only
        omega
      · exact (added row new).le
  · intro sound
    obtain ⟨-, -, core_eq⟩ := tables sound
    rw [core_eq]
    dsimp only
    omega
  · intro sound seqEpoch before
    obtain ⟨rows, -, -⟩ := tables sound
    rw [List.append_assoc] at rows
    apply epochRows_append rows
    intro row member
    rw [added row member]
    omega

/-! ### Transactions of the three programs -/

section

variable {E : Setting} {db db' : Store} {ws : List Write}

theorem Appended.evolves {fromSeq toSeq : Int}
    (appended : Appended E newHead fromSeq toSeq ws db db') : Evolves db db' := by
  obtain ⟨commits, entries, requests, -, fills, rfl, -⟩ := appended.shape
  exact evolves_of_append fills.consecutive rfl appended.replayed

theorem Rewound.evolves {stored new : Sha} (rewound : Rewound E stored new done ws db db') :
    Evolves db db' := by
  obtain ⟨base, commits, entries, requests, -, -, fills, rfl, -⟩ := rewound.shape
  refine evolves_of_rebuild fills.consecutive (fun sound => ?_) rfl rewound.replayed
  have nonneg := sound.headSeq
  cases base with
  | none => exact ⟨le_refl _, nonneg⟩
  | some base =>
    cases found : db.findSeqByCommit db.core.seqEpoch base with
    | none =>
      simp only [locatedBase, found]
      exact ⟨le_refl _, nonneg⟩
    | some seq =>
      simp only [locatedBase, found]
      have inside := (sound.dense seq).mp ⟨base, findSeqByCommit_eq_some.mp found⟩
      omega

/-- The planned mismatch was a stored row, so it is one still. -/
theorem Rebuilt.evolves
    (binds : ∀ {a b}, E.since a b → ∀ {seqEpoch mergeSeq sha},
      BindsIn a.rows seqEpoch mergeSeq sha → BindsIn b.rows seqEpoch mergeSeq sha)
    {plan : RepairPlan} {seen : Store} (rebuilt : Rebuilt E plan done ws seen db db') :
    Evolves db db' := by
  obtain ⟨commits, entries, requests, -, fills, rfl, -⟩ := rebuilt.shape
  refine evolves_of_rebuild fills.consecutive (fun sound => ?_) rfl rebuilt.replayed
  obtain ⟨mismatch, found, diverged⟩ := rebuilt.planned.analysed
  obtain ⟨⟨⟨seq, sha⟩, member, same⟩, -⟩ := firstSequenceMismatch_some found
  have bound := binds rebuilt.since (mem_listStoredSequence.mp member).2
  rw [← rebuilt.epoch] at bound
  have inside := (sound.dense seq).mp ⟨sha, bound⟩
  dsimp only at same
  omega

end

end PrSearch.Sequence
