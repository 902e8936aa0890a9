import PrSearch.MergeNumber.Interleaved
import PrSearch.Sequence.State

/-! # Evidence over all interleavings

Every change of the evidence goes through `upsertEvidence`, whatever program makes it: the commit of
a row stays, its version rises with every change, and a confirmation is not taken back. A round that
finds another version under the lock than the one it has read gives up, and nothing of it takes
effect.
-/
namespace PrSearch.MergeNumber

open Sequence Program

/-! ### One upsert -/

/-- What may become of one row of evidence. -/
structure Guards (old new : EvidenceRow) : Prop where
  epoch : new.seqEpoch = old.seqEpoch
  seq : new.mergeSeq = old.mergeSeq
  commit : new.commitSha = old.commitSha
  version : old.evidenceVersion ≤ new.evidenceVersion
  same : new.evidenceVersion = old.evidenceVersion → new = old
  confirmed : old.state ≠ .unresolved → new.state ≠ .unresolved

/-- Every row of evidence is still there, and has come from itself within the guards. -/
def EvidenceGuarded (a b : List EvidenceRow) : Prop := ∀ old ∈ a, ∃ new ∈ b, Guards old new

namespace Guards

theorem refl (row : EvidenceRow) : Guards row row :=
  ⟨rfl, rfl, rfl, le_refl _, fun _ => rfl, id⟩

theorem trans {a b c : EvidenceRow} (first : Guards a b) (second : Guards b c) : Guards a c where
  epoch := second.epoch.trans first.epoch
  seq := second.seq.trans first.seq
  commit := second.commit.trans first.commit
  version := first.version.trans second.version
  same := by
    intro version
    -- two steps that do not fall and end where they began have not moved
    have up := first.version
    have past := second.version
    rw [second.same (by omega), first.same (by omega)]
  confirmed := second.confirmed ∘ first.confirmed

end Guards

theorem EvidenceGuarded.refl (evidence : List EvidenceRow) : EvidenceGuarded evidence evidence :=
  fun old member => ⟨old, member, .refl old⟩

theorem EvidenceGuarded.trans {a b c : List EvidenceRow} (first : EvidenceGuarded a b)
    (second : EvidenceGuarded b c) : EvidenceGuarded a c := by
  intro old member
  obtain ⟨middle, between, toMiddle⟩ := first old member
  obtain ⟨new, inside, toNew⟩ := second middle between
  exact ⟨new, inside, toMiddle.trans toNew⟩

/-- What an accepted upsert writes over the row at its key. -/
def overwritten (input : EvidenceUpsert) (row : EvidenceRow) : EvidenceRow :=
  { row with
    state := input.state
    prNumber := input.prNumber
    reason := input.reason
    evidenceVersion := row.evidenceVersion + 1
    mergedAt := input.mergedAt }

variable {db db' : Store} {input : EvidenceUpsert} {count : Int}

/-- The evidence of one key is the row that an upsert at this key finds. -/
theorem find_atKey {row : EvidenceRow} (member : row ∈ db.evidence) (here : AtKey input row) :
    (db.evidence.find? fun row =>
      row.seqEpoch = input.seqEpoch ∧ row.mergeSeq = input.mergeSeq) = some row := by
  cases found : db.evidence.find? fun row =>
      row.seqEpoch = input.seqEpoch ∧ row.mergeSeq = input.mergeSeq with
  | none =>
    have missing := List.find?_eq_none.mp found row member
    simp [here.1, here.2] at missing
  | some held =>
    have keyed := List.find?_some found
    simp only [decide_eq_true_eq] at keyed
    rw [evidence_distinct db (List.mem_of_find?_eq_some found) member
      (keyed.1.trans here.1.symm) (keyed.2.trans here.2.symm)]

/-- An upsert that is accepted writes over the row at its key, and over no other. -/
theorem upsertEvidence_over (ran : Write.run (.upsertEvidence input) db = .ok (count, db'))
    {row : EvidenceRow} (member : row ∈ db.evidence) (here : AtKey input row) :
    row.commitSha = toLowerCase input.commitSha ∧
      ¬ (row.state ≠ .unresolved ∧ input.state = .unresolved) ∧
      overwritten input row ∈ db'.evidence := by
  have effect := Write.run_effect ran
  simp only [Write.run] at ran
  split at ran
  · cases ran
  next stored =>
    rw [effect]
    simp only [Write.effect]
    unfold Tables.upsertEvidence at stored ⊢
    dsimp only at stored ⊢
    rw [find_atKey member here] at stored ⊢
    dsimp only at stored ⊢
    split
    next may =>
      refine ⟨may.1, may.2, List.mem_map.mpr ⟨row, member, ?_⟩⟩
      exact if_pos here
    next refused =>
      rw [if_neg refused] at stored
      exact absurd rfl stored

/-- One upsert keeps the guards of every row. -/
theorem upsertEvidence_guarded (ran : Write.run (.upsertEvidence input) db = .ok (count, db')) :
    EvidenceGuarded db.evidence db'.evidence := by
  intro old member
  by_cases here : AtKey input old
  · obtain ⟨-, kept, inside⟩ := upsertEvidence_over ran member here
    refine ⟨overwritten input old, inside, rfl, rfl, rfl, ?_, ?_, ?_⟩
    · simp only [overwritten]
      omega
    · intro version
      simp only [overwritten] at version
      omega
    · exact fun confirmed undone => kept ⟨confirmed, undone⟩
  · refine ⟨old, ?_, .refl old⟩
    rw [Write.run_effect ran]
    exact upsertEvidence_other member here

/-- No other statement writes the evidence. -/
theorem run_evidence {write : Write} (other : ∀ input, write ≠ .upsertEvidence input)
    (ran : write.run db = .ok (count, db')) : db'.evidence = db.evidence := by
  rw [Write.run_effect ran]
  cases write with
  | upsertEvidence input => exact absurd rfl (other input)
  | ensureSequenceSpace =>
    simp only [Write.effect, Tables.ensureSequenceSpace]
    split <;> rfl
  | upsertMergeSequence entry =>
    simp only [Write.effect, Tables.upsertMergeSequence]
    split
    · rfl
    · split <;> rfl
  | markStale reason =>
    simp only [Write.effect, Tables.markStale]
    split <;> rfl
  | advanceMergeNumberCheckpoint epoch checkpoint =>
    simp only [Write.effect, Tables.advanceMergeNumberCheckpoint]
    split
    · rfl
    · split <;> rfl
  | copySequencesUpTo fromEpoch toEpoch upto => rfl
  | assignMergeNumbers epoch assignments => rfl
  | bumpEpoch => rfl
  | advanceHead headSha headSeq => rfl
  | markReassigning => rfl
  | restoreSequenceState state lastError => rfl
  | request intent => rfl

theorem replay_guarded {ws : List Write} (replayed : replay ws db = .ok db') :
    EvidenceGuarded db.evidence db'.evidence := by
  induction ws generalizing db with
  | nil =>
    cases replay_nil replayed
    exact .refl _
  | cons write rest ih =>
    obtain ⟨count, next, ran, replayed⟩ := replay_cons replayed
    refine EvidenceGuarded.trans ?_ (ih replayed)
    by_cases upserts : ∃ input, write = .upsertEvidence input
    · obtain ⟨input, rfl⟩ := upserts
      exact upsertEvidence_guarded ran
    · rw [run_evidence (fun input same => upserts ⟨input, same⟩) ran]
      exact .refl _

/-! ### Programs of which nothing takes effect -/

/-- Whatever it is answered, the program neither commits nor writes on the pool. -/
inductive Silent {α : Type} : Prog Op Fault α → Prop
  | ret (a : α) : Silent (.ret a)
  | raise (fault : Fault) : Silent (.raise fault)
  | call {β : Type} {op : Op β} {k : Except Fault β → Prog Op Fault α}
      (quiet : op.takesEffect = false) (rest : ∀ r, Silent (k r)) : Silent (.call op k)

/-- The program has ended in none but these results. -/
inductive Returns {α : Type} (results : α → Prop) : Prog Op Fault α → Prop
  | ret {a : α} (result : results a) : Returns results (.ret a)
  | raise (fault : Fault) : Returns results (.raise fault)
  | call {β : Type} {op : Op β} {k : Except Fault β → Prog Op Fault α}
      (rest : ∀ r, Returns results (k r)) : Returns results (.call op k)

section

variable {W : Type} [DecidableEq W] {α : Type} {c c' : Config Op Fault W α (World W)} {w : W}

abbrev anyAnswers (W : Type) [DecidableEq W] : Machine Op Fault W Choice (World W) :=
  machine W fun _ => True

/-- A call of another worker logs nothing of this one. -/
theorem own_append {s s' : World W} {v : W} {new : List Write}
    (wal : s'.wal = s.wal ++ new.map fun write => (v, write)) :
    s'.own w = s.own w ++ if v = w then new else [] := by
  simp only [World.own, wal, List.filter_append, List.map_append]
  congr 1
  by_cases same : v = w
  · rw [if_pos same, List.filter_eq_self.mpr]
    · rw [List.map_map]
      exact List.map_id new
    · intro entry member
      obtain ⟨write, -, rfl⟩ := List.mem_map.mp member
      simpa using same
  · rw [if_neg same, List.filter_eq_nil_iff.mpr]
    · rfl
    · intro entry member
      obtain ⟨write, -, rfl⟩ := List.mem_map.mp member
      simpa using same

/-- A silent worker stays silent, and nothing of it takes effect. -/
theorem Silent.step {v : W} (silent : Silent (c.pool w)) (step : (anyAnswers W).Step v c c') :
    Silent (c'.pool w) ∧ c'.shared.own w = c.shared.own w := by
  obtain ⟨turn, choice, -, stepped⟩ := step
  obtain ⟨new, wal, -, quiet⟩ := step_log stepped
  by_cases same : v = w
  · subst same
    rw [turn] at silent
    cases silent with
    | call calm rest =>
      refine ⟨?_, ?_⟩
      · simpa using rest _
      · rw [own_append wal, quiet calm]
        simp
  · refine ⟨?_, ?_⟩
    · simpa [Function.update_of_ne (Ne.symm same)] using silent
    · rw [own_append wal, if_neg same, List.append_nil]

theorem Silent.reaches (silent : Silent (c.pool w)) (later : (anyAnswers W).Reaches c c') :
    Silent (c'.pool w) ∧ c'.shared.own w = c.shared.own w := by
  induction later with
  | refl => exact ⟨silent, rfl⟩
  | tail _ last ih =>
    obtain ⟨v, step⟩ := last
    obtain ⟨still, own⟩ := ih
    obtain ⟨after, same⟩ := still.step step
    exact ⟨after, same.trans own⟩

theorem Returns.reaches {results : α → Prop} (returns : Returns results (c.pool w))
    (later : (anyAnswers W).Reaches c c') : Returns results (c'.pool w) := by
  induction later with
  | refl => exact returns
  | tail _ last ih =>
    obtain ⟨v, step⟩ := last
    obtain ⟨turn, -⟩ := step
    by_cases same : v = w
    · subst same
      rw [turn] at ih
      cases ih with
      | call rest => simpa using rest _
    · simpa [Function.update_of_ne (Ne.symm same)] using ih

/-! ### A round whose evidence has moved -/

/-- The round from the locked re-read on. -/
def afterReread (round : Round) (locked : List EvidenceRow) :
    Program (ReconcileOutcome ⊕ PlanResult) :=
  if evidenceMoved round.existing locked round.gathered.decisions.keys then
    giveUp (.retry "evidence_moved")
  else do
    let decisions ← storeEvidence round.seqEpoch round.existing round.rows round.gathered.decisions
    planRound round decisions

/-- The round around its transaction. -/
def finishRound (round : Round) (body : Program (ReconcileOutcome ⊕ PlanResult)) :
    Program ReconcileOutcome := do
  let ended ← body.tryCatch fun fault => do
    quietly .rollback
    .raise fault
  match ended with
  | .inl outcome => pure outcome
  | .inr plan => do
      quietly (.external .recordAssignmentSamples)
      pure (round.outcome plan)

variable {round : Round} {locked : List EvidenceRow}

/-- All that is left of a round whose evidence has moved is a rollback. -/
theorem finishRound_moved (result : ReconcileOutcome → α)
    (moved : evidenceMoved round.existing locked round.gathered.decisions.keys = true) :
    Silent ((finishRound round (afterReread round locked)).bind fun outcome =>
        .ret (result outcome)) ∧
      Returns (· = result (.retry "evidence_moved"))
        ((finishRound round (afterReread round locked)).bind fun outcome =>
          .ret (result outcome)) := by
  unfold finishRound afterReread
  rw [if_pos moved]
  refine ⟨.call rfl ?_, .call ?_⟩
  · intro answer
    cases answer with
    | ok => exact .ret _
    | error fault => exact .call rfl fun _ => .raise fault
  · intro answer
    cases answer with
    | ok => exact .ret rfl
    | error fault => exact .call fun _ => .raise fault

/-! ### Every interleaving -/

theorem Reaches.guarded (later : (anyAnswers W).Reaches c c') :
    EvidenceGuarded c.shared.db.evidence c'.shared.db.evidence := by
  induction later with
  | refl => exact .refl _
  | tail _ last ih =>
    obtain ⟨v, step⟩ := last
    obtain ⟨turn, choice, -, stepped⟩ := step
    obtain ⟨new, -, replayed, -⟩ := step_log stepped
    exact ih.trans (replay_guarded replayed)

/-- From any state of any pool of programs: the evidence moves within its guards, an upsert that is
accepted raises the version by one, and a round that has found moved evidence assigns nothing. -/
theorem evidence_never_downgraded (later : (anyAnswers W).Reaches c c') :
    EvidenceGuarded c.shared.db.evidence c'.shared.db.evidence ∧
    (∀ (input : EvidenceUpsert) (db db' : Store) (count : Int) (row : EvidenceRow),
      Write.run (.upsertEvidence input) db = .ok (count, db') → row ∈ db.evidence →
        AtKey input row → overwritten input row ∈ db'.evidence ∧
          (overwritten input row).evidenceVersion = row.evidenceVersion + 1) ∧
    ∀ (w : W) (round : Round) (locked : List EvidenceRow) (result : ReconcileOutcome → α),
      evidenceMoved round.existing locked round.gathered.decisions.keys = true →
      c.pool w = ((finishRound round (afterReread round locked)).bind fun outcome =>
        .ret (result outcome)) →
      c'.shared.own w = c.shared.own w ∧
        ∀ ended, c'.pool w = .ret ended → ended = result (.retry "evidence_moved") := by
  refine ⟨Reaches.guarded later, ?_, ?_⟩
  · intro input db db' count row ran member here
    exact ⟨(upsertEvidence_over ran member here).2.2, rfl⟩
  · intro w round locked result moved turn
    obtain ⟨silent, returns⟩ := finishRound_moved result moved
    rw [← turn] at silent returns
    refine ⟨(silent.reaches later).2, ?_⟩
    intro ended past
    have results := returns.reaches later
    rw [past] at results
    cases results with
    | ret same => exact same

end

/-- One commit whose merge is confirmed. -/
def confirmedStore : Store where
  space := some ⟨1, some "a", 1, .ok, none, 0, 0, none⟩
  rows := [⟨1, 1, "a", none, 0, none⟩]
  evidence := [⟨1, 1, "a", .prConfirmed, some 7, none, 1, some 0⟩]
  intents := []
  lawful := by decide

/-- One worker takes the confirmation back, and the other makes it again. -/
def contestedEvidence : Config Op Fault (Fin 2) Int (World (Fin 2)) where
  shared := World.initial confirmedStore
  pool := ![execute .pool (.upsertEvidence ⟨1, 1, "a", .unresolved, none, some .fetchFailed, none⟩),
    execute .pool (.upsertEvidence ⟨1, 1, "a", .prConfirmed, some 7, none, some 0⟩)]

theorem evidence_never_downgraded_contested :
    ∃ c, (anyAnswers (Fin 2)).Reaches contestedEvidence c ∧
      c.shared.db.evidence = [⟨1, 1, "a", .prConfirmed, some 7, none, 2, some 0⟩] ∧
      EvidenceGuarded confirmedStore.evidence c.shared.db.evidence := by
  obtain ⟨c, reached, checked⟩ := (anyAnswers (Fin 2)).reaches_of_check
    (fun _ _ _ _ _ => trivial) [(1, {}), (0, {})] contestedEvidence
    (fun c => decide (c.shared.db.evidence =
      [⟨1, 1, "a", .prConfirmed, some 7, none, 2, some 0⟩])) (by decide)
  exact ⟨c, reached, of_decide_eq_true checked, (evidence_never_downgraded reached).1⟩

/-- An upsert of what is there already is stored as a new version. -/
theorem unchanged_upsert_raises_version :
    (confirmedStore.toTables.upsertEvidence
      ⟨1, 1, "a", .prConfirmed, some 7, none, some 0⟩).2.evidence =
        [⟨1, 1, "a", .prConfirmed, some 7, none, 2, some 0⟩] ∧
      (⟨1, 1, "a", .prConfirmed, some 7, none, 2, some 0⟩ : EvidenceRow) ∉
        confirmedStore.evidence := by
  decide

end PrSearch.MergeNumber
