import Mathlib.Data.Fin.VecNotation
import PrSearch.Sequence.Interleaved

/-! # The state of a space over all interleavings

The state column is what the logged statements have made of it, so a space that is `reassigning` has
been marked by some worker, and nothing since has settled it. How each run ends says whether its own
mark has been settled.
-/
namespace PrSearch.Sequence

variable {db₀ db : Store} {c : Choice} {β : Type} {op : Op β} {r : Except Fault β}
  {core : SequenceSpace} {newHead : Sha} {entries : List MergeSequenceInsert}
  {requests : List Intent} {outcome : AssignOutcome}

/-! ### The log explains the tables -/

section

variable {W : Type} [DecidableEq W]

/-- Replaying the log over the tables of the start gives the committed tables. -/
def Explained (db₀ : Store) (s : World W) : Prop := replay (s.wal.map Prod.snd) db₀ = .ok s.db

theorem Explained.grow {s : World W} {w : W} (explained : Explained db₀ s) (new : List Write)
    (replayed : replay new s.db = .ok db) (lock : Option W) (writes : W → List Write) :
    Explained db₀ ⟨db, lock, writes, s.wal ++ new.map fun write => (w, write)⟩ := by
  have added : (new.map fun write => (w, write)).map Prod.snd = new := by
    rw [List.map_map]
    exact List.map_id new
  unfold Explained at explained ⊢
  rw [List.map_append, added, replay_append, explained]
  exact replayed

/-- The statements of a call may take effect at once. -/
def Op.takesEffect : {β : Type} → Op β → Bool
  | _, .commit => true
  | _, .execute .pool _ => true
  | _, _ => false

variable {s' : World W}

/-- Every call logs exactly the statements that take effect. -/
theorem step_log {w : W} {s : World W} (stepped : step w c op s = some (r, s')) :
    ∃ new : List Write, s'.wal = s.wal ++ new.map (fun write => (w, write)) ∧
      replay new s.db = .ok s'.db ∧ (op.takesEffect = false → new = []) := by
  -- most calls log nothing
  have quiet : s'.wal = s.wal → s'.db = s.db → ∃ new : List Write,
      s'.wal = s.wal ++ new.map (fun write => (w, write)) ∧
        replay new s.db = .ok s'.db ∧ (op.takesEffect = false → new = []) := by
    intro wal db
    exact ⟨[], by simp [wal], by rw [db]; rfl, fun _ => rfl⟩
  have unchanged : ∀ {γ : Type} {answer r : Except Fault γ}, answered answer s = some (r, s') →
      s'.wal = s.wal ∧ s'.db = s.db := by
    intro γ answer r answers
    simp only [answered, Option.some.injEq, Prod.mk.injEq] at answers
    rw [← answers.2]
    exact ⟨rfl, rfl⟩
  cases op with
  | execute client write =>
    cases client <;> simp only [step, withDatabase] at stepped
    case pool =>
      split at stepped
      · cases stepped
        exact quiet rfl rfl
      · unfold executePool at stepped
        split at stepped
        · cases stepped
        · split at stepped
          · cases stepped
            exact quiet rfl rfl
          next count db ran =>
            cases stepped
            refine ⟨[write], rfl, ?_, fun none_ => by cases none_⟩
            simp only [replay, ran]
    case tx =>
      split at stepped
      · cases stepped
        exact quiet rfl rfl
      · simp only [executeTx, Option.some.injEq] at stepped
        split at stepped
        · cases stepped
          exact quiet rfl rfl
        · split at stepped <;> cases stepped <;> exact quiet rfl rfl
  | commit =>
    simp only [step, withDatabase] at stepped
    split at stepped
    · cases stepped
      exact quiet rfl rfl
    · simp only [commitTx, Option.some.injEq] at stepped
      split at stepped
      · cases stepped
        exact quiet rfl rfl
      next db seen =>
        cases stepped
        exact ⟨s.writes w, rfl, seen, fun none_ => by cases none_⟩
  | rollback =>
    simp only [step, withDatabase] at stepped
    split at stepped <;> cases stepped <;> exact quiet rfl rfl
  | trySequenceSpaceLock =>
    simp only [step, withDatabase] at stepped
    split at stepped
    · cases stepped
      exact quiet rfl rfl
    · split at stepped
      · exact quiet (unchanged stepped).1 (unchanged stepped).2
      · cases stepped
        exact quiet rfl rfl
  | query client read =>
    cases client <;> simp only [step, withDatabase] at stepped <;> split at stepped
    · cases stepped
      exact quiet rfl rfl
    · exact quiet (unchanged stepped).1 (unchanged stepped).2
    · cases stepped
      exact quiet rfl rfl
    · exact quiet (unchanged stepped).1 (unchanged stepped).2
  | findRepositoryById | connect | begin | findActiveAttestation =>
    simp only [step, withDatabase] at stepped
    split at stepped
    · cases stepped
      exact quiet rfl rfl
    · exact quiet (unchanged stepped).1 (unchanged stepped).2
  | resolveHead | isAncestor | mergeBase | firstParentRevList | firstParentCommits
  | findPullRequestByMergeCommit | external | scanEvidence | recheckPending | now | readClock =>
    exact quiet (unchanged stepped).1 (unchanged stepped).2

theorem step_explained {w : W} {s : World W} (explained : Explained db₀ s)
    (stepped : step w c op s = some (r, s')) : Explained db₀ s' := by
  obtain ⟨new, wal, replayed, -⟩ := step_log stepped
  have grown := explained.grow (w := w) new replayed s'.lock s'.writes
  rw [← wal] at grown
  exact grown

theorem Reaches.explained {jobs : W → Job} {c : Workers W}
    (reached : (workers W).Reaches (start jobs) c) : Explained Store.empty c.shared := by
  induction reached with
  | refl => rfl
  | tail _ last ih =>
    obtain ⟨w, step⟩ := last
    obtain ⟨turn, choice, -, stepped⟩ := step
    exact step_explained ih stepped

end

/-! ### What a statement does to the state -/

/-- The statement puts the space into `reassigning`. -/
def Write.marks : Write → Bool
  | .markReassigning | .bumpEpoch => true
  | _ => false

/-- The statement leaves the space in another state, whatever it was. -/
def Write.settles : Write → Bool
  | .markStale .. | .advanceHead .. => true
  | .restoreSequenceState state _ => state ≠ .reassigning
  | _ => false

/-- The statement may write the state. -/
def Write.onState (write : Write) : Bool :=
  write.marks || write.settles || match write with
    | .restoreSequenceState .. => true
    | _ => false

/-- The state column after the statement. -/
def Write.stateAfter (write : Write) (state : Option SequenceSpaceState) :
    Option SequenceSpaceState :=
  match write with
  | .ensureSequenceSpace => some (state.getD .ok)
  | .bumpEpoch | .markReassigning => state.map fun _ => .reassigning
  | .advanceHead .. => state.map fun _ => .ok
  | .markStale .. => some .stale
  | .restoreSequenceState restored _ =>
      state.map fun current => if current = .reassigning then restored else current
  | _ => state

def Tables.state (t : Tables) : Option SequenceSpaceState := t.space.map SequenceSpace.state

theorem Write.effect_state (write : Write) (t : Tables) :
    (write.effect t).state = write.stateAfter t.state := by
  cases write with
  | upsertMergeSequence entry =>
    simp only [Write.effect, Tables.upsertMergeSequence]
    split
    · rfl
    · split <;> rfl
  | upsertEvidence input =>
    simp only [Write.effect, Tables.upsertEvidence]
    split
    · rfl
    · split <;> rfl
  | restoreSequenceState restored lastError =>
    cases found : t.space with
    | none =>
      simp [Write.effect, Tables.restoreSequenceState, Tables.updateSpace, Tables.state,
        Write.stateAfter, found]
    | some space =>
      by_cases marked : space.state = .reassigning <;>
        simp [Write.effect, Tables.restoreSequenceState, Tables.updateSpace, Tables.state,
          Write.stateAfter, found, marked]
  | advanceMergeNumberCheckpoint epoch checkpoint =>
    cases found : t.space with
    | none => simp [Write.effect, Tables.advanceMergeNumberCheckpoint, Tables.state,
        Write.stateAfter, found]
    | some space =>
      by_cases same : space.seqEpoch = epoch <;>
        simp [Write.effect, Tables.advanceMergeNumberCheckpoint, Tables.state, Write.stateAfter,
          found, same]
  | ensureSequenceSpace =>
    cases found : t.space <;> simp [Write.effect, Tables.ensureSequenceSpace, Tables.state,
      Write.stateAfter, found]
  | markStale reason =>
    cases found : t.space <;> simp [Write.effect, Tables.markStale, Tables.state,
      Write.stateAfter, found]
  | bumpEpoch =>
    cases found : t.space <;> simp [Write.effect, Tables.bumpEpoch, Tables.updateSpace,
      Tables.state, Write.stateAfter, found]
  | advanceHead headSha headSeq =>
    cases found : t.space <;> simp [Write.effect, Tables.advanceHead, Tables.updateSpace,
      Tables.state, Write.stateAfter, found]
  | markReassigning =>
    cases found : t.space <;> simp [Write.effect, Tables.markReassigning, Tables.updateSpace,
      Tables.state, Write.stateAfter, found]
  | copySequencesUpTo fromEpoch toEpoch upto => rfl
  | assignMergeNumbers epoch assignments => rfl
  | request intent => rfl

variable {write : Write} {history : List Write} {result : Except Fault Ended}

/-- A statement that neither marks nor settles leaves `reassigning` only where it was. -/
theorem Write.reassigning_before {state : Option SequenceSpaceState}
    (unmarked : write.marks = false) (after : write.stateAfter state = some .reassigning) :
    write.settles = false ∧ state = some .reassigning := by
  cases write with
  | markReassigning => cases unmarked
  | bumpEpoch => cases unmarked
  | ensureSequenceSpace => cases state <;> simp_all [Write.stateAfter, Write.settles]
  | restoreSequenceState restored lastError =>
    cases state with
    | none => cases after
    | some current =>
      by_cases marked : current = .reassigning
      · rw [marked] at after ⊢
        simp only [Write.stateAfter, Option.map_some, if_true, Option.some.injEq] at after
        exact ⟨by simp [Write.settles, after], rfl⟩
      · simp [Write.stateAfter, marked] at after
  | markStale reason => cases after
  | advanceHead headSha headSeq =>
    cases state with
    | none => cases after
    | some current => cases after
  | _ => exact ⟨rfl, after⟩

theorem replay_state {ws : List Write} {db' : Store} (replayed : replay ws db = .ok db') :
    db'.state = ws.foldl (fun state write => write.stateAfter state) db.state := by
  induction ws generalizing db with
  | nil =>
    cases replay_nil replayed
    rfl
  | cons write rest ih =>
    obtain ⟨count, next, ran, replayed⟩ := replay_cons replayed
    rw [ih replayed, Write.run_effect ran, Write.effect_state]
    rfl

/-- A log that ends in `reassigning` has a last mark, which nothing since has settled. -/
theorem last_mark {W : Type} {wal : List (W × Write)}
    (folded : (wal.map Prod.snd).foldl (fun state write => write.stateAfter state) none =
      some .reassigning) :
    ∃ before w mark since, wal = before ++ (w, mark) :: since ∧ mark.marks = true ∧
      ∀ entry ∈ since, entry.2.marks = false ∧ entry.2.settles = false := by
  induction wal using List.reverseRecOn with
  | nil => cases folded
  | append_singleton earlier last ih =>
    rw [List.map_append, List.foldl_append] at folded
    cases marks : last.2.marks with
    | true =>
      refine ⟨earlier, last.1, last.2, [], by simp, marks, ?_⟩
      intro entry member
      cases member
    | false =>
      obtain ⟨unsettled, prior⟩ := Write.reassigning_before marks folded
      obtain ⟨before, w, mark, since, rfl, isMark, quiet⟩ := ih prior
      refine ⟨before, w, mark, since ++ [last], by simp, isMark, ?_⟩
      intro entry member
      rcases List.mem_append.mp member with old | new
      · exact quiet entry old
      · rw [List.mem_singleton.mp new]
        exact ⟨marks, unsettled⟩

/-! ### Histories that settle their own marks -/

/-- After each mark in the history something settles it. -/
def SettlesMarks (history : List Write) : Prop :=
  ∀ before mark since, history = before ++ mark :: since → mark.marks = true →
    ∃ write ∈ since, write.settles = true

theorem settlesMarks_of_none (none : ∀ write ∈ history, write.marks = false) :
    SettlesMarks history := by
  rintro before mark since rfl isMark
  have unmarked := none mark (by simp)
  rw [isMark] at unmarked
  cases unmarked

theorem Write.marks_of_settles (settles : write.settles = true) : write.marks = false := by
  cases write <;> first | rfl | cases settles

/-- A statement that settles, with no mark behind it. -/
theorem settlesMarks_of_settled (first : List Write) {rest : List Write}
    (settles : write.settles = true) (none : ∀ later ∈ rest, later.marks = false) :
    SettlesMarks (first ++ write :: rest) := by
  intro before mark since split isMark
  rcases List.append_eq_append_iff.mp split with ⟨between, rfl, tail⟩ | ⟨between, rfl, tail⟩
  · cases between with
    | nil =>
      simp only [List.nil_append, List.cons.injEq] at tail
      rw [← tail.1, Write.marks_of_settles settles] at isMark
      cases isMark
    | cons head between =>
      simp only [List.cons_append, List.cons.injEq] at tail
      have unmarked := none mark (by rw [tail.2]; simp)
      rw [isMark] at unmarked
      cases unmarked
  · cases between with
    | nil =>
      simp only [List.nil_append, List.cons.injEq] at tail
      rw [tail.1, Write.marks_of_settles settles] at isMark
      cases isMark
    | cons head between =>
      simp only [List.cons_append, List.cons.injEq] at tail
      obtain ⟨rfl, rfl⟩ := tail
      exact ⟨write, by simp, settles⟩

theorem settlesMarks_rebuild {keepSeq : Int} :
    SettlesMarks (.markReassigning :: rebuildWrites core keepSeq newHead entries requests) := by
  have shape : Write.markReassigning :: rebuildWrites core keepSeq newHead entries requests =
      (.markReassigning :: (epochWrites core keepSeq ++ entries.map .upsertMergeSequence)) ++
        .advanceHead newHead (keepSeq + entries.length) :: requests.map .request := by
    rw [rebuildWrites_eq]
    simp [headWrites]
  rw [shape]
  apply settlesMarks_of_settled _ rfl
  intro later member
  obtain ⟨intent, -, rfl⟩ := List.mem_map.mp member
  rfl

theorem settlesMarks_append : SettlesMarks (appendWrites core newHead entries requests) := by
  apply settlesMarks_of_none
  intro write member
  simp only [appendWrites, List.mem_append, List.mem_map, List.mem_singleton] at member
  rcases member with ((rfl | ⟨entry, -, rfl⟩) | rfl) | ⟨intent, -, rfl⟩ <;> rfl

/-! ### How runs leave the state -/

/-- The results of a run whose mark may outlive it: it lost the lock, found the head moved, took its
mark back to `reassigning`, or threw. -/
def KeepsMark (history : List Write) : Except Fault Ended → Prop
  | .error _ => True
  | .ok (.assign (.rewritten ..)) => True
  | .ok (.assign (.skipped reason)) => reason = "head_moved"
  | .ok (.repair (.skipped _)) =>
      ∃ lastError, Write.restoreSequenceState .reassigning lastError ∈ history
  | .ok _ => False

/-- The results of a run that has not touched the state. -/
def WritesNoState : Except Fault Ended → Prop
  | .ok (.assign .locked) => True
  | .ok (.assign .noBranch) => True
  | .ok (.assign (.skipped reason)) => reason ≠ "head_moved"
  | .ok (.repair .locked) => True
  | .ok (.repair .noBranch) => True
  | .ok (.repair (.consistent ..)) => True
  | .ok (.repair (.skipped reason)) => reason ≠ "head_moved"
  | _ => False

/-- The results of a run that reports the space as stale. -/
def EndsStale : Except Fault Ended → String → Prop
  | .ok (.assign (.stale reason)), reported => reason = reported
  | .ok (.repair (.stale reason)), reported => reason = reported
  | _, _ => False

/-- What the history of a run says about the state, given its result. -/
structure StateKept (result : Except Fault Ended) (history : List Write) : Prop where
  settles : ¬ KeepsMark history result → SettlesMarks history
  silent : WritesNoState result → ∀ write ∈ history, write.onState = false
  stale : ∀ reason, EndsStale result reason →
    history = [] ∨ ∃ before, history = before ++ [.markStale reason]

theorem stateKept_nil :
    StateKept result [] where
  settles _ := settlesMarks_of_none (by simp)
  silent _ := by simp
  stale _ _ := Or.inl rfl

/-- A history that ends with the report, on top of at most the own mark. -/
theorem stateKept_stale {reason : String} (before : List Write)
    (reports : ∀ reported, EndsStale result reported → reason = reported)
    (touches : ¬ WritesNoState result) :
    StateKept result (before ++ [.markStale reason]) where
  settles _ := settlesMarks_of_settled before rfl (by simp)
  silent kept := absurd kept touches
  stale reported ends := Or.inr ⟨before, by rw [reports reported ends]⟩

/-- A result about which only the mark is left open. -/
theorem stateKept_of_keeps (keeps : KeepsMark history result) (touches : ¬ WritesNoState result)
    (reports : ∀ reason, ¬ EndsStale result reason) :
    StateKept result history where
  settles left := absurd keeps left
  silent kept := absurd kept touches
  stale reason ends := absurd ends (reports reason)

theorem stateKept_of_settles (settles : SettlesMarks history) (touches : ¬ WritesNoState result)
    (reports : ∀ reason, ¬ EndsStale result reason) :
    StateKept result history where
  settles _ := settles
  silent kept := absurd kept touches
  stale reason ends := absurd ends (reports reason)

section

variable {W : Type} [DecidableEq W] {E : Setting} {w : W} {d : Store} {s : World W}

theorem ReassignEnds.stateKept {stored new : Sha} (ended : ReassignEnds E w stored new d outcome s) :
    StateKept (.ok (.assign outcome)) (s.own w) := by
  cases outcome with
  | rewritten => exact stateKept_of_keeps trivial id fun _ => id
  | skipped reason => exact stateKept_of_keeps ended.2 (fun other => other ended.2) fun _ => id
  | stale reason =>
    rw [Idle.own ended]
    exact stateKept_stale [.markReassigning] (fun _ => id) id
  | reassigned =>
    obtain ⟨ws, db, db', ⟨idle, -⟩, rewound⟩ := ended
    obtain ⟨base, commits, entries, requests, -, -, -, rfl, -⟩ := rewound.shape
    rw [idle.own]
    exact stateKept_of_settles settlesMarks_rebuild id fun _ => id
  | assigned => exact ended.elim
  | noBranch => exact ended.elim
  | locked => exact ended.elim

theorem AssignEnds.stateKept (ended : AssignEnds E w d outcome s) :
    StateKept (.ok (.assign outcome)) (s.own w) := by
  rcases ended with ended | ⟨seen, stored, new, -, -, ended⟩
  · cases outcome with
    | assigned =>
      obtain ⟨ws, db, db', ⟨idle, -⟩, appended⟩ := ended
      obtain ⟨commits, entries, requests, -, -, rfl, -⟩ := appended.shape
      rw [idle.own]
      exact stateKept_of_settles settlesMarks_append id fun _ => id
    | skipped reason =>
      rw [ended.1.own]
      exact stateKept_nil
    | noBranch =>
      rw [Idle.own ended]
      exact stateKept_nil
    | locked =>
      rw [Idle.own ended]
      exact stateKept_nil
    | stale reason =>
      rcases ended with idle | idle
      · rw [idle.own]
        exact stateKept_nil
      · rw [idle.own]
        exact stateKept_stale [] (fun _ => id) id
    | reassigned => exact ended.elim
    | rewritten => exact ended.elim
  · exact ReassignEnds.stateKept ended

theorem RepairEnds.stateKept {outcome : RepairOutcome} (ended : RepairEnds E w d outcome s) :
    StateKept (.ok (.repair outcome)) (s.own w) := by
  cases outcome with
  | consistent =>
    obtain ⟨first, seen, head, space, actual, intent, ⟨idle, -⟩, -⟩ := ended
    rw [idle.own]
    constructor
    · intro _
      apply settlesMarks_of_none
      simp [Write.marks]
    · intro _ write member
      rw [List.mem_singleton.mp member]
      rfl
    · intro reason ends
      exact ends.elim
  | repaired =>
    obtain ⟨plan, ws, seen, db, db', ⟨idle, -⟩, rebuilt⟩ := ended
    obtain ⟨commits, entries, requests, -, -, rfl, -⟩ := rebuilt.shape
    rw [idle.own]
    exact stateKept_of_settles settlesMarks_rebuild id fun _ => id
  | noBranch =>
    rw [Idle.own ended]
    exact stateKept_nil
  | locked =>
    rw [Idle.own ended]
    exact stateKept_nil
  | skipped reason =>
    rcases ended with idle | ⟨moved, first, space, -, idle⟩
    · rw [idle.own]
      exact stateKept_nil
    · rw [idle.own]
      by_cases marked : space.state = .reassigning
      · have keeps : Write.restoreSequenceState .reassigning space.lastError ∈
            [.markReassigning, .restoreSequenceState space.state space.lastError] := by simp [marked]
        exact stateKept_of_keeps ⟨_, keeps⟩ (fun other => other moved) fun _ => id
      · refine stateKept_of_settles ?_ (fun other => other moved) fun _ => id
        have settles : Write.settles (.restoreSequenceState space.state space.lastError) = true := by
          simp [Write.settles, marked]
        exact settlesMarks_of_settled [.markReassigning] settles (by simp)
  | stale reason =>
    rcases ended with idle | idle
    · rw [idle.own]
      exact stateKept_stale [] (fun _ => id) id
    · rw [idle.own]
      exact stateKept_stale [.markReassigning] (fun _ => id) id

theorem JobEnds.stateKept {jobs : W → Job} (ended : JobEnds jobs w result s) :
    StateKept result (s.own w) := by
  cases result with
  | error fault => exact stateKept_of_keeps trivial id fun _ => id
  | ok value =>
    cases job : jobs w <;> cases value <;> simp only [JobEnds, job] at ended
    · exact ended.stateKept
    · exact ended.stateKept
    · exact ended.stateKept

/-- Restoring does nothing to a space that is not `reassigning`. -/
theorem restoreSequenceState_of_unmarked {t : Tables} {state : SequenceSpaceState}
    {lastError : Option String} (unmarked : t.state ≠ some .reassigning) :
    t.restoreSequenceState state lastError = t := by
  cases found : t.space with
  | none =>
    unfold Tables.restoreSequenceState Tables.updateSpace
    rw [found, Option.map_none, ← found]
  | some space =>
    have other : space.state ≠ .reassigning := by
      intro marked
      apply unmarked
      rw [Tables.state, found, Option.map_some, marked]
    unfold Tables.restoreSequenceState Tables.updateSpace
    rw [found, Option.map_some, if_neg other, ← found]

end

/-- Two assignments, and a reassignment from the commit that the first one numbers. -/
def contending : Workers (Fin 3) := start ![.assign "main", .assign "main", .reassign "r" "x"]

local instance threeWorkers : NeZero 3 := inferInstance

/-- The first assignment runs to its end, and the reassignment sets its mark. -/
def markedTurns : List (Fin 3 × Choice) := List.replicate 19 (0, oneCommit) ++ [(2, oneCommit)]

def databaseDown : Choice := { oneCommit with database := some (.error "down") }

/-- The second assignment takes the lock, the reassignment marks the space, loses the lock and ends,
and then the database fails the second assignment. -/
def abandonedTurns : List (Fin 3 × Choice) :=
  List.replicate 19 (0, oneCommit) ++ List.replicate 4 (1, oneCommit) ++
    List.replicate 5 (2, oneCommit) ++ List.replicate 2 (1, databaseDown)

end PrSearch.Sequence
