import PrSearch.DeadLetter.Truth

/-! # When the table tells the truth

Every statement changes what one row tells, as one fact changes what it should tell. The two changes are the
same on an exact condition on the row, and so the table tells the truth in all of a run exactly when each
step of the run meets its condition.
-/
namespace PrSearch.DeadLetter

open Rows

variable {row : DeadLetterRow} {change : DeadLetterRow → DeadLetterRow}

/-! ### What the rows tell -/

section Tales

variable {rows : List DeadLetterRow} {log : List Fact} {fact : Fact}

/-- What the table tells of a key. -/
def tale (rows : List DeadLetterRow) (key : Key) : Option Truth :=
  (rows.find? fun row => row.key = key).map DeadLetterRow.told

theorem truth_concat (log : List Fact) (fact : Fact) (key : Key) :
    truth (log ++ [fact]) key = after key (truth log key) fact := by
  rw [truth, List.foldl_append]
  rfl

theorem tale_of_mem (keyed : Keyed DeadLetterRow.key rows) (member : row ∈ rows) :
    tale rows row.key = some row.told := by
  rw [tale, keyed.find? member]
  rfl

theorem of_tale {key : Key} {told : Truth} (is : tale rows key = some told) :
    ∃ row ∈ rows, row.key = key ∧ row.told = told := by
  obtain ⟨row, found, rfl⟩ := Option.map_eq_some_iff.mp is
  exact ⟨row, List.mem_of_find?_eq_some found, by simpa using List.find?_some found, rfl⟩

theorem tale_map (keeps : ∀ row, (change row).key = row.key) (key : Key) :
    tale (rows.map change) key =
      (rows.find? fun row => row.key = key).map fun row => (change row).told := by
  have same : ((fun row : DeadLetterRow => decide (row.key = key)) ∘ change) =
      fun row => decide (row.key = key) := by
    funext row
    simp only [Function.comp_apply, keeps]
  rw [tale, List.find?_map, same, Option.map_map]
  rfl

/-- A statement that changes rows in their places follows a fact when it does so on every row. -/
theorem tale_map_iff (keyed : Keyed DeadLetterRow.key rows)
    (keeps : ∀ row, (change row).key = row.key) (opens : ∀ key, after key none fact = none)
    (tells : ∀ key, tale rows key = truth log key) :
    (∀ key, tale (rows.map change) key = truth (log ++ [fact]) key) ↔
      ∀ row ∈ rows, (change row).told = row.told.next row.key fact := by
  constructor
  · intro all row member
    have here := all row.key
    rw [truth_concat, ← tells, tale_of_mem keyed member, tale_map keeps, keyed.find? member] at here
    exact Option.some.inj here
  · intro each key
    rw [truth_concat, ← tells, tale_map keeps, tale]
    cases found : rows.find? fun row => row.key = key with
    | none => exact (opens key).symm
    | some row =>
      have isKey : row.key = key := by simpa using List.find?_some found
      have same := each row (List.mem_of_find?_eq_some found)
      rw [isKey] at same
      exact congrArg some same

/-- A failure is always told as it should be. -/
theorem tale_record (input : DeadLetterInput) (nextId : Nat) (now : Int) (key : Key) :
    tale (recordDeadLetter rows input nextId now) key =
      after key (tale rows key) (.recorded input.key input.error) := by
  have isKey : (firstFailure input nextId now).key = input.key := rfl
  unfold recordDeadLetter Rows.upsert
  split
  next there =>
    rw [tale_map (fun row => by split <;> rfl), tale]
    cases found : rows.find? fun row => row.key = key with
    | none =>
      -- the key that fails has a row
      have other : input.key ≠ key := by
        rintro rfl
        obtain ⟨stored, member, same⟩ := there
        exact absurd (same.trans isKey) (by simpa using List.find?_eq_none.mp found stored member)
      simp [after, other]
    | some row =>
      have same : row.key = key := by simpa using List.find?_some found
      simp only [Option.map_some, after, Truth.next, isKey, same, eq_comm (a := key)]
      split
      · cases state : row.state <;> simp [failAgain, DeadLetterRow.told, Truth.fail, state, firstFailure]
      · rfl
  next absent =>
    rw [tale, List.find?_append, tale]
    cases found : rows.find? fun row => row.key = key with
    | none =>
      by_cases same : input.key = key
      · subst same
        simp [after, isKey, firstFailure, DeadLetterRow.told, DeadLetterRow.key, DeadLetterInput.key]
      · simp [after, isKey, same]
    | some row =>
      have other : input.key ≠ key := by
        rintro rfl
        have same : row.key = input.key := by simpa using List.find?_some found
        exact absent ⟨row, List.mem_of_find?_eq_some found, same.trans isKey.symm⟩
      simp [after, Truth.next, other]

theorem told_resolve (row : DeadLetterRow) : (resolve row).told = { row.told with state := .resolved } := by
  unfold resolve
  split
  · rfl
  next closed =>
    rw [ne_eq, not_not] at closed
    rw [DeadLetterRow.told, closed]

theorem told_resolve_iff (row : DeadLetterRow) (deliveryId : String) (missing : Bool) :
    (if row.deliveryId = deliveryId then resolve row else row).told =
        row.told.next row.key (.projected deliveryId missing) ↔
      (missing → row.deliveryId = deliveryId → row.stage = .enrich → row.error.isIncomplete →
        row.state = .resolved) := by
  by_cases own : row.deliveryId = deliveryId
  · subst own
    have next : row.told.next row.key (.projected row.deliveryId missing) =
      row.told.project row.stage missing := if_pos rfl
    rw [if_pos rfl, next, told_resolve]
    by_cases stays : row.stage = .enrich ∧ row.error.isIncomplete = true ∧ missing = true
    · -- it should stay as it is
      have same : row.told.project row.stage missing = row.told := if_pos stays
      rw [same]
      obtain ⟨enrich, incomplete, isMissing⟩ := stays
      simp [DeadLetterRow.told, enrich, incomplete, isMissing, eq_comm]
    · have follows : row.told.project row.stage missing = { row.told with state := .resolved } :=
        if_neg stays
      exact iff_of_true follows.symm fun isMissing _ enrich incomplete =>
        absurd ⟨enrich, incomplete, isMissing⟩ stays
  · have next : row.told.next row.key (.projected deliveryId missing) = row.told := if_neg (Ne.symm own)
    rw [if_neg own, next]
    exact iff_of_true rfl fun _ is => absurd is own

theorem told_mark_iff (row : DeadLetterRow) (cause : Cause) {ids : List Nat} {keys : List Key}
    (same : row.deadLetterId ∈ ids ↔ row.key ∈ keys) :
    (if row.deadLetterId ∈ ids then { row with state := .reprocessing } else row).told =
        row.told.next row.key (.marked cause keys) ↔
      (row.deadLetterId ∈ ids → (row.state = .resolved → row.reprocessCount = 0) ∧
        (row.state = .held → cause = .byIds)) := by
  by_cases inside : row.deadLetterId ∈ ids
  · have marked := same.mp inside
    cases state : row.state with
    | held =>
      by_cases explicit : cause = .byIds <;>
        simp [inside, Truth.next, marked, Truth.mark, DeadLetterRow.told, state, explicit]
    | resolved => simp [inside, Truth.next, marked, Truth.mark, DeadLetterRow.told, state]
    | pending | reprocessing => simp [inside, Truth.next, marked, Truth.mark, DeadLetterRow.told, state]
  · have unmarked : row.key ∉ keys := mt same.mpr inside
    simp [inside, Truth.next, unmarked]

theorem told_revert_iff (row : DeadLetterRow) {deadLetterId : Nat} {key : Key} (reverted : Bool)
    (same : row.deadLetterId = deadLetterId ↔ key = row.key) :
    (if reverted = true ∧ row.deadLetterId = deadLetterId ∧ row.state = .reprocessing then
        { row with state := .pending } else row).told =
        row.told.next row.key (.unpublished key reverted) ↔
      (row.deadLetterId = deadLetterId → row.state = .reprocessing →
        row.reprocessCount < maxReprocessAttempts) := by
  by_cases own : row.deadLetterId = deadLetterId
  · have isKey := same.mp own
    by_cases marked : row.state = .reprocessing
    · by_cases many : maxReprocessAttempts ≤ row.reprocessCount
      · cases reverted <;>
          simp [own, isKey, marked, many, Truth.next, Truth.unpublish, DeadLetterRow.told]
      · cases reverted <;>
          simp [own, isKey, marked, many, Truth.next, Truth.unpublish, DeadLetterRow.told,
            Nat.lt_of_not_le many]
    · simp [own, isKey, marked, Truth.next, Truth.unpublish, DeadLetterRow.told]
  · have other : key ≠ row.key := mt same.mpr own
    simp [own, other, Truth.next]

end Tales

/-! ### The invariant -/

/-- What never changes of a row. -/
def DeadLetterRow.identity (row : DeadLetterRow) : Nat × Key := (row.deadLetterId, row.key)

/-- The rows that an operator's request goes on with. -/
def Task.targets : Task → List DeadLetterRow
  | .marking _ targets => targets
  | .publishing _ rest => rest
  | .reverting _ row rest => row :: rest
  | _ => []

/-- Keys and identifiers are of one row each, and requests go on with rows that are still there. -/
structure Inv (s : World) : Prop where
  keyed : Keyed DeadLetterRow.key s.rows
  ids : Keyed DeadLetterRow.deadLetterId s.rows
  fresh : ∀ row ∈ s.rows, row.deadLetterId < s.nextId
  targets : ∀ program task, s.tasks program = some task → ∀ target ∈ task.targets,
    target.identity ∈ s.rows.map DeadLetterRow.identity

section Invariant

variable {s next : World} {program : Nat}

theorem inv_start : Inv start where
  keyed := List.nodup_nil
  ids := List.nodup_nil
  fresh _ inside := nomatch inside
  targets _ _ is := nomatch is

/-- A target and a row are the same by their identifiers or by their keys. -/
theorem Inv.same_iff (inv : Inv s) {target : DeadLetterRow}
    (there : target.identity ∈ s.rows.map DeadLetterRow.identity) (member : row ∈ s.rows) :
    row.deadLetterId = target.deadLetterId ↔ target.key = row.key := by
  obtain ⟨stored, inside, is⟩ := List.mem_map.mp there
  obtain ⟨sameId, sameKey⟩ := Prod.mk.inj is
  constructor
  · intro same
    rw [← sameKey, inv.ids.eq inside member (sameId.trans same.symm)]
  · intro same
    rw [← sameId, inv.keyed.eq member inside (same.symm.trans sameKey.symm)]

theorem Inv.targets_iff (inv : Inv s) {targets : List DeadLetterRow}
    (there : ∀ target ∈ targets, target.identity ∈ s.rows.map DeadLetterRow.identity)
    (member : row ∈ s.rows) :
    row.deadLetterId ∈ targets.map DeadLetterRow.deadLetterId ↔
      row.key ∈ targets.map DeadLetterRow.key := by
  constructor
  · intro inside
    obtain ⟨target, among, is⟩ := List.mem_map.mp inside
    exact List.mem_map.mpr ⟨target, among, (inv.same_iff (there target among) member).mp is.symm⟩
  · intro inside
    obtain ⟨target, among, is⟩ := List.mem_map.mp inside
    exact List.mem_map.mpr ⟨target, among, ((inv.same_iff (there target among) member).mpr is).symm⟩

/-- A turn that leaves the rows their identities, with what the program goes on with. -/
theorem Inv.turn (inv : Inv s) (program : Nat) (task : Option Task)
    (rows : next.rows.map DeadLetterRow.identity = s.rows.map DeadLetterRow.identity)
    (sequence : next.nextId = s.nextId) (tasks : next.tasks = Function.update s.tasks program task)
    (ok : ∀ going ∈ task, ∀ target ∈ going.targets,
      target.identity ∈ s.rows.map DeadLetterRow.identity) : Inv next where
  keyed := by
    have keys := congrArg (List.map Prod.snd) rows
    rw [List.map_map, List.map_map] at keys
    change (next.rows.map (Prod.snd ∘ DeadLetterRow.identity)).Nodup
    rw [keys]
    exact inv.keyed
  ids := by
    have ids := congrArg (List.map Prod.fst) rows
    rw [List.map_map, List.map_map] at ids
    change (next.rows.map (Prod.fst ∘ DeadLetterRow.identity)).Nodup
    rw [ids]
    exact inv.ids
  fresh row member := by
    have inside : row.identity ∈ s.rows.map DeadLetterRow.identity :=
      rows ▸ List.mem_map_of_mem member
    obtain ⟨stored, there, is⟩ := List.mem_map.mp inside
    rw [sequence, ← (Prod.mk.inj is).1]
    exact inv.fresh stored there
  targets other going is target among := by
    rw [rows]
    rw [tasks] at is
    by_cases same : other = program
    · subst same
      rw [Function.update_self] at is
      exact ok going is target among
    · rw [Function.update_of_ne same] at is
      exact inv.targets other going is target among

theorem identity_map {rows : List DeadLetterRow}
    (keeps : ∀ row, (change row).identity = row.identity) :
    (rows.map change).map DeadLetterRow.identity = rows.map DeadLetterRow.identity := by
  rw [List.map_map]
  exact List.map_congr_left fun row _ => keeps row

theorem identity_mark (ids : List Nat) (row : DeadLetterRow) :
    (if row.deadLetterId ∈ ids then { row with state := .reprocessing } else row).identity =
      row.identity := by
  split <;> rfl

theorem identity_resolve (deliveryId : String) (row : DeadLetterRow) :
    (if row.deliveryId = deliveryId then resolve row else row).identity = row.identity := by
  unfold resolve
  split
  · split <;> rfl
  · rfl

theorem identity_revert (deadLetterId : Nat) (row : DeadLetterRow) :
    (if row.deadLetterId = deadLetterId ∧ row.state = .reprocessing then
      { row with state := .pending } else row).identity = row.identity := by
  split <;> rfl

-- A new row has a new identifier.
theorem Inv.record (inv : Inv s) (input : DeadLetterInput) (now : Int) :
    Inv (s.recorded program input now) := by
  have keyed : Keyed DeadLetterRow.key (recordDeadLetter s.rows input s.nextId now) :=
    inv.keyed.upsert fun _ same => same
  have member {row : DeadLetterRow} (inside : row ∈ recordDeadLetter s.rows input s.nextId now) :
      (∃ stored ∈ s.rows, row.deadLetterId = stored.deadLetterId) ∨ row.deadLetterId = s.nextId := by
    rcases mem_upsert.mp inside with ⟨stored, _⟩ | ⟨stored, there, _, rfl⟩ | ⟨_, rfl⟩
    · exact .inl ⟨row, stored, rfl⟩
    · exact .inl ⟨stored, there, rfl⟩
    · exact .inr rfl
  have stays {identity : Nat × Key} (inside : identity ∈ s.rows.map DeadLetterRow.identity) :
      identity ∈ (recordDeadLetter s.rows input s.nextId now).map DeadLetterRow.identity := by
    obtain ⟨row, there, rfl⟩ := List.mem_map.mp inside
    by_cases same : row.key = (firstFailure input s.nextId now).key
    · exact List.mem_map.mpr ⟨failAgain row (firstFailure input s.nextId now),
        mem_upsert.mpr (.inr (.inl ⟨row, there, same, rfl⟩)), rfl⟩
    · exact List.mem_map_of_mem (mem_upsert.mpr (.inl ⟨there, same⟩))
  constructor
  · exact keyed
  · show (Keyed DeadLetterRow.deadLetterId (recordDeadLetter s.rows input s.nextId now))
    unfold recordDeadLetter upsert
    split
    · have keeps : (fun row : DeadLetterRow => (if row.key = (firstFailure input s.nextId now).key then
          failAgain row (firstFailure input s.nextId now) else row).deadLetterId) =
          DeadLetterRow.deadLetterId := by
        funext row
        split <;> rfl
      rw [Keyed, List.map_map]
      change (s.rows.map fun row : DeadLetterRow => (if row.key = (firstFailure input s.nextId now).key then
        failAgain row (firstFailure input s.nextId now) else row).deadLetterId).Nodup
      rw [keeps]
      exact inv.ids
    · rw [Keyed, List.map_append, List.map_singleton]
      refine List.Nodup.append inv.ids (List.nodup_singleton _) (List.disjoint_singleton.mpr ?_)
      intro inside
      obtain ⟨row, there, is⟩ := List.mem_map.mp inside
      have below := inv.fresh row there
      have isNext : row.deadLetterId = s.nextId := is
      omega
  · intro row inside
    have stored_ := member inside
    show row.deadLetterId < s.nextId + 1
    rcases stored_ with ⟨stored, there, is⟩ | is
    · have below := inv.fresh stored there
      omega
    · omega
  · intro other going is target among
    change Function.update s.tasks program none other = some going at is
    by_cases same : other = program
    · subst same
      simp at is
    · rw [Function.update_of_ne same] at is
      exact stays (inv.targets other going is target among)

theorem mem_injectable {rows : List DeadLetterRow} {raw : List RawEvent} {request : ReprocessRequest}
    {targets : List DeadLetterRow} (is : injectable rows raw request = .ok targets) :
    ∀ target ∈ targets, target ∈ rows := by
  intro target among
  unfold injectable at is
  split at is
  next => cases is
  next found resolved =>
    split at is
    · cases is
    · split at is
      · cases is
      · cases is
        have inside := (List.mem_filter.mp among).1
        unfold resolveTargets at resolved
        split at resolved
        · cases resolved
        · cases resolved
          exact (List.mem_filter.mp inside).1
        · split at resolved
          · cases resolved
          · cases resolved
            exact (of_mem_select inside).1

theorem doing_self (tasks : Nat → Option Task) (program : Nat) (task : Option Task)
    (is : tasks program = task) : Function.update tasks program task = tasks := by
  rw [← is, Function.update_eq_self]

/-- Every step keeps the invariant. -/
theorem Inv.step {turn : Nat × Action} (inv : Inv s) (stepped : step s turn = some next) : Inv next := by
  obtain ⟨program, action⟩ := turn
  unfold DeadLetter.step at stepped
  dsimp only at stepped
  split at stepped
  next idle =>
    cases stepped
    unfold World.received
    split
    · exact inv
    · exact inv.turn program none rfl rfl (doing_self _ _ _ idle).symm fun _ is => nomatch is
  next result idle =>
    split at stepped
    · cases stepped
      cases result with
      | complete =>
        exact inv.turn program none rfl rfl (doing_self _ _ _ idle).symm
          fun _ is => nomatch is
      | partly components =>
        refine inv.turn program (some _) rfl rfl rfl fun going is => ?_
        cases is
        exact fun _ among => nomatch among
      | failed detail =>
        refine inv.turn program (some _) rfl rfl rfl fun going is => ?_
        cases is
        exact fun _ among => nomatch among
    · cases stepped
  next =>
    cases stepped
    refine inv.turn program (some _) rfl rfl rfl fun going is => ?_
    cases is
    exact fun _ among => nomatch among
  next =>
    cases stepped
    exact inv.record _ _
  next =>
    split at stepped
    · cases stepped
      refine inv.turn program (some _) rfl rfl rfl fun going is => ?_
      cases is
      exact fun _ among => nomatch among
    · cases stepped
  next =>
    cases stepped
    exact inv.turn program none (identity_map (identity_resolve _)) rfl rfl
      fun _ is => nomatch is
  next request idle =>
    split at stepped
    next => exact Option.some.inj stepped ▸ inv
    next found isFound =>
      cases stepped
      refine inv.turn program (some _) rfl rfl rfl fun going is => ?_
      cases is
      exact fun target among => List.mem_map_of_mem (mem_injectable isFound target among)
  next cause found isTask =>
    cases stepped
    refine inv.turn program (some _) (identity_map (identity_mark _)) rfl rfl
      fun going is => ?_
    cases is
    have there := inv.targets program _ isTask
    exact there
  next succeeds cause row rest isTask =>
    cases stepped
    split
    · refine inv.turn program (some _) rfl rfl rfl fun going is => ?_
      cases is
      exact fun target among => inv.targets program _ isTask target (List.mem_cons_of_mem _ among)
    · refine inv.turn program (some _) rfl rfl rfl fun going is => ?_
      cases is
      have there := inv.targets program _ isTask
      exact there
  next =>
    cases stepped
    exact inv.turn program none rfl rfl rfl fun _ is => nomatch is
  next succeeds cause row rest isTask =>
    cases stepped
    refine inv.turn program (some (.publishing cause rest)) ?_ rfl rfl fun going is => ?_
    · unfold World.reverted
      dsimp only
      split
      · exact identity_map (identity_revert _)
      · rfl
    · cases is
      exact fun target among => inv.targets program _ isTask target (List.mem_cons_of_mem _ among)
  next =>
    cases stepped
    refine inv.turn program (some _) rfl rfl rfl fun going is => ?_
    cases is
    exact fun _ among => nomatch among
  next now published queued event rest isTask =>
    cases stepped
    have ok : ∀ going ∈ some (Task.relaying rest), ∀ target ∈ going.targets,
        target.identity ∈ s.rows.map DeadLetterRow.identity := by
      intro going is
      cases is
      exact fun _ among => nomatch among
    split
    · exact inv.turn program _ rfl rfl rfl ok
    · split
      · exact inv.turn program _ rfl rfl rfl ok
      · exact inv.turn program _ rfl rfl rfl ok
  next =>
    cases stepped
    exact inv.turn program none rfl rfl rfl fun _ is => nomatch is
  next =>
    cases stepped
    exact inv.turn program none rfl rfl rfl fun _ is => nomatch is
  next => cases stepped

end Invariant

/-! ### Steps and runs -/

section Steps

variable {s next : World}

theorem Truthful.congr (rows : next.rows = s.rows) (log : next.log = s.log) : Truthful next ↔ Truthful s := by
  constructor
  · rintro ⟨unique, tells, explicit⟩
    exact ⟨rows ▸ unique, rows ▸ log ▸ tells, log ▸ explicit⟩
  · rintro ⟨unique, tells, explicit⟩
    exact ⟨rows ▸ unique, rows ▸ log ▸ tells, log ▸ explicit⟩

/-- What is known of the puttings back that a log already has. -/
theorem explicit_concat {log : List Fact} {fact : Fact}
    (before : ∀ earlier cause deliveryId later, log = earlier ++ .putBack cause deliveryId :: later →
      (∃ stage, HeldAt earlier (deliveryId, stage)) → cause = .byIds) :
    (∀ earlier cause deliveryId later, log ++ [fact] = earlier ++ .putBack cause deliveryId :: later →
      (∃ stage, HeldAt earlier (deliveryId, stage)) → cause = .byIds) ↔
    ∀ cause deliveryId, fact = .putBack cause deliveryId →
      (∃ stage, HeldAt log (deliveryId, stage)) → cause = .byIds := by
  constructor
  · rintro all cause deliveryId rfl
    exact all log cause deliveryId [] rfl
  · intro last earlier cause deliveryId later split
    rcases List.eq_nil_or_concat later with rfl | ⟨front, final, rfl⟩
    · obtain ⟨same, is⟩ := List.append_inj' split rfl
      subst same
      exact last cause deliveryId (List.cons.inj is).1
    · have cut : log ++ [fact] = (earlier ++ .putBack cause deliveryId :: front) ++ [final] := by
        rw [split, List.concat_eq_append, List.append_assoc, List.cons_append]
      obtain ⟨same, _⟩ := List.append_inj' cut rfl
      exact before earlier cause deliveryId front same

/-- A statement that changes rows in their places, and its fact. -/
theorem Truthful.map_iff (inv : Inv s) (truthful : Truthful s) (change : DeadLetterRow → DeadLetterRow)
    (fact : Fact) (rows : next.rows = s.rows.map change) (log : next.log = s.log ++ [fact])
    (keeps : ∀ row, (change row).identity = row.identity) (opens : ∀ key, after key none fact = none)
    (noPutBack : ∀ cause deliveryId, fact ≠ .putBack cause deliveryId) :
    Truthful next ↔ ∀ row ∈ s.rows, (change row).told = row.told.next row.key fact := by
  have keys : ∀ row, (change row).key = row.key := fun row => (Prod.mk.inj (keeps row)).2
  have iff : (∀ key, tale (s.rows.map change) key = truth (s.log ++ [fact]) key) ↔
      ∀ row ∈ s.rows, (change row).told = row.told.next row.key fact :=
    tale_map_iff inv.keyed keys opens truthful.rows
  constructor
  · intro now
    refine iff.mp fun key => ?_
    have tells := now.rows key
    rwa [rows, log] at tells
  · intro each
    refine ⟨?_, ?_, ?_⟩
    · rw [rows, List.map_map, (funext keys : DeadLetterRow.key ∘ change = DeadLetterRow.key)]
      exact truthful.unique
    · rw [rows, log]
      exact iff.mpr each
    · rw [log]
      exact (explicit_concat truthful.explicit).mpr fun cause deliveryId is =>
        absurd is (noPutBack cause deliveryId)

theorem Truthful.record (inv : Inv s) (truthful : Truthful s) (program : Nat) (input : DeadLetterInput)
    (now : Int) : Truthful (s.recorded program input now) where
  unique := (inv.record input now : Inv (s.recorded program input now)).keyed
  rows key := by
    change tale (recordDeadLetter s.rows input s.nextId now) key =
      truth (s.log ++ [.recorded input.key input.error]) key
    rw [tale_record, truth_concat, ← truthful.rows key]
    rfl
  explicit := (explicit_concat truthful.explicit).mpr fun _ _ is => nomatch is

/-- A held row of a delivery, in the table and by the log. -/
theorem held_iff (inv : Inv s) (truthful : Truthful s) (deliveryId : String) :
    (∃ stage, HeldAt s.log (deliveryId, stage)) ↔
      ∃ row ∈ s.rows, row.deliveryId = deliveryId ∧ row.state = .held := by
  constructor
  · rintro ⟨stage, should, is, held⟩
    rw [← truthful.rows] at is
    obtain ⟨row, member, isKey, told⟩ := of_tale is
    subst told
    exact ⟨row, member, (Prod.mk.inj isKey).1, held⟩
  · rintro ⟨row, member, rfl, held⟩
    refine ⟨row.stage, row.told, ?_, held⟩
    rw [← truthful.rows]
    exact tale_of_mem inv.keyed member

theorem after_putBack (key : Key) (told : Option Truth) (cause : Cause) (deliveryId : String) :
    after key told (.putBack cause deliveryId) = told := by
  cases told <;> rfl

/-- A delivery is put back. -/
theorem Truthful.putBack_iff (inv : Inv s) (truthful : Truthful s) {cause : Cause} {deliveryId : String}
    (rows : next.rows = s.rows) (log : next.log = s.log ++ [.putBack cause deliveryId]) :
    Truthful next ↔ ∀ row ∈ s.rows, row.deliveryId = deliveryId → row.state = .held → cause = .byIds := by
  have last {fact : Fact} := @explicit_concat s.log fact truthful.explicit
  have heldNow := held_iff inv truthful deliveryId
  constructor
  · intro now row member own held
    have explicit := now.explicit
    rw [log] at explicit
    exact last.mp explicit cause deliveryId rfl (heldNow.mpr ⟨row, member, own, held⟩)
  · intro each
    refine ⟨rows ▸ truthful.unique, fun key => ?_, ?_⟩
    · rw [rows, log, truth_concat, ← truthful.rows key, after_putBack]
    · rw [log]
      refine last.mpr ?_
      intro cause' deliveryId' is held
      cases is
      obtain ⟨row, member, own, isHeld⟩ := heldNow.mp held
      exact each row member own isHeld

/-- One step: the table goes on telling the truth exactly when the step is honest. -/
theorem truthful_step_iff {turn : Nat × Action} (inv : Inv s) (truthful : Truthful s)
    (stepped : step s turn = some next) : Truthful next ↔ Honest s turn := by
  have quiet (rows : next.rows = s.rows) (log : next.log = s.log) : Truthful next ↔ True :=
    iff_of_true ((Truthful.congr rows log).mpr truthful) trivial
  obtain ⟨program, action⟩ := turn
  unfold step at stepped
  unfold Honest
  dsimp only at stepped ⊢
  split at stepped
  next deliveryId now isTask =>
    rw [isTask]
    cases stepped
    have rows : (s.received deliveryId now).rows = s.rows := by
      unfold World.received
      split <;> rfl
    have log : (s.received deliveryId now).log = s.log := by
      unfold World.received
      split <;> rfl
    exact quiet rows log
  next result isTask =>
    rw [isTask]
    split at stepped
    · cases stepped
      cases result <;> exact quiet rfl rfl
    · cases stepped
  next isTask =>
    rw [isTask]
    cases stepped
    exact quiet rfl rfl
  next isTask =>
    rw [isTask]
    cases stepped
    exact iff_of_true (truthful.record inv program _ _) trivial
  next isTask =>
    rw [isTask]
    split at stepped
    · cases stepped
      exact quiet rfl rfl
    · cases stepped
  next enrichment isTask =>
    rw [isTask]
    cases stepped
    rw [Truthful.map_iff inv truthful _ (.projected enrichment.deliveryId enrichment.missing.isSome) rfl rfl
      (identity_resolve _) (fun _ => rfl) fun _ _ is => (nomatch is)]
    constructor
    · exact fun all isMissing row member => (told_resolve_iff row _ _).mp (all row member) isMissing
    · exact fun all row member => (told_resolve_iff row _ _).mpr fun isMissing => all isMissing row member
  next isTask =>
    rw [isTask]
    split at stepped
    · cases stepped
      exact quiet rfl rfl
    · cases stepped
      exact quiet rfl rfl
  next cause targets isTask =>
    rw [isTask]
    cases stepped
    rw [Truthful.map_iff inv truthful _ (.marked cause (targets.map DeadLetterRow.key)) rfl rfl
      (identity_mark _) (fun _ => rfl) fun _ _ is => (nomatch is)]
    have same {row : DeadLetterRow} (member : row ∈ s.rows) :=
      inv.targets_iff (inv.targets program _ isTask) member
    constructor
    · exact fun all row member => (told_mark_iff row cause (same member)).mp (all row member)
    · exact fun all row member => (told_mark_iff row cause (same member)).mpr (all row member)
  next succeeds cause row rest isTask =>
    rw [isTask]
    cases stepped
    cases succeeds with
    | true => exact Truthful.putBack_iff inv truthful rfl rfl
    | false => exact quiet rfl rfl
  next succeeds cause isTask =>
    rw [isTask]
    cases stepped
    cases succeeds <;> exact quiet rfl rfl
  next succeeds cause target rest isTask =>
    rw [isTask]
    cases stepped
    have rows : (s.reverted program cause target rest succeeds).rows = s.rows.map fun row =>
        if succeeds = true ∧ row.deadLetterId = target.deadLetterId ∧ row.state = .reprocessing then
          { row with state := .pending } else row := by
      cases succeeds with
      | true =>
        simp only [World.reverted, if_true, revertReprocessing, true_and]
      | false =>
        simp only [World.reverted, Bool.false_eq_true, if_false, false_and, List.map_id']
    rw [Truthful.map_iff inv truthful _ (.unpublished target.key succeeds) rows rfl
      (fun row => by split <;> rfl) (fun _ => rfl) fun _ _ is => (nomatch is)]
    have same {row : DeadLetterRow} (member : row ∈ s.rows) :=
      inv.same_iff (inv.targets program _ isTask target List.mem_cons_self) member
    constructor
    · exact fun all row member => (told_revert_iff row succeeds (same member)).mp (all row member)
    · exact fun all row member => (told_revert_iff row succeeds (same member)).mpr (all row member)
  next isTask =>
    rw [isTask]
    cases stepped
    exact quiet rfl rfl
  next now published queued event rest isTask =>
    rw [isTask]
    cases stepped
    have relayed {next : World} (rows : next.rows = s.rows)
        (log : next.log = s.log ++ [.putBack .relay event.deliveryId]) :
        Truthful next ↔ ∀ row ∈ s.rows, row.deliveryId = event.deliveryId → row.state ≠ .held := by
      rw [Truthful.putBack_iff inv truthful rows log]
      constructor
      · intro all row member own held
        cases all row member own held
      · exact fun all row member own held => absurd held (all row member own)
    cases published with
    | false => exact quiet rfl rfl
    | true => cases queued <;> exact relayed rfl rfl
  next now published queued isTask =>
    rw [isTask]
    cases stepped
    cases published <;> exact quiet rfl rfl
  next isTask =>
    rw [isTask]
    cases stepped
    exact quiet rfl rfl
  next => cases stepped

theorem truthful_start : Truthful start where
  unique := List.nodup_nil
  rows _ := rfl
  explicit _ _ _ _ is := absurd is (by simp [start])

/-- The table tells the truth in all of a run exactly when the steps of the run are honest. -/
theorem truthful_iff (turns : List (Nat × Action)) :
    (∀ world ∈ queue.visited turns start, Truthful world) ↔
      ∀ turn ∈ queue.taken turns start, Honest turn.1 turn.2 := by
  have kept : ∀ (s : World) (turn : Nat × Action) (next : World), Inv s → queue.step s turn = some next →
      Inv next := fun _ _ _ inv stepped => Inv.step inv stepped
  have exactly : ∀ (s : World) (turn : Nat × Action) (next : World), Inv s → Truthful s →
      queue.step s turn = some next → (Truthful next ↔ Honest s turn) :=
    fun _ _ _ inv truthful stepped => truthful_step_iff inv truthful stepped
  exact Automaton.visited_iff_taken kept exactly inv_start truthful_start

end Steps

/-! ### A row that its own partial document closes -/

/-- A partial enrichment is recorded, and then its own document is projected. -/
def closedByItself : List (Nat × Action) :=
  [.receive "d" 0, .enrich "d" (some 42) 5 (.partly "reviews:http"), .record 1, .project ⟨"d", some "reviews:http"⟩,
    .resolve].map fun action => (0, action)

theorem told_closedByItself : (queue.visited closedByItself start).getLast?.map
    (fun world => (tale world.rows ("d", .enrich), truth world.log ("d", .enrich))) =
      some (some ⟨.incomplete "reviews:http", .resolved, 0⟩, some ⟨.incomplete "reviews:http", .pending, 0⟩) := by
  decide

/-- The row of a missing component is closed though the component is still missing. -/
theorem not_truthful : ¬ ∀ turns, ∀ world ∈ queue.visited turns start, Truthful world := by
  intro all
  obtain ⟨world, isLast, isTold⟩ := Option.map_eq_some_iff.mp told_closedByItself
  have tells := (all closedByItself world (List.mem_of_getLast? isLast)).rows ("d", .enrich)
  obtain ⟨tells_, should⟩ := Prod.mk.inj isTold
  change tale world.rows ("d", .enrich) = truth world.log ("d", .enrich) at tells
  rw [tells_, should] at tells
  exact absurd tells (by decide)

end PrSearch.DeadLetter
