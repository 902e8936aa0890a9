import PrSearch.Lib.GuardedUpdate
import PrSearch.Lib.Json

/-! # Projecting sequence numbers into documents

A sequence number is written into one document at a time. The document is read first, which gives the
reason when nothing is written; a script then looks at the document again and writes. The same rules
are coded twice, over what the reader makes of the fields and over the fields themselves.
-/
namespace PrSearch.Index.SequenceProjection

open Lib

inductive SequenceDocKind
  | commit
  | pullRequest
  deriving DecidableEq, Repr

structure SequenceProjectionItem where
  kind : SequenceDocKind
  docId : String
  repositoryId : Int
  baseBranch : String
  seqEpoch : Int
  sequenceSpace : String
  expectedSha : String
  mergeSeq : Int
  /-- A commit document of another branch is taken over. -/
  reclaim : Bool := false

/-- The fields of a stored document; one that is not there is `null` to its readers. -/
structure StoredSource where
  repositoryId : Json := .null
  baseBranch : Json := .null
  commitSha : Json := .null
  mergeCommitSha : Json := .null
  mergeSeq : Json := .null
  seqEpoch : Json := .null
  sequenceSpace : Json := .null

/-- `shaFieldOf` -/
def shaField : SequenceDocKind → StoredSource → Json
  | .commit, source => source.commitSha
  | .pullRequest, source => source.mergeCommitSha

/-! ### The reader -/

structure ObservedSequenceFields where
  repositoryId : Option Int
  baseBranch : Option String
  sha : Option String
  mergeSeq : Option Int
  seqEpoch : Option Int
  sequenceSpace : Option String

/-- A string that is not empty. -/
def asString : Json → Option String
  | .string value => if value = "" then none else some value
  | _ => none

inductive GuardReason
  | repository
  | sha
  | branch
  deriving DecidableEq, Repr

inductive Classification
  | write
  | noop
  | documentMissing
  | guardRejected (reason : GuardReason)
  | staleEpoch
  deriving DecidableEq, Repr

variable {field : Json}

section Gate

-- `toLowerCase`, of both languages
variable (lower : String → String)

def observe (kind : SequenceDocKind) (source : StoredSource) : ObservedSequenceFields where
  repositoryId := source.repositoryId.asNumber
  baseBranch := asString source.baseBranch
  sha := (asString (shaField kind source)).map lower
  mergeSeq := source.mergeSeq.asNumber
  seqEpoch := source.seqEpoch.asNumber
  sequenceSpace := asString source.sequenceSpace

/-- The base branch of a document lets the item write. -/
def branchAdmits (item : SequenceProjectionItem) (known sameBranch : Bool) : Bool :=
  match item.kind with
  | .pullRequest => sameBranch
  | .commit => !known || sameBranch || item.reclaim

def classifySequenceTarget (item : SequenceProjectionItem) :
    Option ObservedSequenceFields → Classification
  | none => .documentMissing
  | some observed =>
      if observed.repositoryId ≠ some item.repositoryId then .guardRejected .repository
      else if observed.sha ≠ some (lower item.expectedSha) then .guardRejected .sha
      else
        let sameBranch := decide (observed.baseBranch = some item.baseBranch)
        if !branchAdmits item observed.baseBranch.isSome sameBranch then .guardRejected .branch
        else if sameBranch && observed.seqEpoch.any (item.seqEpoch < ·) then .staleEpoch
        else if sameBranch ∧ observed.mergeSeq = some item.mergeSeq ∧
            observed.seqEpoch = some item.seqEpoch ∧
              observed.sequenceSpace = some item.sequenceSpace then .noop
        else .write

/-! ### The script -/

inductive ScriptResult
  | noop
  | written (source : StoredSource)
  /-- The script throws, and the document stays as it is. -/
  | failed

/-- What the script leaves of the document. -/
def StoredSource.project (source : StoredSource) (item : SequenceProjectionItem) : StoredSource :=
  { source with
    mergeSeq := .number item.mergeSeq
    seqEpoch := .number item.seqEpoch
    sequenceSpace := .string item.sequenceSpace
    baseBranch := .string item.baseBranch }

/-- `epoch != null && epoch > params.epoch`, or an exception if the epoch is no number -/
def epochPassed (epoch : Json) (limit : Int) : Option Bool :=
  match epoch with
  | .null => some false
  | .number value => some (limit < value)
  | _ => none

/-- `SEQUENCE_PROJECTION_SCRIPT` -/
def sequenceProjectionScript (item : SequenceProjectionItem) (source : StoredSource) :
    ScriptResult :=
  match shaField item.kind source with
  | .null => .noop
  | .string sha =>
      if lower sha ≠ lower item.expectedSha then .noop
      else if source.repositoryId ≠ .number item.repositoryId then .noop
      else
        let sameBranch := decide (source.baseBranch = .string item.baseBranch)
        if !branchAdmits item (source.baseBranch ≠ .null) sameBranch then .noop
        else
          match if sameBranch then epochPassed source.seqEpoch item.seqEpoch else some false with
          | none => .failed
          | some true => .noop
          | some false =>
              if sameBranch ∧ source.mergeSeq = .number item.mergeSeq ∧
                  source.seqEpoch = .number item.seqEpoch ∧
                    source.sequenceSpace = .string item.sequenceSpace then .noop
              else .written (source.project item)
  | _ => .failed

/-! ### The two agree -/

variable {lower} {item : SequenceProjectionItem} {source written : StoredSource}

/-- What both look at, in the terms of the stored fields. -/
structure Admitted (lower : String → String) (item : SequenceProjectionItem)
    (source : StoredSource) : Prop where
  sha : ∃ sha, shaField item.kind source = .string sha ∧ lower sha = lower item.expectedSha
  repository : source.repositoryId = .number item.repositoryId
  branch : branchAdmits item (source.baseBranch ≠ .null)
    (source.baseBranch = .string item.baseBranch) = true
  epoch : source.baseBranch = .string item.baseBranch →
    epochPassed source.seqEpoch item.seqEpoch = some false
  fresh : ¬ (source.baseBranch = .string item.baseBranch ∧ source.mergeSeq = .number item.mergeSeq ∧
    source.seqEpoch = .number item.seqEpoch ∧ source.sequenceSpace = .string item.sequenceSpace)

/-- The script writes what is admitted, and nothing else. -/
theorem script_written_iff :
    sequenceProjectionScript lower item source = .written written ↔
      Admitted lower item source ∧ written = source.project item := by
  constructor
  · intro ran
    unfold sequenceProjectionScript at ran
    split at ran
    next => cases ran
    next sha is =>
      split at ran
      next => cases ran
      next same =>
        split at ran
        next => cases ran
        next repository =>
          dsimp only at ran
          split at ran
          next => cases ran
          next branch =>
            split at ran
            next => cases ran
            next => cases ran
            next passed =>
              split at ran
              next => cases ran
              next fresh =>
                cases ran
                refine ⟨⟨⟨sha, is, not_not.mp same⟩, not_not.mp repository, ?_, ?_, ?_⟩, rfl⟩
                · simpa using branch
                · intro inSpace
                  simpa [inSpace] using passed
                · simpa using fresh
    next => cases ran
  · rintro ⟨⟨⟨sha, is, same⟩, repository, branch, epoch, fresh⟩, rfl⟩
    have passed : (if source.baseBranch = .string item.baseBranch then
        epochPassed source.seqEpoch item.seqEpoch else some false) = some false := by
      split
      next inSpace => exact epoch inSpace
      next => rfl
    unfold sequenceProjectionScript
    simp only [is, same, ne_eq, not_true_eq_false, if_false, repository, branch, Bool.not_true,
      Bool.false_eq_true, decide_eq_true_eq]
    rw [passed, if_neg fresh]

/-- A script that writes changes the document. -/
theorem project_ne (fresh : ¬ (source.baseBranch = .string item.baseBranch ∧
    source.mergeSeq = .number item.mergeSeq ∧ source.seqEpoch = .number item.seqEpoch ∧
      source.sequenceSpace = .string item.sequenceSpace)) : source.project item ≠ source := by
  intro same
  exact fresh ⟨congrArg StoredSource.baseBranch same.symm, congrArg StoredSource.mergeSeq same.symm,
    congrArg StoredSource.seqEpoch same.symm, congrArg StoredSource.sequenceSpace same.symm⟩

/-- A text that is not there, or not empty. -/
def IsText (field : Json) : Prop := field = .null ∨ ∃ value, value ≠ "" ∧ field = .string value

/-- The texts and the epoch of a document have the types of the mapping, and no text is empty. -/
structure StoredSource.Mapped (source : StoredSource) : Prop where
  baseBranch : IsText source.baseBranch
  commitSha : IsText source.commitSha
  mergeCommitSha : IsText source.mergeCommitSha
  sequenceSpace : IsText source.sequenceSpace
  seqEpoch : source.seqEpoch = .null ∨ ∃ epoch, source.seqEpoch = .number epoch

theorem asString_eq_some (is : IsText field) {value : String} :
    asString field = some value ↔ field = .string value := by
  rcases is with rfl | ⟨text, some_, rfl⟩
  · simp [asString]
  · simp [asString, some_]

theorem asString_isSome (is : IsText field) : (asString field).isSome = decide (field ≠ .null) := by
  rcases is with rfl | ⟨text, some_, rfl⟩
  · rfl
  · simp [asString, some_]

theorem asNumber_eq_some {n : Int} : field.asNumber = some n ↔ field = .number n := by
  cases field <;> simp [Json.asNumber]

theorem isText_shaField (mapped : source.Mapped) (kind : SequenceDocKind) :
    IsText (shaField kind source) := by
  cases kind with
  | commit => exact mapped.commitSha
  | pullRequest => exact mapped.mergeCommitSha

/-- The reader takes an epoch for a passed one when the script does. -/
theorem epochPassed_of_mapped (mapped : source.Mapped) (limit : Int) :
    epochPassed source.seqEpoch limit = some false ↔
      ¬ source.seqEpoch.asNumber.any (limit < ·) = true := by
  rcases mapped.seqEpoch with is | ⟨epoch, is⟩ <;> simp [is, epochPassed, Json.asNumber]

/-- The reader goes on to write where the document is admitted. -/
theorem classify_write_iff (mapped : source.Mapped) :
    classifySequenceTarget lower item (some (observe lower item.kind source)) = .write ↔
      Admitted lower item source := by
  have sha : (observe lower item.kind source).sha = some (lower item.expectedSha) ↔
      ∃ sha, shaField item.kind source = .string sha ∧ lower sha = lower item.expectedSha := by
    simp only [observe, Option.map_eq_some_iff, asString_eq_some (isText_shaField mapped item.kind)]
  have branch : (observe lower item.kind source).baseBranch = some item.baseBranch ↔
      source.baseBranch = .string item.baseBranch := asString_eq_some mapped.baseBranch
  have known : (observe lower item.kind source).baseBranch.isSome =
      decide (source.baseBranch ≠ .null) := asString_isSome mapped.baseBranch
  have repository : (observe lower item.kind source).repositoryId = some item.repositoryId ↔
      source.repositoryId = .number item.repositoryId := asNumber_eq_some
  have number : (observe lower item.kind source).mergeSeq = some item.mergeSeq ↔
      source.mergeSeq = .number item.mergeSeq := asNumber_eq_some
  have epoch : (observe lower item.kind source).seqEpoch = some item.seqEpoch ↔
      source.seqEpoch = .number item.seqEpoch := asNumber_eq_some
  have space : (observe lower item.kind source).sequenceSpace = some item.sequenceSpace ↔
      source.sequenceSpace = .string item.sequenceSpace := asString_eq_some mapped.sequenceSpace
  have passed := epochPassed_of_mapped mapped item.seqEpoch
  simp only [classifySequenceTarget, ne_eq, repository, branch, known, number, epoch, space]
  constructor
  · intro writes
    split at writes
    next => cases writes
    next inRepository =>
      split at writes
      next => cases writes
      next named =>
        split at writes
        next => cases writes
        next admitted =>
          split at writes
          next => cases writes
          next current =>
            split at writes
            next => cases writes
            next fresh =>
              refine ⟨sha.mp (not_not.mp named), not_not.mp inRepository, by simpa using admitted,
                ?_, ?_⟩
              · intro inSpace
                refine passed.mpr fun later => current ?_
                simpa [inSpace, observe] using later
              · simpa using fresh
  · rintro ⟨named, inRepository, admitted, current, fresh⟩
    have notPassed : ¬ (decide (source.baseBranch = .string item.baseBranch) &&
        (observe lower item.kind source).seqEpoch.any (item.seqEpoch < ·)) = true := by
      intro later
      obtain ⟨inSpace, later⟩ := Bool.and_eq_true_iff.mp later
      exact passed.mp (current (of_decide_eq_true inSpace)) later
    rw [if_neg (not_not.mpr inRepository), if_neg (not_not.mpr (sha.mpr named)), if_neg (by simpa using admitted),
      if_neg notPassed, if_neg (by simpa using fresh)]

/-! ### Many items, one document -/

inductive SequenceDocOutcomeKind
  | updated
  | noop
  | documentMissing
  | guardRejected (reason : GuardReason)
  | staleEpoch
  | transient
  deriving DecidableEq, Repr

/-- The conclusion of the reading, unless it goes on to write. -/
def outcomeOf : Classification → Option SequenceDocOutcomeKind
  | .write => none
  | .noop => some .noop
  | .documentMissing => some .documentMissing
  | .guardRejected reason => some (.guardRejected reason)
  | .staleEpoch => some .staleEpoch

variable (lower) in
/-- `projectIntoIndex`, one item: an update that the script ends as `noop` has been overtaken. -/
def sequenceProjection :
    GuardedUpdate StoredSource SequenceProjectionItem SequenceDocOutcomeKind where
  read item source :=
    outcomeOf (classifySequenceTarget lower item (some (observe lower item.kind source)))
  update item source :=
    match sequenceProjectionScript lower item source with
    | .written written => some written
    | _ => none
  settle wrote := if wrote then .updated else .transient

theorem update_iff : (sequenceProjection lower).update item source = some written ↔
    Admitted lower item source ∧ written = source.project item := by
  rw [← script_written_iff]
  cases ran : sequenceProjectionScript lower item source <;> simp [sequenceProjection, ran]

/-- A sequence space: it numbers the commits of one branch, anew in each epoch. -/
structure SequenceSpace where
  repositoryId : Int
  baseBranch : String
  sequenceSpace : String
  mergeSeq : Int → String → Int

/-- What an item of a space is told apart by. -/
structure SpaceItem where
  sha : String
  epoch : Int
  reclaim : Bool

namespace SequenceSpace

variable (space : SequenceSpace)

/-- The item that carries the space's number of a commit. -/
def itemFor (lower : String → String) (kind : SequenceDocKind) (docId : String) (work : SpaceItem) :
    SequenceProjectionItem where
  kind := kind
  docId := docId
  repositoryId := space.repositoryId
  baseBranch := space.baseBranch
  seqEpoch := work.epoch
  sequenceSpace := space.sequenceSpace
  expectedSha := work.sha
  mergeSeq := space.mergeSeq work.epoch (lower work.sha)
  reclaim := work.reclaim

/-- The document belongs to the branch of the space. -/
def Owns (source : StoredSource) : Prop := source.baseBranch = .string space.baseBranch

/-- The document carries the number that the space gives its commit. -/
def Numbered (lower : String → String) (kind : SequenceDocKind) (source : StoredSource) : Prop :=
  ∃ sha epoch, shaField kind source = .string sha ∧ source.seqEpoch = .number epoch ∧
    source.mergeSeq = .number (space.mergeSeq epoch (lower sha)) ∧ space.Owns source

/-- No item of the space may write the document: it is of another repository, or of another branch
and not to be taken over. -/
def Foreign (kind : SequenceDocKind) (reclaims : Prop) (source : StoredSource) : Prop :=
  source.repositoryId ≠ .number space.repositoryId ∨
    ¬ space.Owns source ∧ (kind = .pullRequest ∨ source.baseBranch ≠ .null ∧ ¬ reclaims)

/-- From the earlier to the later document: it stays with the space, its epoch does not decrease, and
the number that the space gave does not change within the epoch. -/
structure Advances (lower : String → String) (kind : SequenceDocKind)
    (earlier later : StoredSource) : Prop where
  sha : shaField kind later = shaField kind earlier
  owns : space.Owns earlier → space.Owns later
  epoch : space.Owns earlier → ∀ epoch, earlier.seqEpoch = .number epoch →
    ∃ epoch', epoch ≤ epoch' ∧ later.seqEpoch = .number epoch'
  numbered : space.Numbered lower kind earlier → space.Numbered lower kind later

variable {space} {kind : SequenceDocKind} {docId : String} {work : SpaceItem}

theorem Advances.refl (source : StoredSource) : space.Advances lower kind source source where
  sha := rfl
  owns := id
  epoch _ epoch is := ⟨epoch, Int.le_refl epoch, is⟩
  numbered := id

theorem Advances.trans {a b c : StoredSource} (first : space.Advances lower kind a b)
    (second : space.Advances lower kind b c) : space.Advances lower kind a c where
  sha := second.sha.trans first.sha
  owns := second.owns ∘ first.owns
  epoch owned epoch is := by
    obtain ⟨middle, passed, is'⟩ := first.epoch owned epoch is
    obtain ⟨last, passed', is''⟩ := second.epoch (first.owns owned) middle is'
    exact ⟨last, Int.le_trans passed passed', is''⟩
  numbered := second.numbered ∘ first.numbered

/-- A write gives the document the number of the space. -/
theorem numbered_of_update
    (changed : (sequenceProjection lower).update (space.itemFor lower kind docId work) source =
      some written) : space.Numbered lower kind written := by
  obtain ⟨admitted, rfl⟩ := update_iff.mp changed
  obtain ⟨sha, is, same⟩ := admitted.sha
  refine ⟨sha, work.epoch, ?_, rfl, ?_, rfl⟩
  · cases kind <;> exact is
  · change Json.number (space.mergeSeq work.epoch (lower work.sha)) = _
    rw [same]
    rfl

/-- A write advances the document. -/
theorem advances_of_update
    (changed : (sequenceProjection lower).update (space.itemFor lower kind docId work) source =
      some written) : space.Advances lower kind source written := by
  have numbered := numbered_of_update changed
  obtain ⟨admitted, rfl⟩ := update_iff.mp changed
  refine ⟨by cases kind <;> rfl, fun _ => rfl, ?_, fun _ => numbered⟩
  intro owned epoch is
  -- the guard has let this epoch pass, since the document is in the space
  have passed := admitted.epoch owned
  rw [is, epochPassed, Option.some.injEq, decide_eq_false_iff_not, Int.not_lt] at passed
  exact ⟨work.epoch, passed, rfl⟩

/-- The document of another repository, or of another branch, is not written. -/
theorem not_update_foreign {reclaims : Prop} (asked : work.reclaim = true → reclaims)
    (foreign : space.Foreign kind reclaims source) :
    ¬ (sequenceProjection lower).update (space.itemFor lower kind docId work) source =
      some written := by
  intro changed
  obtain ⟨admitted, -⟩ := update_iff.mp changed
  rcases foreign with elsewhere | ⟨outside, closed⟩
  · exact elsewhere admitted.repository
  · have branch : branchAdmits (space.itemFor lower kind docId work) (source.baseBranch ≠ .null) false =
        true := by
      have notOwned : decide (source.baseBranch = .string space.baseBranch) = false :=
        decide_eq_false outside
      rw [← notOwned]
      exact admitted.branch
    rcases closed with rfl | ⟨known, kept⟩
    · simp [branchAdmits, itemFor] at branch
    · cases kind with
      | commit =>
        simp only [branchAdmits, itemFor, ne_eq, known, not_false_eq_true, decide_true, Bool.not_true,
          Bool.or_false, Bool.false_or] at branch
        exact kept (asked branch)
      | pullRequest => simp [branchAdmits, itemFor] at branch

/-- Within an epoch the number that the space gave does not change. -/
theorem Advances.mergeSeq_eq {earlier later : StoredSource}
    (advances : space.Advances lower kind earlier later)
    (given : space.Numbered lower kind earlier) (same : later.seqEpoch = earlier.seqEpoch) :
    later.mergeSeq = earlier.mergeSeq := by
  obtain ⟨sha', epoch', is', at_', number', -⟩ := advances.numbered given
  obtain ⟨sha, epoch, is, at_, number, -⟩ := given
  have shas : sha' = sha := by simpa [is, is'] using advances.sha
  have epochs : epoch' = epoch := by simpa [at_, at_'] using same
  rw [number, number', shas, epochs]

end SequenceSpace

end Gate

/-- The reader goes on to write exactly when the script would change the document, for documents of
the mapping whose texts are not empty. For any interleaving of items of one space on one document,
one of another repository or branch is not written unless it is taken over; once the document is in
the space its epoch does not decrease, and the number written within an epoch does not change. -/
theorem sequenceProjection_gate (lower : String → String) :
    (∀ (item : SequenceProjectionItem) (source : StoredSource), source.Mapped →
      (classifySequenceTarget lower item (some (observe lower item.kind source)) = .write ↔
        ∃ written, sequenceProjectionScript lower item source = .written written ∧
          written ≠ source)) ∧
    ∀ (space : SequenceSpace) (kind : SequenceDocKind) (docId : String) (W : Type) [DecidableEq W]
      (work : W → SpaceItem) (source : StoredSource) (actions : List W),
      let items := fun w => space.itemFor lower kind docId (work w)
      let projection := (sequenceProjection lower).automaton items
      let start := GuardedUpdate.start source
      (space.Foreign kind (∃ w, (work w).reclaim = true) source →
        ∀ state ∈ projection.visited actions start, state.document = source) ∧
      ((projection.visited actions start).Pairwise fun earlier later =>
        space.Owns earlier.document →
          (∀ epoch, earlier.document.seqEpoch = .number epoch →
            ∃ epoch', epoch ≤ epoch' ∧ later.document.seqEpoch = .number epoch') ∧
          (space.Numbered lower kind earlier.document →
            later.document.seqEpoch = earlier.document.seqEpoch →
              later.document.mergeSeq = earlier.document.mergeSeq)) ∧
      ∀ turn ∈ projection.taken actions start, ∀ written,
        (sequenceProjection lower).Writes items turn.1 turn.2 written →
          space.Numbered lower kind written := by
  refine ⟨fun item source mapped => ?_, fun space kind docId W _ work source actions => ?_⟩
  · rw [classify_write_iff mapped]
    constructor
    · exact fun admitted =>
        ⟨_, script_written_iff.mpr ⟨admitted, rfl⟩, project_ne admitted.fresh⟩
    · rintro ⟨written, ran, -⟩
      exact (script_written_iff.mp ran).1
  · refine ⟨fun foreign => ?_, ?_, ?_⟩
    · refine GuardedUpdate.visited_of_no_update ?_ actions _ rfl
      exact fun w _ => SequenceSpace.not_update_foreign (fun asked => ⟨w, asked⟩) foreign
    · have update : ∀ w earlier later, (sequenceProjection lower).update
          (space.itemFor lower kind docId (work w)) earlier = some later →
            space.Advances lower kind earlier later :=
        fun _ _ _ => SequenceSpace.advances_of_update
      have advances := GuardedUpdate.pairwise_of_update SequenceSpace.Advances.refl
        (fun _ _ _ => SequenceSpace.Advances.trans) update actions (GuardedUpdate.start source)
      exact advances.imp fun along owned => ⟨along.epoch owned, along.mergeSeq_eq⟩
    · exact fun _ _ _ writes => SequenceSpace.numbered_of_update writes.2

/-- A commit document of the branch `main`, with the number 3 of the epoch 1. -/
def commitSource : StoredSource where
  repositoryId := .number 7
  baseBranch := .string "main"
  commitSha := .string "ab12"
  mergeSeq := .number 3
  seqEpoch := .number 1
  sequenceSpace := .string "7:main"

/-- The item that brings the number 4 of the epoch 2 to the document is let through by both. -/
theorem sequenceProjection_gate_next :
    classifySequenceTarget id ⟨.commit, "7_ab12", 7, "main", 2, "7:main", "ab12", 4, false⟩
        (some (observe id .commit commitSource)) = .write ↔
      ∃ written, sequenceProjectionScript id
          ⟨.commit, "7_ab12", 7, "main", 2, "7:main", "ab12", 4, false⟩ commitSource =
            .written written ∧ written ≠ commitSource :=
  (sequenceProjection_gate id).1 _ commitSource
    ⟨.inr ⟨"main", by decide, rfl⟩, .inr ⟨"ab12", by decide, rfl⟩, .inl rfl,
      .inr ⟨"7:main", by decide, rfl⟩, .inr ⟨1, rfl⟩⟩

/-- A commit document of another branch is taken over, with an epoch that lies before its own. -/
theorem reclaim_writes_foreign :
    ¬ ∀ (lower : String → String) (space : SequenceSpace) (kind : SequenceDocKind) (docId : String)
      (work : Unit → SpaceItem) (source : StoredSource) (actions : List Unit),
      ((((sequenceProjection lower).automaton fun w => space.itemFor lower kind docId (work w)).visited
          actions (GuardedUpdate.start source)).Pairwise fun earlier later =>
        ∀ epoch, earlier.document.seqEpoch = .number epoch →
          ∃ epoch', epoch ≤ epoch' ∧ later.document.seqEpoch = .number epoch') ∧
      (source.baseBranch ≠ .null → source.baseBranch ≠ .string space.baseBranch →
        ∀ state ∈ ((sequenceProjection lower).automaton fun w =>
            space.itemFor lower kind docId (work w)).visited actions (GuardedUpdate.start source),
          state.document = source) := by
  intro all
  obtain ⟨epochs, -⟩ := all id ⟨7, "release", "7:release", fun _ _ => 9⟩ .commit "7_ab12"
    (fun _ => ⟨"ab12", 0, true⟩) commitSource [(), ()]
  have last := (List.pairwise_cons.mp epochs).1 _ (List.mem_cons_of_mem _ List.mem_cons_self) 1 rfl
  obtain ⟨epoch', passed, is⟩ := last
  have zero : epoch' = 0 := by
    have written : Json.number 0 = Json.number epoch' := is
    simpa using written.symm
  omega

end PrSearch.Index.SequenceProjection
