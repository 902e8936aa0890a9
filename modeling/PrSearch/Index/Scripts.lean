import Mathlib.Algebra.Ring.Nat
import Mathlib.Logic.Function.Basic
import PrSearch.Lib.Json

/-! # Scripts that assign fields

Two scripts of the index assign some fields of a document and leave it as it is when every value is
there already. `COMMIT_METADATA_SCRIPT` keeps what is known of a commit, and `LINK_SUMMARY_SCRIPT` the
summary of the links from a document. A document is what its fields are.
-/
namespace PrSearch.Index.Scripts

open Lib (Json)

/-- The fields of an object. -/
abbrev Fields := String → Option Json

/-! ### Assignments -/

/-- Assigns a field that has another value, and notes the change. -/
def assign (state : Fields × Bool) (entry : String × Json) : Fields × Bool :=
  if state.1 entry.1 = some entry.2 then state
  else (Function.update state.1 entry.1 (some entry.2), true)

/-- The loop of a script through its entries. -/
def assignAll (entries : List (String × Json)) (fields : Fields) : Fields × Bool :=
  entries.foldl assign (fields, false)

variable {entry : String × Json} {document : Option Fields} {counted : Option Int}

section Assign

variable {entries : List (String × Json)} {fields : Fields} {state : Fields × Bool} {key : String}

theorem assign_other (other : key ≠ entry.1) : (assign state entry).1 key = state.1 key := by
  unfold assign
  split
  · rfl
  · exact Function.update_of_ne other ..

theorem assign_self (state : Fields × Bool) (entry : String × Json) :
    (assign state entry).1 entry.1 = some entry.2 := by
  unfold assign
  split
  next same => exact same
  next => exact Function.update_self ..

theorem foldl_assign_other (absent : key ∉ entries.map Prod.fst) :
    (entries.foldl assign state).1 key = state.1 key := by
  induction entries generalizing state with
  | nil => rfl
  | cons entry entries ih =>
    simp only [List.map_cons, List.mem_cons, not_or] at absent
    rw [List.foldl_cons, ih absent.2, assign_other absent.1]

/-- The fields that are not assigned keep their values. -/
theorem assignAll_other (absent : key ∉ entries.map Prod.fst) :
    (assignAll entries fields).1 key = fields key := foldl_assign_other absent

/-- Every entry has its value. -/
def Agrees (entries : List (String × Json)) (fields : Fields) : Prop :=
  ∀ entry ∈ entries, fields entry.1 = some entry.2

theorem foldl_assign_agrees (distinct : (entries.map Prod.fst).Nodup) :
    Agrees entries (entries.foldl assign state).1 := by
  induction entries generalizing state with
  | nil => exact fun _ never => by cases never
  | cons entry entries ih =>
    obtain ⟨absent, distinct⟩ := List.nodup_cons.mp distinct
    intro other inside
    rcases List.mem_cons.mp inside with rfl | later
    · rw [List.foldl_cons, foldl_assign_other absent, assign_self]
    · exact ih distinct other later

/-- Assigned fields have their values. -/
theorem assignAll_agrees (distinct : (entries.map Prod.fst).Nodup) (fields : Fields) :
    Agrees entries (assignAll entries fields).1 := foldl_assign_agrees distinct

/-- Nothing is assigned where the values are there. -/
theorem assignAll_of_agrees (agrees : Agrees entries fields) :
    assignAll entries fields = (fields, false) := by
  unfold assignAll
  induction entries with
  | nil => rfl
  | cons entry entries ih =>
    have first : assign (fields, false) entry = (fields, false) := if_pos (agrees entry List.mem_cons_self)
    rw [List.foldl_cons, first]
    exact ih fun other inside => agrees other (List.mem_cons_of_mem _ inside)

theorem foldl_assign_unchanged (unchanged : (entries.foldl assign state).2 = false) :
    (entries.foldl assign state).1 = state.1 ∧ state.2 = false := by
  induction entries generalizing state with
  | nil => exact ⟨rfl, unchanged⟩
  | cons entry entries ih =>
    rw [List.foldl_cons] at unchanged ⊢
    obtain ⟨same, before⟩ := ih unchanged
    rw [same]
    unfold assign at before ⊢
    split at before
    next is => exact ⟨by rw [if_pos is], before⟩
    next => cases before

/-- Without a change the fields are the same. -/
theorem assignAll_unchanged (unchanged : (assignAll entries fields).2 = false) :
    (assignAll entries fields).1 = fields := (foldl_assign_unchanged unchanged).1

theorem assign_update (other : key ≠ entry.1) (value : Option Json) :
    assign (Function.update state.1 key value, state.2) entry =
      (Function.update (assign state entry).1 key value, (assign state entry).2) := by
  simp only [assign, Function.update_of_ne (Ne.symm other)]
  split
  · rfl
  · rw [Function.update_comm (Ne.symm other)]

/-- A field that is not assigned may be written before or after. -/
theorem assignAll_update (absent : key ∉ entries.map Prod.fst) (value : Option Json) :
    assignAll entries (Function.update fields key value) =
      (Function.update (assignAll entries fields).1 key value, (assignAll entries fields).2) := by
  have fold : ∀ state : Fields × Bool,
      entries.foldl assign (Function.update state.1 key value, state.2) =
        (Function.update (entries.foldl assign state).1 key value, (entries.foldl assign state).2) := by
    induction entries with
    | nil => exact fun _ => rfl
    | cons entry entries ih =>
      intro state
      simp only [List.map_cons, List.mem_cons, not_or] at absent
      rw [List.foldl_cons, List.foldl_cons, assign_update absent.1]
      exact ih absent.2 (assign state entry)
  exact fold (fields, false)

end Assign

/-! ### The metadata of a commit -/

structure CommitMetadataFields where
  parentShas : List String
  message : String
  author : Option String
  committer : Option String
  authoredAt : String
  committedAt : String
  changedPaths : List String
  changedPathsTruncated : Bool
  patchId : Option String
  patchIdUnavailable : Option String
  role : Option String

def orNull (value : Option String) : Json := value.elim .null .string

def CommitMetadataFields.meta (fields : CommitMetadataFields) : List (String × Json) :=
  [("parent_shas", .array (fields.parentShas.map .string)), ("message", .string fields.message),
    ("author", orNull fields.author), ("committer", orNull fields.committer),
    ("authored_at", .string fields.authoredAt), ("committed_at", .string fields.committedAt),
    ("changed_paths", .array (fields.changedPaths.map .string)),
    ("changed_paths_truncated", .bool fields.changedPathsTruncated)] ++
      fields.role.toList.map fun role => ("role", .string role)

/-- The body of a document that may be created, which has nothing of the patch. -/
structure CreateWith where
  body : Fields
  noPatchId : body "patch_id" = none
  noReason : body "patch_id_unavailable" = none

structure CommitMetadataUpsert where
  commitSha : String
  docId : String
  fields : CommitMetadataFields
  createWith : Option CreateWith

/-- What the script does about the patch. -/
def assignPatch (fields : CommitMetadataFields) (state : Fields × Bool) : Fields × Bool :=
  match fields.patchId with
  | some patchId =>
      let (source, changed) := assign state ("patch_id", .string patchId)
      if source "patch_id_unavailable" ≠ none then
        (Function.update source "patch_id_unavailable" none, true)
      else (source, changed)
  | none =>
      match fields.patchIdUnavailable with
      | some reason =>
          if (state.1 "patch_id").getD .null = .null then
            assign state ("patch_id_unavailable", .string reason)
          else state
      | none => state

/-- `COMMIT_METADATA_SCRIPT`: the fields, and whether they have changed. -/
def commitMetadataScript (fields : CommitMetadataFields) (source : Fields) : Fields × Bool :=
  assignPatch fields (assignAll fields.meta source)

/-- What is assigned of the patch when a document is created. -/
def createdPatch (fields : CommitMetadataFields) : List (String × Json) :=
  match fields.patchId, fields.patchIdUnavailable with
  | some patchId, _ => [("patch_id", .string patchId)]
  | none, some reason => [("patch_id_unavailable", .string reason)]
  | none, none => []

/-- The document that is created: later entries are written over earlier ones. -/
def created (input : CommitMetadataUpsert) (createWith : CreateWith) : Fields :=
  (assignAll (input.fields.meta ++ createdPatch input.fields ++
    [("doc_id", .string input.docId), ("commit_sha", .string input.commitSha)]) createWith.body).1

inductive CommitMetadataOutcome | created | updated | alreadyEqual | documentMissing
  deriving DecidableEq, Repr

def upsertCommitMetadata (input : CommitMetadataUpsert) :
    Option Fields → CommitMetadataOutcome × Option Fields
  | none =>
      match input.createWith with
      | some createWith => (.created, some (created input createWith))
      | none => (.documentMissing, none)
  | some source =>
      let (next, changed) := commitMetadataScript input.fields source
      if changed then (.updated, some next) else (.alreadyEqual, some source)

/-- The document after some upserts. -/
def afterUpserts (inputs : List CommitMetadataUpsert) (document : Option Fields) : Option Fields :=
  inputs.foldl (fun document input => (upsertCommitMetadata input document).2) document

section Metadata

variable {fields : CommitMetadataFields} {source : Fields} {input : CommitMetadataUpsert} {key : String}

/-- The fields that the script assigns in its loop. -/
def metaKeys : List String :=
  ["parent_shas", "message", "author", "committer", "authored_at", "committed_at", "changed_paths",
    "changed_paths_truncated", "role"]

theorem meta_keys (fields : CommitMetadataFields) :
    (fields.meta.map Prod.fst).Nodup ∧ ∀ key ∈ fields.meta.map Prod.fst, key ∈ metaKeys := by
  cases role : fields.role <;> simp [CommitMetadataFields.meta, metaKeys, role]

theorem not_mem_meta (other : key ∉ metaKeys) (fields : CommitMetadataFields) :
    key ∉ fields.meta.map Prod.fst := fun inside => other ((meta_keys fields).2 key inside)

/-- The identity of the patch is known. -/
def Known (source : Fields) : Prop := (source "patch_id").getD .null ≠ .null

/-- What is known is not said to be unavailable. -/
def Consistent (source : Fields) : Prop := Known source → source "patch_id_unavailable" = none

/-- The fields that an upsert may change. -/
def ownedKeys : List String := metaKeys ++ ["patch_id", "patch_id_unavailable"]

theorem assignPatch_other (patch : key ≠ "patch_id") (reason : key ≠ "patch_id_unavailable")
    (state : Fields × Bool) : (assignPatch fields state).1 key = state.1 key := by
  unfold assignPatch
  split
  · simp only
    split
    · exact (Function.update_of_ne reason ..).trans (assign_other patch)
    · exact assign_other patch
  · split
    · split
      · exact assign_other reason
      · rfl
    · rfl

/-- One case for each branch of the script. -/
theorem assignPatch_kept (fields : CommitMetadataFields) {state : Fields × Bool}
    (consistent : Consistent state.1) :
    Consistent (assignPatch fields state).1 ∧ (Known state.1 → Known (assignPatch fields state).1) := by
  unfold assignPatch Consistent Known at *
  split
  next patchId _ =>
    have assigned := assign_self state ("patch_id", .string patchId)
    simp only
    split
    · simp [Function.update_of_ne, assigned]
    next absent =>
      simp only [ne_eq, not_not] at absent
      simp [assigned, absent]
  · split
    next reason _ =>
      split
      next unknown =>
        have same : (assign state ("patch_id_unavailable", .string reason)).1 "patch_id" =
          state.1 "patch_id" := assign_other (by simp)
        simp [same, unknown]
      · exact ⟨consistent, id⟩
    · exact ⟨consistent, id⟩

theorem assignPatch_unchanged {state : Fields × Bool}
    (unchanged : (assignPatch fields state).2 = false) :
    (assignPatch fields state).1 = state.1 ∧ state.2 = false := by
  have one : ∀ entry, (assign state entry).2 = false →
      (assign state entry).1 = state.1 ∧ state.2 = false := fun entry same =>
    foldl_assign_unchanged (show ([entry].foldl assign state).2 = false from same)
  unfold assignPatch at *
  split at unchanged
  · simp only at unchanged ⊢
    split at unchanged
    · cases unchanged
    next absent =>
      rw [if_neg absent]
      exact one _ unchanged
  · split at unchanged
    · split at unchanged
      next unknown =>
        simp only [unknown, if_true]
        exact one _ unchanged
      next known =>
        rw [if_neg known]
        exact ⟨rfl, unchanged⟩
    · exact ⟨rfl, unchanged⟩

/-- The script has nothing left to do. -/
structure Settled (fields : CommitMetadataFields) (source : Fields) : Prop where
  agrees : Agrees fields.meta source
  patch : ∀ changed, assignPatch fields (source, changed) = (source, changed)

theorem Settled.script (settled : Settled fields source) :
    commitMetadataScript fields source = (source, false) := by
  rw [commitMetadataScript, assignAll_of_agrees settled.agrees, settled.patch]

/-- What decides whether the script has something to do about the patch. -/
theorem assignPatch_same (known : ∀ patchId, fields.patchId = some patchId →
      source "patch_id" = some (.string patchId) ∧ source "patch_id_unavailable" = none)
    (unknown : fields.patchId = none → ∀ reason, fields.patchIdUnavailable = some reason →
      Known source ∨ source "patch_id_unavailable" = some (.string reason)) (changed : Bool) :
    assignPatch fields (source, changed) = (source, changed) := by
  unfold assignPatch
  split
  next patchId is =>
    obtain ⟨same, absent⟩ := known patchId is
    simp [assign, same, absent]
  next is =>
    split
    next reason given =>
      rcases unknown is reason given with identity | same
      · exact if_neg identity
      · split
        · exact if_pos same
        · rfl
    · rfl

/-- The patch after the script. -/
theorem assignPatch_after {state : Fields × Bool} :
    (∀ patchId, fields.patchId = some patchId →
      (assignPatch fields state).1 "patch_id" = some (.string patchId) ∧
        (assignPatch fields state).1 "patch_id_unavailable" = none) ∧
    (fields.patchId = none → ∀ reason, fields.patchIdUnavailable = some reason →
      Known (assignPatch fields state).1 ∨
        (assignPatch fields state).1 "patch_id_unavailable" = some (.string reason)) := by
  constructor
  · intro patchId is
    have assigned := assign_self state ("patch_id", .string patchId)
    simp only [assignPatch, is]
    split
    · simp [Function.update_of_ne, assigned]
    next absent => exact ⟨assigned, not_not.mp absent⟩
  · intro is reason given
    simp only [assignPatch, is, given]
    split
    · exact .inr (assign_self state ("patch_id_unavailable", .string reason))
    next known => exact .inl known

/-- After the script there is nothing left to do. -/
theorem settled_script (fields : CommitMetadataFields) (source : Fields) :
    Settled fields (commitMetadataScript fields source).1 := by
  constructor
  · intro entry inside
    have key := (meta_keys fields).2 _ (List.mem_map_of_mem inside)
    have patch : entry.1 ≠ "patch_id" := by rintro is; simp [is, metaKeys] at key
    have reason : entry.1 ≠ "patch_id_unavailable" := by rintro is; simp [is, metaKeys] at key
    rw [commitMetadataScript, assignPatch_other patch reason]
    exact assignAll_agrees (meta_keys fields).1 source entry inside
  · exact assignPatch_same assignPatch_after.1 assignPatch_after.2

theorem created_keys (input : CommitMetadataUpsert) :
    ((input.fields.meta ++ createdPatch input.fields ++
      [("doc_id", Json.string input.docId), ("commit_sha", Json.string input.commitSha)]).map
        Prod.fst).Nodup := by
  unfold createdPatch
  cases role : input.fields.role <;> split <;> simp [CommitMetadataFields.meta, role]

/-- What no entry assigns comes from the body. -/
theorem created_other (createWith : CreateWith) (other : key ∉ metaKeys)
    (patch : key ∉ (createdPatch input.fields).map Prod.fst) (ids : key ∉ ["doc_id", "commit_sha"]) :
    created input createWith key = createWith.body key := by
  refine assignAll_other ?_
  simp only [List.map_append, List.mem_append, not_or]
  exact ⟨⟨not_mem_meta other input.fields, patch⟩, ids⟩

theorem createdPatch_keys (fields : CommitMetadataFields) :
    ∀ key ∈ (createdPatch fields).map Prod.fst, key ∈ ["patch_id", "patch_id_unavailable"] := by
  unfold createdPatch
  split <;> simp

/-- A document that is created leaves nothing to do, and does not contradict itself. -/
theorem settled_created (input : CommitMetadataUpsert) (createWith : CreateWith) :
    Settled input.fields (created input createWith) ∧ Consistent (created input createWith) := by
  have agrees := assignAll_agrees (created_keys input) createWith.body
  have all : ∀ entry ∈ input.fields.meta ++ createdPatch input.fields,
      created input createWith entry.1 = some entry.2 := fun entry inside =>
    agrees entry (List.mem_append_left _ inside)
  have identity : input.fields.patchId = none → created input createWith "patch_id" = none := by
    intro is
    rw [created_other createWith (by decide) ?_ (by decide), createWith.noPatchId]
    cases reason : input.fields.patchIdUnavailable <;> simp [createdPatch, is, reason]
  have known : ∀ patchId, input.fields.patchId = some patchId →
      created input createWith "patch_id" = some (.string patchId) ∧
        created input createWith "patch_id_unavailable" = none := by
    intro patchId is
    have only : createdPatch input.fields = [("patch_id", .string patchId)] := by rw [createdPatch, is]
    refine ⟨all ("patch_id", .string patchId) (by simp [only]), ?_⟩
    rw [created_other createWith (by decide) (by simp [only]) (by decide), createWith.noReason]
  refine ⟨⟨fun entry inside => all entry (List.mem_append_left _ inside), assignPatch_same known ?_⟩, ?_⟩
  · intro is reason given
    have only : createdPatch input.fields = [("patch_id_unavailable", .string reason)] := by
      rw [createdPatch, is, given]
    exact .inr (all ("patch_id_unavailable", .string reason) (by simp [only]))
  · intro isKnown
    cases is : input.fields.patchId with
    | some patchId => exact (known patchId is).2
    | none => exact absurd (by rw [identity is]; rfl) isKnown

/-! ### Any upserts in any order -/

/-- What one upsert does to a document that is there. -/
theorem upsert_some (input : CommitMetadataUpsert) (source : Fields) :
    (upsertCommitMetadata input (some source)).2 = some (commitMetadataScript input.fields source).1 := by
  unfold upsertCommitMetadata
  cases changed : (commitMetadataScript input.fields source).2 with
  | true => simp [changed]
  | false =>
    obtain ⟨patch, before⟩ := assignPatch_unchanged changed
    have same : (commitMetadataScript input.fields source).1 = source :=
      patch.trans (assignAll_unchanged before)
    simp [changed, same]

theorem script_kept (fields : CommitMetadataFields) (consistent : Consistent source) :
    Consistent (commitMetadataScript fields source).1 ∧
      (Known source → Known (commitMetadataScript fields source).1) := by
  have identity : (assignAll fields.meta source).1 "patch_id" = source "patch_id" :=
    assignAll_other (not_mem_meta (by decide) fields)
  have reason : (assignAll fields.meta source).1 "patch_id_unavailable" = source "patch_id_unavailable" :=
    assignAll_other (not_mem_meta (by decide) fields)
  have kept : Consistent (assignAll fields.meta source).1 := by
    simpa only [Consistent, Known, identity, reason] using consistent
  have after := assignPatch_kept fields kept
  refine ⟨after.1, fun known => after.2 ?_⟩
  simpa only [Known, identity] using known

theorem script_other (other : key ∉ ownedKeys) :
    (commitMetadataScript fields source).1 key = source key := by
  simp only [ownedKeys, List.mem_append, List.mem_cons, List.not_mem_nil, or_false, not_or] at other
  rw [commitMetadataScript, assignPatch_other other.2.1 other.2.2]
  exact assignAll_other (not_mem_meta other.1 fields)

/-- An upsert keeps a document consistent. -/
theorem upsert_consistent (consistent : ∀ source ∈ document, Consistent source) :
    ∀ source ∈ (upsertCommitMetadata input document).2, Consistent source := by
  intro next written
  cases document with
  | none =>
    cases creates : input.createWith with
    | none => simp [upsertCommitMetadata, creates] at written
    | some createWith =>
      simp only [upsertCommitMetadata, creates, Option.mem_some_iff] at written
      rw [← written]
      exact (settled_created input createWith).2
  | some source =>
    rw [upsert_some] at written
    cases written
    exact (script_kept input.fields (consistent source rfl)).1

theorem afterUpserts_consistent (inputs : List CommitMetadataUpsert)
    (consistent : ∀ source ∈ document, Consistent source) :
    ∀ source ∈ afterUpserts inputs document, Consistent source := by
  induction inputs generalizing document with
  | nil => exact consistent
  | cons input inputs ih => exact ih (upsert_consistent consistent)

/-- A document stays, with the identity of its patch and with what no upsert changes. -/
theorem afterUpserts_some (inputs : List CommitMetadataUpsert) (consistent : Consistent source) :
    ∃ next, afterUpserts inputs (some source) = some next ∧ (Known source → Known next) ∧
      ∀ key ∉ ownedKeys, next key = source key := by
  induction inputs generalizing source with
  | nil => exact ⟨source, rfl, id, fun _ _ => rfl⟩
  | cons input inputs ih =>
    obtain ⟨consistent, known⟩ := script_kept input.fields consistent
    obtain ⟨next, after, kept, others⟩ := ih consistent
    refine ⟨next, ?_, kept ∘ known, fun key other => (others key other).trans (script_other other)⟩
    rw [← after, ← upsert_some]
    rfl

/-- The same upsert again does nothing. -/
theorem upsert_again (input : CommitMetadataUpsert) (document : Option Fields) :
    let next := (upsertCommitMetadata input document).2
    (upsertCommitMetadata input next).2 = next ∧
      (upsertCommitMetadata input next).1 ∈ [CommitMetadataOutcome.alreadyEqual, .documentMissing] := by
  have again : ∀ source, Settled input.fields source →
      upsertCommitMetadata input (some source) = (.alreadyEqual, some source) := by
    intro source settled
    simp [upsertCommitMetadata, settled.script]
  cases document with
  | none =>
    cases creates : input.createWith with
    | none => simp [upsertCommitMetadata, creates]
    | some createWith =>
      have first : (upsertCommitMetadata input none).2 = some (created input createWith) := by
        simp [upsertCommitMetadata, creates]
      simp [first, again _ (settled_created input createWith).1]
  | some source => simp [upsert_some, again _ (settled_script input.fields source)]

/-- After any upserts a document does not contradict itself, whatever upserts follow it keeps the
identity of its patch and what no upsert changes, and the same upsert again does nothing. Nothing but
the body of the upsert that creates it says anything else of a document. -/
theorem commit_metadata_merges (document : Option Fields) :
    ((∀ source ∈ document, Consistent source) → ∀ inputs, ∀ source ∈ afterUpserts inputs document,
      Consistent source ∧ ∀ later, ∃ next, afterUpserts later (some source) = some next ∧
        (Known source → Known next ∧ next "patch_id_unavailable" = none) ∧
          ∀ key ∉ ownedKeys, next key = source key) ∧
    (∀ input, ∀ createWith ∈ input.createWith,
      ∃ next, (upsertCommitMetadata input none).2 = some next ∧
        ∀ key ∉ ownedKeys ++ ["doc_id", "commit_sha"], next key = createWith.body key) ∧
    ∀ input, let next := (upsertCommitMetadata input document).2
      (upsertCommitMetadata input next).2 = next ∧
        (upsertCommitMetadata input next).1 ∈ [CommitMetadataOutcome.alreadyEqual, .documentMissing] := by
  refine ⟨fun consistent inputs source reached => ?_, fun input createWith creates => ?_,
    fun input => upsert_again input document⟩
  · have kept := afterUpserts_consistent inputs consistent source reached
    refine ⟨kept, fun later => ?_⟩
    obtain ⟨next, after, known, others⟩ := afterUpserts_some later kept
    have further : Consistent next := by
      have start : ∀ other ∈ some source, Consistent other := by
        intro other is
        cases is
        exact kept
      exact afterUpserts_consistent later start next after
    exact ⟨next, after, fun isKnown => ⟨known isKnown, further (known isKnown)⟩, others⟩
  · refine ⟨created input createWith, by simp [upsertCommitMetadata, Option.mem_def.mp creates], ?_⟩
    intro key other
    simp only [ownedKeys, List.mem_append, not_or] at other
    exact created_other createWith other.1.1
      (fun inside => other.1.2 (createdPatch_keys input.fields key inside)) other.2

/-- The body of a document on a branch. -/
def branchBody (branch : String) : CreateWith where
  body key := if key = "branches" then some (.array [.string branch]) else none
  noPatchId := if_neg (by decide)
  noReason := if_neg (by decide)

def onBranch (branch : String) : CommitMetadataUpsert where
  commitSha := "c1"
  docId := "1:c1"
  fields := ⟨[], "fix", none, none, "", "", [], false, none, some "no_mirror", none⟩
  createWith := some (branchBody branch)

/-- The branches of a document are those of its first upsert. -/
theorem branches_not_united :
    ¬ ∀ inputs, ∀ source ∈ afterUpserts inputs none, ∀ input ∈ inputs, ∀ createWith ∈ input.createWith,
      ∀ items, createWith.body "branches" = some (.array items) →
        ∃ all, source "branches" = some (.array all) ∧ items ⊆ all := by
  intro united
  have consistent := (settled_created (onBranch "main") (branchBody "main")).2
  obtain ⟨next, after, _, others⟩ := afterUpserts_some [onBranch "dev"] consistent
  obtain ⟨all, is, dev⟩ := united [onBranch "main", onBranch "dev"] next after (onBranch "dev")
    (by simp) (branchBody "dev") rfl [.string "dev"] rfl
  have first : next "branches" = some (.array [.string "main"]) :=
    (others "branches" (by decide)).trans (created_other _ (by decide) (by decide) (by decide))
  rw [first] at is
  cases is
  exact absurd (dev List.mem_cons_self) (by simp)

end Metadata

/-! ### The summary of the links -/

/-- A document with links; `α` are its other fields. No summary and `null` are the same. -/
structure Source (α : Type) where
  linkSummary : Option Fields
  linksPending : Option Json
  rest : α

inductive RelationLeaf | hasRevert | isReverted | hasCherryPick | hasStack
  deriving DecidableEq, Repr

def RelationLeaf.key : RelationLeaf → String
  | .hasRevert => "has_revert"
  | .isReverted => "is_reverted"
  | .hasCherryPick => "has_cherry_pick"
  | .hasStack => "has_stack"

/-- `Partial<RelationSummary>` -/
abbrev Relations := RelationLeaf → Option Bool

def relationEntries (relations : Relations) : List (String × Json) :=
  [RelationLeaf.hasRevert, .isReverted, .hasCherryPick, .hasStack].filterMap fun leaf =>
    (relations leaf).map fun value => (leaf.key, .bool value)

structure LinkSummaryUpdate where
  referenceCount : Option Int
  linksPending : Option Bool
  relations : Option Relations

/-- `intValue` of a number -/
def intValue (n : Int) : Int := n.bmod (2 ^ 32)

/-- The number that is written into a leaf, if any; `none` when the cast of what is there, or of the new
number, fails. -/
def countWritten (referenceCount : Option Int) (current : Option Json) : Option (Option Int) :=
  match referenceCount with
  | none => some none
  | some next =>
      if intValue next ≠ next then none
      else
        match current with
        | none | some .null => some (some next)
        | some (.number number) => some (if intValue number = next then none else some next)
        | some _ => none

def pendingWritten (linksPending : Option Bool) (current : Option Json) : Option Json :=
  linksPending.bind fun pending => if current = some (.bool pending) then none else some (.bool pending)

def referenceKey : String := "reference_count"

def Source.leaves {α : Type} (source : Source α) : Fields := source.linkSummary.getD fun _ => none

def writeCount (written : Option Int) (leaves : Fields) : Fields :=
  match written with
  | none => leaves
  | some next => Function.update leaves referenceKey (some (.number next))

/-- `LINK_SUMMARY_SCRIPT`: the document, and whether it has changed. -/
def linkSummaryScript {α : Type} (update : LinkSummaryUpdate) (source : Source α) :
    Option (Source α × Bool) :=
  (countWritten update.referenceCount (source.leaves referenceKey)).map fun counted =>
    let pending := pendingWritten update.linksPending source.linksPending
    let (leaves, related) := assignAll ((update.relations.map relationEntries).getD [])
      (writeCount counted source.leaves)
    (⟨some leaves, pending.or source.linksPending, source.rest⟩,
      counted.isSome || pending.isSome || related)

inductive LinkSummaryResult
  | updated
  | noop
  | missing
  /-- The script throws. -/
  | failed
  deriving DecidableEq, Repr

def updateLinkSummary {α : Type} (update : LinkSummaryUpdate) :
    Option (Source α) → LinkSummaryResult × Option (Source α)
  | none => (.missing, none)
  | some source =>
      match linkSummaryScript update source with
      | none => (.failed, some source)
      | some (next, true) => (.updated, some next)
      | some (_, false) => (.noop, some source)

/-- What the extraction of references sends. -/
def referenceUpdate (referenceCount : Option Int) (linksPending : Option Bool) : LinkSummaryUpdate :=
  ⟨referenceCount, linksPending, none⟩

/-- What the derivation of relations sends. -/
def relationUpdate (relations : Relations) : LinkSummaryUpdate := ⟨none, none, some relations⟩

section Summary

variable {α : Type} {source : Source α} {count : Option Int} {pending : Option Bool}
  {relations : Relations}

theorem relation_keys (relations : Relations) :
    ((relationEntries relations).map Prod.fst).Nodup ∧
      ∀ key ∈ (relationEntries relations).map Prod.fst,
        key ∈ ["has_revert", "is_reverted", "has_cherry_pick", "has_stack"] := by
  cases first : relations .hasRevert <;> cases second : relations .isReverted <;>
    cases third : relations .hasCherryPick <;> cases fourth : relations .hasStack <;>
      simp [relationEntries, first, second, third, fourth, RelationLeaf.key]

theorem referenceKey_absent (relations : Relations) :
    referenceKey ∉ (relationEntries relations).map Prod.fst := fun inside =>
  absurd ((relation_keys relations).2 referenceKey inside) (by decide)

/-- The count may be written before or after the relations. -/
theorem assignAll_writeCount (written : Option Int) (leaves : Fields) :
    assignAll (relationEntries relations) (writeCount written leaves) =
      (writeCount written (assignAll (relationEntries relations) leaves).1,
        (assignAll (relationEntries relations) leaves).2) := by
  cases written with
  | none => rfl
  | some next => exact assignAll_update (referenceKey_absent relations) _

/-- The document after what the extraction of references sends. -/
def refer (count : Option Int) (pending : Option Bool) (source : Source α) : Source α :=
  match countWritten count (source.leaves referenceKey) with
  | none => source
  | some counted =>
      let written := pendingWritten pending source.linksPending
      if counted = none ∧ written = none then source
      else ⟨some (writeCount counted source.leaves), written.or source.linksPending, source.rest⟩

/-- The document after what the derivation of relations sends. -/
def relate (relations : Relations) (source : Source α) : Source α :=
  if (assignAll (relationEntries relations) source.leaves).2 then
    ⟨some (assignAll (relationEntries relations) source.leaves).1, source.linksPending, source.rest⟩
  else source

theorem update_refer (source : Source α) :
    (updateLinkSummary (referenceUpdate count pending) (some source)).2 =
      some (refer count pending source) := by
  cases counted : countWritten count (source.leaves referenceKey) with
  | none => simp [updateLinkSummary, linkSummaryScript, referenceUpdate, refer, counted]
  | some written =>
    cases written <;> cases marked : pendingWritten pending source.linksPending <;>
      simp [updateLinkSummary, linkSummaryScript, referenceUpdate, refer, counted, marked, assignAll]

theorem update_relate (source : Source α) :
    (updateLinkSummary (relationUpdate relations) (some source)).2 = some (relate relations source) := by
  cases changed : (assignAll (relationEntries relations) source.leaves).2 <;>
    simp [updateLinkSummary, linkSummaryScript, relationUpdate, relate, countWritten, pendingWritten,
      writeCount, changed]

theorem relate_leaves (source : Source α) :
    (relate relations source).leaves = (assignAll (relationEntries relations) source.leaves).1 := by
  unfold relate
  split
  · rfl
  next unchanged => exact (assignAll_unchanged (Bool.not_eq_true _ ▸ unchanged)).symm

/-- The derivation of relations leaves everything else as it is. -/
theorem relate_kept (relations : Relations) (source : Source α) :
    (relate relations source).linksPending = source.linksPending ∧
      (relate relations source).rest = source.rest ∧
        ∀ key ∉ (relationEntries relations).map Prod.fst,
          (relate relations source).leaves key = source.leaves key := by
  refine ⟨?_, ?_, fun key other => by rw [relate_leaves, assignAll_other other]⟩
  · unfold relate
    split <;> rfl
  · unfold relate
    split <;> rfl

theorem refer_leaves (is : countWritten count (source.leaves referenceKey) = some counted) :
    (refer count pending source).leaves = writeCount counted source.leaves := by
  simp only [refer, is]
  split
  next nothing => rw [nothing.1, writeCount]
  next => rfl

theorem refer_pending (is : countWritten count (source.leaves referenceKey) = some counted) :
    (refer count pending source).linksPending =
      (pendingWritten pending source.linksPending).or source.linksPending := by
  simp only [refer, is]
  split
  next nothing => rw [nothing.2, Option.none_or]
  next => rfl

/-- The extraction of references leaves everything else as it is. -/
theorem refer_kept (source : Source α) :
    (refer count pending source).rest = source.rest ∧
      ∀ key ≠ referenceKey, (refer count pending source).leaves key = source.leaves key := by
  cases is : countWritten count (source.leaves referenceKey) with
  | none => simp [refer, is]
  | some counted =>
    refine ⟨?_, fun key other => ?_⟩
    · simp only [refer, is]
      split <;> rfl
    · rw [refer_leaves is]
      cases counted with
      | none => rfl
      | some next => exact Function.update_of_ne other ..

/-- Either order gives the same document. -/
theorem refer_relate (source : Source α) :
    refer count pending (relate relations source) = relate relations (refer count pending source) := by
  obtain ⟨samePending, sameRest, sameLeaf⟩ := relate_kept relations source
  have same : countWritten count ((relate relations source).leaves referenceKey) =
      countWritten count (source.leaves referenceKey) := by
    rw [sameLeaf referenceKey (referenceKey_absent relations)]
  cases is : countWritten count (source.leaves referenceKey) with
  | none => simp only [refer, same, is]
  | some counted =>
    by_cases nothing : counted = none ∧ pendingWritten pending source.linksPending = none
    · simp only [refer, same, is, samePending, if_pos nothing]
    · have left : refer count pending (relate relations source) =
          ⟨some (writeCount counted (assignAll (relationEntries relations) source.leaves).1),
            (pendingWritten pending source.linksPending).or source.linksPending, source.rest⟩ := by
        simp only [refer, same, is, samePending, sameRest, if_neg nothing]
        rw [relate_leaves]
      have right : refer count pending source = ⟨some (writeCount counted source.leaves),
          (pendingWritten pending source.linksPending).or source.linksPending, source.rest⟩ := by
        simp only [refer, is, if_neg nothing]
      have leaves : ∀ fields pending rest,
          Source.leaves (⟨some fields, pending, rest⟩ : Source α) = fields := fun _ _ _ => rfl
      rw [left, right]
      simp only [relate, leaves, assignAll_writeCount]
      split
      · rfl
      next unchanged => rw [assignAll_unchanged (Bool.not_eq_true _ ▸ unchanged)]

/-- A count that is there is not written again. -/
theorem countWritten_again {current : Option Json} (is : countWritten count current = some counted) :
    countWritten count ((counted.map Json.number).or current) = some none := by
  cases count with
  | none => rfl
  | some next =>
    simp only [countWritten] at is ⊢
    split at is
    · cases is
    next fits =>
      rw [if_neg fits]
      have whole : intValue next = next := not_not.mp fits
      split at is
      · cases is
        simp [whole]
      · cases is
        simp [whole]
      next number =>
        split at is
        next same =>
          cases is
          simp [same]
        next =>
          cases is
          simp [whole]
      · cases is

theorem pendingWritten_again (pending : Option Bool) (current : Option Json) :
    pendingWritten pending ((pendingWritten pending current).or current) = none := by
  cases pending with
  | none => rfl
  | some value =>
    by_cases same : current = some (.bool value) <;> simp [pendingWritten, same]

/-- The same references again do nothing. -/
theorem refer_again (document : Option (Source α)) :
    let next := (updateLinkSummary (referenceUpdate count pending) document).2
    (updateLinkSummary (referenceUpdate count pending) next).2 = next ∧
      (updateLinkSummary (referenceUpdate count pending) next).1 ≠ .updated := by
  cases document with
  | none => simp [updateLinkSummary]
  | some source =>
    rw [update_refer]
    cases is : countWritten count (source.leaves referenceKey) with
    | none =>
      have same : refer count pending source = source := by simp only [refer, is]
      rw [same]
      simp [updateLinkSummary, linkSummaryScript, referenceUpdate, is]
    | some counted =>
      have again : countWritten count ((refer count pending source).leaves referenceKey) = some none := by
        rw [refer_leaves is, ← countWritten_again is]
        cases counted <;> simp [writeCount]
      have marked : pendingWritten pending (refer count pending source).linksPending = none := by
        rw [refer_pending is, pendingWritten_again]
      simp [updateLinkSummary, linkSummaryScript, referenceUpdate, again, marked, assignAll]

/-- The same relations again do nothing. -/
theorem relate_again (document : Option (Source α)) :
    let next := (updateLinkSummary (relationUpdate relations) document).2
    (updateLinkSummary (relationUpdate relations) next).2 = next ∧
      (updateLinkSummary (relationUpdate relations) next).1 ≠ .updated := by
  cases document with
  | none => simp [updateLinkSummary]
  | some source =>
    have agrees : assignAll (relationEntries relations) (relate relations source).leaves =
        ((relate relations source).leaves, false) := by
      rw [relate_leaves]
      exact assignAll_of_agrees (assignAll_agrees (relation_keys relations).1 _)
    rw [update_relate]
    simp [updateLinkSummary, linkSummaryScript, relationUpdate, countWritten, pendingWritten, writeCount,
      agrees]

/-- What the two updates send may come in either order, neither touches what the other one owns, and
neither does anything again. -/
theorem link_summary_leaves (document : Option (Source α)) (count : Option Int) (pending : Option Bool)
    (relations : Relations) :
    let reference : Option (Source α) → LinkSummaryResult × Option (Source α) :=
      updateLinkSummary (referenceUpdate count pending)
    let relation : Option (Source α) → LinkSummaryResult × Option (Source α) :=
      updateLinkSummary (relationUpdate relations)
    (reference (relation document).2).2 = (relation (reference document).2).2 ∧
      (∀ source ∈ document, ∃ next, (reference document).2 = some next ∧ next.rest = source.rest ∧
        ∀ key ≠ referenceKey, next.leaves key = source.leaves key) ∧
      (∀ source ∈ document, ∃ next, (relation document).2 = some next ∧ next.rest = source.rest ∧
        next.linksPending = source.linksPending ∧
          ∀ key, (∀ leaf, relations leaf ≠ none → key ≠ leaf.key) → next.leaves key = source.leaves key) ∧
      ((reference (reference document).2).2 = (reference document).2 ∧
        (reference (reference document).2).1 ≠ .updated) ∧
      (relation (relation document).2).2 = (relation document).2 ∧
        (relation (relation document).2).1 ≠ .updated := by
  refine ⟨?_, fun source is => ?_, fun source is => ?_, refer_again document, relate_again document⟩
  · cases document with
    | none => rfl
    | some source => rw [update_relate, update_refer, update_refer, update_relate, refer_relate]
  · obtain rfl := Option.mem_def.mp is
    exact ⟨_, update_refer source, refer_kept source⟩
  · obtain rfl := Option.mem_def.mp is
    obtain ⟨samePending, sameRest, others⟩ := relate_kept relations source
    refine ⟨_, update_relate source, sameRest, samePending, fun key other => others key fun inside => ?_⟩
    obtain ⟨entry, member, rfl⟩ := List.mem_map.mp inside
    obtain ⟨leaf, _, written⟩ := List.mem_filterMap.mp member
    obtain ⟨value, given, rfl⟩ := Option.map_eq_some_iff.mp written
    exact other leaf (by simp [given]) rfl

end Summary

end PrSearch.Index.Scripts
