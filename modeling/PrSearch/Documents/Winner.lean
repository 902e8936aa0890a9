import PrSearch.Documents.Build

/-! # The winner of the snapshot and the winner of the index

A projection of a pull request first writes its fields into the canonical snapshot, when they are
not older than what is there, and then sends its request to the index, where they are taken when
they are newer. The sends of several projections come in any order and are repeated until they
succeed. Once nothing is left to send, both hold the same fields in every run exactly when any two
of the projections are compatible: of one version with the same fields, or the newer one with
everything that the older one knew.
-/
namespace PrSearch.Documents

open Lib Index

/-! ### The two stores -/

/-- A row of `pull_request_snapshot`. -/
structure PullRequestSnapshotRow where
  documentVersion : Int
  document : Fields
  deriving DecidableEq

/-- `ON CONFLICT … DO UPDATE … WHERE document_version <= EXCLUDED.document_version` -/
def upsertPullRequestSnapshot (row : Option PullRequestSnapshotRow)
    (input : PullRequestSnapshotRow) : PullRequestSnapshotRow :=
  match row with
  | none => input
  | some row => if row.documentVersion ≤ input.documentVersion then input else row

/-- A pull request and what is stored of it. -/
structure PullRequest where
  repositoryId : Int
  prNumber : Int
  deriving DecidableEq, Repr

def PullRequest.address (pr : PullRequest) : Address :=
  ⟨EntityAlias.pullRequests.name, pullRequestDocId pr.repositoryId pr.prNumber,
    toString pr.repositoryId⟩

/-- Whether a projection is one of this pull request. -/
def PullRequest.Of (pr : PullRequest) (source : ProjectionSource) : Prop :=
  source.repository.repositoryId = pr.repositoryId ∧ source.enriched.prNumber = pr.prNumber

instance (pr : PullRequest) (source : ProjectionSource) : Decidable (pr.Of source) :=
  inferInstanceAs (Decidable (_ ∧ _))

structure World where
  snapshot : Option PullRequestSnapshotRow
  documents : Documents
  /-- Requests of recorded projections whose write has not succeeded yet. -/
  pending : List UpsertRequest

def start : World := ⟨none, fun _ => none, []⟩

inductive Action
  | record (source : ProjectionSource)
  | send (position : Nat) (attempt : Attempt)

/-- Whether the outcome ends the retries. -/
def succeeded : BulkItemOutcome → Bool
  | .ok _ => true
  | .failed _ _ _ => false

section Runs

variable (dateParse : String → Option Int) (order : HashOrder) (pr : PullRequest)

/-- The row that a projection offers to the snapshot. -/
def rowOf (source : ProjectionSource) : PullRequestSnapshotRow :=
  ⟨source.documentVersion, (buildPullRequestDocument dateParse source).doc⟩

def step (s : World) : Action → Option World
  | .record source =>
      if pr.Of source then
        some { s with
          snapshot := some (upsertPullRequestSnapshot s.snapshot (rowOf dateParse source))
          pending := s.pending ++ [buildPullRequestDocument dateParse source] }
      else none
  | .send position attempt =>
      (s.pending[position]?).map fun request =>
        let (documents, outcome) :=
          sendOne order s.documents ⟨request, request.entityAlias.name, attempt⟩
        { s with
          documents
          pending := if succeeded outcome then s.pending.eraseIdx position else s.pending }

def projections : Automaton World Action := ⟨step dateParse order pr⟩

/-- Version and owned fields are the same in both stores. -/
structure SameWinner (s : World) : Prop where
  version : (s.documents pr.address).bind (·.lookup "document_version") =
    s.snapshot.map fun row => .number row.documentVersion
  fields : ∀ key ∈ ownedFields, (s.documents pr.address).bind (·.lookup key) =
    s.snapshot.bind (·.document.lookup key)

/-- Two projections that cannot bring the stores apart. -/
structure Compatible (older newer : ProjectionSource) : Prop where
  same : older.documentVersion = newer.documentVersion → ∀ key ∈ ownedFields,
    (buildPullRequestDocument dateParse older).doc.lookup key =
      (buildPullRequestDocument dateParse newer).doc.lookup key
  keeps : older.documentVersion < newer.documentVersion → Keeps dateParse older newer

end Runs

/-! ### One write to the index -/

/-- The owned fields are those of one projection. -/
def Holds (dateParse : String → Option Int) (source : ProjectionSource) (fields : Fields) : Prop :=
  ∀ key ∈ ownedFields,
    fields.lookup key = (buildPullRequestDocument dateParse source).doc.lookup key

variable {key result : String} {source older newer : ProjectionSource} {fields : Fields}
  {documents after : Documents} {bound : Int} {stored : Option ProjectionSource} {s : World}
  {position : Nat}

section Write

variable (dateParse : String → Option Int)

/-- The fields written at creation and the identifier are not owned. -/
theorem createOnly_apart (mine : key ∈ ownedFields) :
    createOnly.lookup key = none ∧ key ≠ "doc_id" := by
  have apart : ∀ key ∈ ownedFields,
      key ≠ "links_pending" ∧ key ≠ "link_summary" ∧ key ≠ "doc_id" := by decide
  obtain ⟨noPending, noSummary, noId⟩ := apart key mine
  refine ⟨?_, noId⟩
  rw [createOnly, lookup_object (by decide)]
  have pending_other : (key == "links_pending") = false := by simpa using noPending
  have summary_other : (key == "link_summary") = false := by simpa using noSummary
  simp [List.lookup_cons, pending_other, summary_other]

theorem holds_initialDocument (source : ProjectionSource) :
    Holds dateParse source (initialDocument (buildPullRequestDocument dateParse source)) := by
  intro key mine
  obtain ⟨notCreated, noId⟩ := createOnly_apart mine
  rw [initialDocument, withDocId, AList.lookup_insert_ne noId, lookup_assign]
  have without : (buildPullRequestDocument dateParse source).createOnly.lookup key = none := notCreated
  rw [without, Option.none_or, lookup_assign, lookup_toArrays]
  rfl

/-- Removed fields are not carried. -/
theorem doc_removed (mine : key ∈ ownedFields) (gone : key ∈ removed source) :
    (buildPullRequestDocument dateParse source).doc.lookup key = none := by
  have notPresent := doc_isSome dateParse source mine
  rw [present_of_removed dateParse gone] at notPresent
  exact Option.isNone_iff_eq_none.mp (by simpa using notPresent)

/-- What the assignments make of an owned field. -/
theorem lookup_assigned (source : ProjectionSource) (fields : Fields) (mine : key ∈ ownedFields) :
    (assigned (buildPullRequestDocument dateParse source) true fields).lookup key =
      if key ∈ removed source then none
      else ((buildPullRequestDocument dateParse source).doc.lookup key).or (fields.lookup key) := by
  rw [assigned, if_pos rfl, lookup_removeFields, lookup_assign, withDocId,
    AList.lookup_insert_ne (createOnly_apart mine).2]
  rfl

/-- A newer projection that keeps what was known leaves its own fields. -/
theorem holds_assigned (holds : Holds dateParse older fields) (keeps : Keeps dateParse older newer) :
    Holds dateParse newer (assigned (buildPullRequestDocument dateParse newer) true fields) := by
  intro key mine
  rw [lookup_assigned dateParse newer fields mine]
  split
  · case isTrue gone => exact (doc_removed dateParse mine gone).symm
  · case isFalse kept =>
    cases carried : (buildPullRequestDocument dateParse newer).doc.lookup key with
    | some value => rfl
    | none =>
      -- the older one did not know it either
      rw [Option.none_or, holds key mine]
      have newer_without := doc_isSome dateParse newer mine
      rw [carried, Option.isSome_none] at newer_without
      have older_without : present dateParse older key = false := by
        by_contra known
        have found := (keeps_iff dateParse older newer).mp keeps key mine (by simpa using known)
        rw [← newer_without] at found
        exact kept (found.resolve_left Bool.false_ne_true)
      rw [← doc_isSome dateParse older mine] at older_without
      exact Option.isNone_iff_eq_none.mp (by simpa using older_without)

theorem version_owned : "document_version" ∈ ownedFields := by decide

theorem Holds.version (holds : Holds dateParse source fields) :
    fields.lookup "document_version" = some (.number source.documentVersion) :=
  (holds _ version_owned).trans (buildPullRequestDocument dateParse source).versioned

/-- There is nothing to accumulate: the script assigns when the version is greater. -/
theorem script_of_holds (order : HashOrder) (holds : Holds dateParse older fields)
    (newer : ProjectionSource) :
    conditionalUpsertScript order (scriptBody (buildPullRequestDocument dateParse newer)).params
        fields =
      if older.documentVersion < newer.documentVersion then
        .index (assigned (buildPullRequestDocument dateParse newer) true fields)
      else .noop := by
  have decided : fresh fields (scriptBody (buildPullRequestDocument dateParse newer)).params =
      some (decide (older.documentVersion < newer.documentVersion)) := by
    have sent := (buildPullRequestDocument dateParse newer).value_version
    have stored : fields.lookup "document_version" =
        (buildPullRequestDocument dateParse older).value "document_version" :=
      (holds.version dateParse).trans (buildPullRequestDocument dateParse older).value_version.symm
    exact fresh_of_version _ stored
  rw [script_of_fresh order decided]
  by_cases newest : older.documentVersion < newer.documentVersion
  · rw [if_pos newest, decide_eq_true newest]
    rfl
  · rw [if_neg newest, decide_eq_false newest]
    rfl

end Write

/-! ### One step of a run -/

section Steps

variable (dateParse : String → Option Int) (order : HashOrder) (pr : PullRequest)
  (allowed : ProjectionSource → Prop)

theorem address_of (mine : pr.Of source) (attempt : Attempt) :
    (⟨buildPullRequestDocument dateParse source,
      (buildPullRequestDocument dateParse source).entityAlias.name, attempt⟩ : Delivery).address =
        pr.address := by
  rw [PullRequest.address, ← mine.1, ← mine.2]
  rfl

/-- What the index holds of the pull request: the fields of one allowed projection, if any. -/
inductive Stored (documents : Documents) (bound : Int) : Option ProjectionSource → Prop
  | nothing (empty : documents pr.address = none) : Stored documents bound none
  | something (source : ProjectionSource) (fields : Fields) (is : allowed source)
      (there : documents pr.address = some fields) (holds : Holds dateParse source fields)
      (le : source.documentVersion ≤ bound) : Stored documents bound (some source)

/-- The snapshot has the greatest version, and the index has it too or is still to get it. -/
structure Inv (s : World) : Prop where
  waiting : ∀ request ∈ s.pending, ∃ source, allowed source ∧ pr.Of source ∧
    request = buildPullRequestDocument dateParse source
  empty : s.snapshot = none → s.pending = [] ∧ s.documents pr.address = none
  winner : ∀ row, s.snapshot = some row →
    (∃ source, allowed source ∧ row = rowOf dateParse source) ∧
    (∀ request ∈ s.pending, request.documentVersion ≤ row.documentVersion) ∧
    ∃ stored, Stored dateParse pr allowed s.documents row.documentVersion stored ∧
      ((∃ request ∈ s.pending, request.documentVersion = row.documentVersion) ∨
        ∃ source, stored = some source ∧ source.documentVersion = row.documentVersion)

theorem inv_start : Inv dateParse pr allowed start where
  waiting _ inside := absurd inside List.not_mem_nil
  empty _ := ⟨rfl, rfl⟩
  winner _ none := nomatch none

variable {dateParse pr allowed}

theorem Stored.mono {more : Int} (is : Stored dateParse pr allowed documents bound stored)
    (le : bound ≤ more) : Stored dateParse pr allowed documents more stored := by
  cases is with
  | nothing empty => exact .nothing empty
  | something source fields is there holds below =>
    exact .something source fields is there holds (below.trans le)

theorem Stored.written (documents : Documents) (mine : allowed source)
    (holds : Holds dateParse source fields) (le : source.documentVersion ≤ bound) :
    Stored dateParse pr allowed (Function.update documents pr.address (some fields)) bound
      (some source) :=
  .something source fields mine (by rw [Function.update_self]) holds le

/-- The first write creates the document. -/
theorem update_nothing (empty : documents pr.address = none) (request : UpsertRequest) :
    update order documents pr.address (scriptBody request) =
      (Function.update documents pr.address (some (initialDocument request)), .result "created") := by
  rw [update, empty]
  rfl

/-- A later write follows the script. -/
theorem update_something (there : documents pr.address = some fields) (request : UpsertRequest)
    {newer : Prop} [Decidable newer] {after : Fields}
    (script : conditionalUpsertScript order (scriptBody request).params fields =
      if newer then .index after else .noop) :
    update order documents pr.address (scriptBody request) =
      if newer then (Function.update documents pr.address (some after), .result "updated")
      else (documents, .result "noop") := by
  rw [update, there]
  dsimp only
  rw [script]
  by_cases is : newer
  · simp only [if_pos is]
  · simp only [if_neg is]

/-- The write of an allowed projection is carried out: the index holds the newer of the two. -/
theorem update_stored
    (compatible : ∀ older newer, allowed older → allowed newer → Compatible dateParse older newer)
    (is : Stored dateParse pr allowed documents bound stored) (mine : allowed source)
    (below : source.documentVersion ≤ bound) :
    ∃ result after newest, update order documents pr.address
        (scriptBody (buildPullRequestDocument dateParse source)) = (after, .result result) ∧
      Stored dateParse pr allowed after bound (some newest) ∧
      source.documentVersion ≤ newest.documentVersion ∧
      (∀ old, stored = some old → old.documentVersion ≤ newest.documentVersion) := by
  cases is with
  | nothing empty =>
    have wrote := update_nothing order empty (buildPullRequestDocument dateParse source)
    have isNewest := @Stored.written _ _ _ _ pr _ documents mine (holds_initialDocument dateParse source)
      below
    exact ⟨_, _, source, wrote, isNewest, le_refl _,
      fun old same => absurd same.symm (Option.some_ne_none old)⟩
  | something old fields isOld there holds le =>
    have wrote := update_something order there (buildPullRequestDocument dateParse source)
      (script_of_holds dateParse order holds source)
    by_cases newer : old.documentVersion < source.documentVersion
    · rw [if_pos newer] at wrote
      have isNewest := @Stored.written _ _ _ _ pr _ documents mine
        (holds_assigned dateParse holds ((compatible old source isOld mine).keeps newer)) below
      refine ⟨_, _, source, wrote, isNewest, le_refl _, ?_⟩
      intro other same
      rw [← Option.some.inj same]
      exact newer.le
    · rw [if_neg newer] at wrote
      refine ⟨_, _, old, wrote, .something old fields isOld there holds le, not_lt.mp newer, ?_⟩
      intro other same
      rw [← Option.some.inj same]

theorem Inv.record (inv : Inv dateParse pr allowed s) (mine : allowed source) (one : pr.Of source) :
    Inv dateParse pr allowed { s with
      snapshot := some (upsertPullRequestSnapshot s.snapshot (rowOf dateParse source))
      pending := s.pending ++ [buildPullRequestDocument dateParse source] } where
  waiting request inside := by
    rcases List.mem_append.mp inside with before | this
    · exact inv.waiting request before
    · exact ⟨source, mine, one, List.mem_singleton.mp this⟩
  empty none := nomatch none
  winner row is := by
    obtain rfl := (Option.some.inj is).symm
    have last : buildPullRequestDocument dateParse source ∈
        s.pending ++ [buildPullRequestDocument dateParse source] := by simp
    cases was : s.snapshot with
    | none =>
      obtain ⟨noPending, noDocument⟩ := inv.empty was
      refine ⟨⟨source, mine, rfl⟩, ?_, Option.none, .nothing noDocument, .inl ⟨_, last, rfl⟩⟩
      intro request inside
      rw [noPending, List.nil_append, List.mem_singleton] at inside
      rw [inside]
      exact le_refl _
    | some row =>
      obtain ⟨fromSource, above, stored, isStored, reached⟩ := inv.winner row was
      by_cases wins : row.documentVersion ≤ source.documentVersion
      · have now : upsertPullRequestSnapshot (some row) (rowOf dateParse source) =
            rowOf dateParse source := if_pos wins
        rw [now]
        refine ⟨⟨source, mine, rfl⟩, ?_, stored, isStored.mono wins, .inl ⟨_, last, rfl⟩⟩
        intro request inside
        rcases List.mem_append.mp inside with before | this
        · exact (above request before).trans wins
        · rw [List.mem_singleton.mp this]
          exact le_refl _
      · have now : upsertPullRequestSnapshot (some row) (rowOf dateParse source) = row := if_neg wins
        rw [now]
        refine ⟨fromSource, ?_, stored, isStored, ?_⟩
        · intro request inside
          rcases List.mem_append.mp inside with before | this
          · exact above request before
          · rw [List.mem_singleton.mp this]
            exact (not_le.mp wins).le
        · exact reached.imp_left fun ⟨request, inside, same⟩ =>
            ⟨request, List.mem_append_left _ inside, same⟩

/-- A request that leaves the list of pending ones takes no other with it. -/
theorem mem_eraseIdx_of_ne {α : Type} {items : List α} {gone item : α}
    (at_ : items[position]? = some gone) (inside : item ∈ items) (other : item ≠ gone) :
    item ∈ items.eraseIdx position := by
  obtain ⟨place, found⟩ := List.mem_iff_getElem?.mp inside
  rw [List.mem_eraseIdx_iff_getElem?]
  refine ⟨place, ?_, found⟩
  rintro rfl
  rw [at_] at found
  exact other (Option.some.inj found).symm

/-- What the three attempts make of a write that Elasticsearch would carry out. -/
theorem sendOne_of_update {delivery : Delivery}
    (wrote : update order documents delivery.address (scriptBody delivery.request) =
      (after, .result result)) :
    sendOne order documents delivery =
      match delivery.attempt with
      | .served => (after, .ok result)
      | .refused status error => (documents, failed status error)
      | .lost => (after, failed 0 none) := by
  rw [sendOne, wrote]
  rfl

/-- Requests leave the pending ones, and the index holds what it has to. -/
theorem Inv.of_stored (inv : Inv dateParse pr allowed s) {row : PullRequestSnapshotRow}
    (was : s.snapshot = some row) {pending : List UpsertRequest}
    (fewer : ∀ request ∈ pending, request ∈ s.pending)
    (isStored : Stored dateParse pr allowed documents row.documentVersion stored)
    (reached : (∃ request ∈ pending, request.documentVersion = row.documentVersion) ∨
      ∃ source, stored = some source ∧ source.documentVersion = row.documentVersion) :
    Inv dateParse pr allowed ⟨s.snapshot, documents, pending⟩ where
  waiting request inside := inv.waiting request (fewer request inside)
  empty none := by
    rw [was] at none
    exact absurd none (Option.some_ne_none row)
  winner other is := by
    rw [was] at is
    obtain rfl := Option.some.inj is
    obtain ⟨fromSource, above, _⟩ := inv.winner row was
    exact ⟨fromSource, fun request inside => above request (fewer request inside), stored, isStored,
      reached⟩

theorem Inv.send
    (compatible : ∀ older newer, allowed older → allowed newer → Compatible dateParse older newer)
    (inv : Inv dateParse pr allowed s) {request : UpsertRequest}
    (found : s.pending[position]? = some request) (attempt : Attempt) {outcome : BulkItemOutcome}
    (sent : sendOne order s.documents ⟨request, request.entityAlias.name, attempt⟩ =
      (documents, outcome)) :
    Inv dateParse pr allowed ⟨s.snapshot, documents,
      if succeeded outcome then s.pending.eraseIdx position else s.pending⟩ := by
  have inside : request ∈ s.pending := List.mem_of_getElem? found
  obtain ⟨source, mine, one, rfl⟩ := inv.waiting request inside
  cases was : s.snapshot with
  | none =>
    rw [(inv.empty was).1] at inside
    exact absurd inside List.not_mem_nil
  | some row =>
    obtain ⟨_, above, stored, isStored, reached⟩ := inv.winner row was
    obtain ⟨result, after, newest, wrote, isNewest, newer, notOlder⟩ :=
      update_stored order compatible isStored mine (above _ inside)
    rw [← address_of dateParse pr one attempt] at wrote
    rw [sendOne_of_update order wrote] at sent
    have below : newest.documentVersion ≤ row.documentVersion := by
      cases isNewest with
      | something _ _ _ _ _ le => exact le
    -- what had reached the greatest version still has, and so has a write of that version
    have kept : (∃ source, stored = some source ∧ source.documentVersion = row.documentVersion) →
        ∃ source, some newest = some source ∧ source.documentVersion = row.documentVersion := by
      rintro ⟨old, isOld, same⟩
      exact ⟨newest, rfl, le_antisymm below (same ▸ notOlder old isOld)⟩
    rw [← was]
    cases attempt with
    | served =>
      obtain ⟨rfl, rfl⟩ := Prod.mk.inj sent
      refine inv.of_stored was (fun _ left => List.mem_of_mem_eraseIdx left) isNewest ?_
      rcases reached with ⟨other, waits, same⟩ | reached
      · by_cases itself : other = buildPullRequestDocument dateParse source
        · subst itself
          exact .inr ⟨newest, rfl, le_antisymm below (same ▸ newer)⟩
        · exact .inl ⟨other, mem_eraseIdx_of_ne found waits itself, same⟩
      · exact .inr (kept reached)
    | refused status error =>
      obtain ⟨rfl, rfl⟩ := Prod.mk.inj sent
      exact inv.of_stored was (fun _ same => same) isStored reached
    | lost =>
      obtain ⟨rfl, rfl⟩ := Prod.mk.inj sent
      exact inv.of_stored was (fun _ same => same) isNewest (reached.imp_right kept)

theorem Inv.step {next : World} {action : Action}
    (compatible : ∀ older newer, allowed older → allowed newer → Compatible dateParse older newer)
    (inv : Inv dateParse pr allowed s)
    (mine : ∀ source, action = .record source → pr.Of source → allowed source)
    (stepped : step dateParse order pr s action = some next) : Inv dateParse pr allowed next := by
  cases action with
  | record source =>
    rw [Documents.step] at stepped
    by_cases one : pr.Of source
    · rw [if_pos one] at stepped
      obtain rfl := Option.some.inj stepped
      exact inv.record (mine source rfl one) one
    · rw [if_neg one] at stepped
      exact absurd stepped.symm (Option.some_ne_none _)
  | send position attempt =>
    obtain ⟨request, found, rfl⟩ := Option.map_eq_some_iff.mp stepped
    exact inv.send order compatible found attempt rfl

/-- Once nothing is left to send, both stores hold one projection of the greatest version. -/
theorem Inv.sameWinner
    (compatible : ∀ older newer, allowed older → allowed newer → Compatible dateParse older newer)
    (inv : Inv dateParse pr allowed s) (settled : s.pending = []) : SameWinner pr s := by
  cases was : s.snapshot with
  | none =>
    have noDocument := (inv.empty was).2
    constructor
    · rw [noDocument, was]
      rfl
    · intro key _
      rw [noDocument, was]
      rfl
  | some row =>
    obtain ⟨⟨source, mine, rfl⟩, _, stored, isStored, reached⟩ := inv.winner row was
    rcases reached with ⟨request, waits, _⟩ | ⟨newest, rfl, same⟩
    · rw [settled] at waits
      exact absurd waits List.not_mem_nil
    · cases isStored with
      | something _ fields isNewest there holds _ =>
        constructor
        · rw [there, was, Option.bind_some, holds.version dateParse, same]
          rfl
        · intro key owned
          rw [there, was, Option.bind_some, Option.bind_some, holds key owned]
          exact (compatible newest source isNewest mine).same same key owned

end Steps

/-! ### Two projections, one after the other -/

section TwoProjections

variable (dateParse : String → Option Int) (order : HashOrder) (pr : PullRequest)

/-- Each is recorded and then sent with success. -/
def oneByOne (older newer : ProjectionSource) : List Action :=
  [.record older, .send 0 .served, .record newer, .send 0 .served]

/-- A projection that is recorded and sent when nothing else is pending. -/
theorem mem_visited_turn (settled : s.pending = []) (one : pr.Of source)
    (wrote : update order s.documents pr.address
      (scriptBody (buildPullRequestDocument dateParse source)) = (after, .result result))
    {rest : List Action} {state : World}
    (later : state ∈ (projections dateParse order pr).visited rest
      ⟨some (upsertPullRequestSnapshot s.snapshot (rowOf dateParse source)), after, []⟩) :
    state ∈ (projections dateParse order pr).visited
      (.record source :: .send 0 .served :: rest) s := by
  let request := buildPullRequestDocument dateParse source
  have recorded : step dateParse order pr s (.record source) = some
      ⟨some (upsertPullRequestSnapshot s.snapshot (rowOf dateParse source)), s.documents, [request]⟩ := by
    rw [step, if_pos one, settled]
    rfl
  have sent : sendOne order s.documents ⟨request, request.entityAlias.name, .served⟩ =
      (after, .ok result) := by
    rw [← address_of dateParse pr one .served] at wrote
    exact sendOne_of_update order wrote
  have stepped : step dateParse order pr
      ⟨some (upsertPullRequestSnapshot s.snapshot (rowOf dateParse source)), s.documents, [request]⟩
      (.send 0 .served) =
        some ⟨some (upsertPullRequestSnapshot s.snapshot (rowOf dateParse source)), after, []⟩ := by
    rw [step, List.getElem?_cons_zero, Option.map_some, sent]
    rfl
  exact Automaton.mem_visited_cons recorded (Automaton.mem_visited_cons stepped later)

/-- What the two leave behind, when the second is not older. -/
theorem oneByOne_visited (ofOlder : pr.Of older) (ofNewer : pr.Of newer)
    (le : older.documentVersion ≤ newer.documentVersion) :
    ∃ s ∈ (projections dateParse order pr).visited (oneByOne older newer) start,
      s.pending = [] ∧ s.snapshot = some (rowOf dateParse newer) ∧
      s.documents pr.address = some (assigned (buildPullRequestDocument dateParse newer)
        (decide (older.documentVersion < newer.documentVersion))
        (initialDocument (buildPullRequestDocument dateParse older))) := by
  let first := initialDocument (buildPullRequestDocument dateParse older)
  let documents := Function.update start.documents pr.address (some first)
  have created : update order start.documents pr.address
      (scriptBody (buildPullRequestDocument dateParse older)) = (documents, .result "created") :=
    update_nothing order rfl (buildPullRequestDocument dateParse older)
  have there : documents pr.address = some first := Function.update_self ..
  have wins : upsertPullRequestSnapshot (some (rowOf dateParse older)) (rowOf dateParse newer) =
      rowOf dateParse newer := if_pos le
  have wrote := update_something order there (buildPullRequestDocument dateParse newer)
    (script_of_holds dateParse order (holds_initialDocument dateParse older) newer)
  by_cases less : older.documentVersion < newer.documentVersion
  · rw [if_pos less] at wrote
    refine ⟨_, mem_visited_turn dateParse order pr rfl ofOlder created
      (mem_visited_turn dateParse order pr rfl ofNewer wrote (Automaton.mem_visited_self ..)),
      rfl, congrArg some wins, ?_⟩
    rw [decide_eq_true less]
    dsimp only
    rw [Function.update_self]
  · rw [if_neg less] at wrote
    refine ⟨_, mem_visited_turn dateParse order pr rfl ofOlder created
      (mem_visited_turn dateParse order pr rfl ofNewer wrote (Automaton.mem_visited_self ..)),
      rfl, congrArg some wins, ?_⟩
    rw [decide_eq_false less]
    exact there

/-- The stores agree after the two only when the projections are compatible. -/
theorem compatible_of_oneByOne (ofOlder : pr.Of older) (ofNewer : pr.Of newer)
    (agree : ∀ s ∈ (projections dateParse order pr).visited (oneByOne older newer) start,
      s.pending = [] → SameWinner pr s) : Compatible dateParse older newer := by
  have fieldwise (le : older.documentVersion ≤ newer.documentVersion) (key : String)
      (mine : key ∈ ownedFields) :
      (assigned (buildPullRequestDocument dateParse newer)
        (decide (older.documentVersion < newer.documentVersion))
        (initialDocument (buildPullRequestDocument dateParse older))).lookup key =
          (buildPullRequestDocument dateParse newer).doc.lookup key := by
    obtain ⟨s, reached, settled, snapshot, there⟩ :=
      oneByOne_visited dateParse order pr ofOlder ofNewer le
    have same := (agree s reached settled).fields key mine
    rw [there, snapshot] at same
    exact same
  constructor
  · intro same key mine
    have held := fieldwise same.le key mine
    rw [decide_eq_false (by omega)] at held
    rw [← held]
    exact (holds_initialDocument dateParse older key mine).symm
  · intro less
    rw [keeps_iff]
    intro key mine known
    by_contra lost
    rw [not_or] at lost
    have held := fieldwise less.le key mine
    rw [decide_eq_true less, lookup_assigned dateParse newer _ mine, if_neg lost.2,
      holds_initialDocument dateParse older key mine] at held
    -- the newer projection has no value, and the older one's stays in the index
    have without : (buildPullRequestDocument dateParse newer).doc.lookup key = none :=
      Option.isNone_iff_eq_none.mp (by
        have absent := doc_isSome dateParse newer mine
        rw [Bool.not_eq_true] at lost
        rw [lost.1] at absent
        simpa using absent)
    rw [without, Option.none_or] at held
    have some_ := doc_isSome dateParse older mine
    rw [held, known] at some_
    exact absurd some_ Bool.false_ne_true

end TwoProjections

/-! ### Every run -/

/-- The two stores have the same winner in every run of some projections, exactly when any two of
them are compatible. -/
theorem sameWinner_iff (dateParse : String → Option Int) (order : HashOrder) (pr : PullRequest)
    (made : ProjectionSource → Prop) :
    (∀ actions, (∀ source, .record source ∈ actions → made source) →
      ∀ s ∈ (projections dateParse order pr).visited actions start, s.pending = [] →
        SameWinner pr s) ↔
      ∀ older newer, made older → made newer → pr.Of older → pr.Of newer →
        Compatible dateParse older newer := by
  constructor
  · intro agree older newer isOlder isNewer ofOlder ofNewer
    refine compatible_of_oneByOne dateParse order pr ofOlder ofNewer (agree _ ?_)
    intro source inside
    simp only [oneByOne, List.mem_cons, Action.record.injEq, reduceCtorEq, false_or,
      List.not_mem_nil, or_false] at inside
    rcases inside with rfl | rfl
    · exact isOlder
    · exact isNewer
  · intro compatible actions all
    let allowed (source : ProjectionSource) : Prop := made source ∧ pr.Of source
    have pairwise : ∀ older newer, allowed older → allowed newer →
        Compatible dateParse older newer :=
      fun older newer isOlder isNewer =>
        compatible older newer isOlder.1 isNewer.1 isOlder.2 isNewer.2
    have invariant : ∀ s ∈ (projections dateParse order pr).visited actions start,
        Inv dateParse pr allowed s := by
      have kept : ∀ s action next, Inv dateParse pr allowed s →
          (∀ source, action = .record source → made source) →
          (projections dateParse order pr).step s action = some next →
            Inv dateParse pr allowed next :=
        fun s action next inv mine stepped =>
          inv.step order pairwise (fun source is one => ⟨mine source is, one⟩) stepped
      refine Automaton.visited_of_taken kept (inv_start dateParse pr allowed) ?_
      intro turn taken source is
      exact all source (is ▸ Automaton.mem_of_mem_taken taken)
    intro s reached settled
    exact (invariant s reached).sameWinner pairwise settled

/-! ### One delivery, first with a part of the enrichment and then with all -/

section Reprocessed

def somePullRequest : EnrichedPullRequest where
  title := "fix"
  body := none
  state := "open"
  draft := false
  labels := []
  merged := false
  createdAt := none
  updatedAt := none
  closedAt := none
  mergedAt := none
  mergeCommitSha := none
  author := some "kim"
  headRef := "topic"
  headSha := "b1"
  baseRef := "main"
  baseSha := "a1"

def someRepository : RepositoryRow where
  repositoryId := 1
  owner := "o"
  name := "r"
  orgId := 1
  visibility := .internal
  allowedTeamIds := []
  status := .active
  bootstrapped := true

/-- The delivery received at 1000, projected with what was known then. -/
def reprocessed (known : Option EnrichedPullRequest) (failed : List EnrichmentComponent) :
    ProjectionSource where
  enriched :=
    { deliveryId := "d", prNumber := 7, pullRequest := known, sourceCommitShas := [],
      changedFiles := [], reviews := [], sourceCommitsTruncated := false, filesTruncated := false,
      enrichmentPending := !failed.isEmpty, enrichmentErrors := failed }
  repository := someRepository
  documentVersion := 1000
  indexedAt := 2000
  authorTeams := .unknown

/-- The snapshot takes the complete projection, the index stays with the first one. -/
theorem not_sameWinner : ¬ ∀ (dateParse : String → Option Int) (order : HashOrder)
    (pr : PullRequest) (actions : List Action),
    ∀ s ∈ (projections dateParse order pr).visited actions start, s.pending = [] →
      SameWinner pr s := by
  intro all
  let noDate : String → Option Int := fun _ => none
  let order : HashOrder := ⟨id, fun _ => List.Perm.refl _⟩
  let first := reprocessed none [.pullRequest]
  let complete := reprocessed (some somePullRequest) []
  have compatible : Compatible noDate first complete :=
    compatible_of_oneByOne noDate order ⟨1, 7⟩ ⟨rfl, rfl⟩ ⟨rfl, rfl⟩
      (all noDate order ⟨1, 7⟩ (oneByOne first complete))
  have same := compatible.same rfl "enrichment_pending" (by decide)
  rw [buildPullRequestDocument, buildPullRequestDocument, lookup_entries, lookup_entries] at same
  have pending : ((entries noDate first).lookup "enrichment_pending").join = some (.bool true) := rfl
  have finished : ((entries noDate complete).lookup "enrichment_pending").join = some (.bool false) := rfl
  rw [pending, finished] at same
  exact absurd same (by decide)

end Reprocessed

end PrSearch.Documents
