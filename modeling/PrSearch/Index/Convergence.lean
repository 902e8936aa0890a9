import Mathlib
import PrSearch.Index.Upsert

/-! # Convergence of the projection

The requests that project one document have different versions and own the same fields: each of them
sets or removes every one. Whatever the order of delivery, and however often a request is delivered,
the owned fields end up as in the request with the greatest version, an accumulated field holds the
values of all requests, and the fields written at creation are those of the request that created the
document. A request that comes again changes nothing. Writing to a shadow index as well changes nothing
that is served.
-/
namespace PrSearch.Index

open Lib

/-! ### Loops over the keys of an object -/

section Loops

variable {α β : Type}

theorem lookup_foldl_insert (convert : α → β) {entries : List (Sigma fun _ : String => α)}
    (nodup : entries.NodupKeys) (start : AList fun _ : String => β) (key : String) :
    (entries.foldl (fun out entry => out.insert entry.1 (convert entry.2)) start).lookup key =
      ((entries.dlookup key).map convert).or (start.lookup key) := by
  induction entries generalizing start with
  | nil => simp
  | cons entry rest ih =>
    obtain ⟨name, value⟩ := entry
    have rest_nodup := (List.nodupKeys_cons.mp nodup).2
    have fresh_name : name ∉ rest.keys := (List.nodupKeys_cons.mp nodup).1
    rw [List.foldl_cons, ih rest_nodup]
    by_cases same : key = name
    · subst same
      have gone : rest.dlookup key = none := List.dlookup_eq_none.mpr fresh_name
      simp [gone]
    · rw [AList.lookup_insert_ne same, List.dlookup_cons_ne rest ⟨name, value⟩ same]

end Loops

theorem lookup_assign (entries source : Fields) (key : String) :
    (assign entries source).lookup key = (entries.lookup key).or (source.lookup key) := by
  have loop := lookup_foldl_insert (id : Json → Json) entries.nodupKeys source key
  rw [Option.map_id] at loop
  exact loop

theorem lookup_toArrays (union : AList fun _ : String => List Json) (key : String) :
    (toArrays union).lookup key = (union.lookup key).map Json.array := by
  have loop := lookup_foldl_insert Json.array union.nodupKeys ∅ key
  rw [AList.lookup_empty, Option.or_none] at loop
  exact loop

theorem lookup_removeFields (keys : List String) (source : Fields) (key : String) :
    (removeFields keys source).lookup key = if key ∈ keys then none else source.lookup key := by
  induction keys generalizing source with
  | nil => simp [removeFields]
  | cons name rest ih =>
    have next := ih (if name ∈ source then source.erase name else source)
    rw [removeFields, List.foldl_cons]
    rw [removeFields] at next
    rw [next]
    by_cases later : key ∈ rest
    · simp [later]
    · by_cases same : key = name
      · subst same
        by_cases present : key ∈ source
        · simp [later, present]
        · simp [later, present, AList.lookup_eq_none.mpr present]
      · by_cases present : name ∈ source
        · simp [later, same, present, AList.lookup_erase_ne same]
        · simp [later, same, present]

/-! ### Accumulated fields -/

/-- What a request adds to a field. -/
def UpsertRequest.added (request : UpsertRequest) (key : String) : List Json :=
  (request.union.lookup key).getD []

variable {key : String} {delivery : Delivery} {documents : Documents}

section Merging

variable (order : HashOrder)

theorem mem_list {values : List Json} {value : Json} : value ∈ order.list values ↔ value ∈ values :=
  (order.perm values).mem_iff

theorem lookup_mergeField_ne {name : String} (different : key ≠ name) (state : Fields × Bool)
    (values : List Json) :
    (mergeField order state name values).1.lookup key = state.1.lookup key := by
  simp [mergeField, AList.lookup_insert_ne different]

theorem mem_elements_mergeField {value : Json} (state : Fields × Bool) (key : String)
    (values : List Json) :
    value ∈ elements ((mergeField order state key values).1.lookup key) ↔
      value ∈ elements (state.1.lookup key) ∨ value ∈ values := by
  simp [mergeField, elements, mem_list, or_comm]

theorem changed_mergeField (state : Fields × Bool) (key : String) (values : List Json) :
    (mergeField order state key values).2 = true ↔
      state.2 = true ∨ ∃ value ∈ values, value ∉ elements (state.1.lookup key) := by
  simp [mergeField]

/-- The loop over the accumulated fields: what is in a field is what was there and what the request
adds, and the loop reports a change when one of its values was missing. -/
theorem mergeFields_spec {entries : List (Sigma fun _ : String => List Json)}
    (nodup : entries.NodupKeys) (state : Fields × Bool) :
    let after := entries.foldl (fun state entry => mergeField order state entry.1 entry.2) state
    (∀ key ∉ entries.keys, after.1.lookup key = state.1.lookup key) ∧
      (∀ key value, value ∈ elements (after.1.lookup key) ↔
        value ∈ elements (state.1.lookup key) ∨ value ∈ (entries.dlookup key).getD []) ∧
      (after.2 = true ↔ state.2 = true ∨ ∃ key, ∃ value ∈ (entries.dlookup key).getD [],
        value ∉ elements (state.1.lookup key)) := by
  induction entries generalizing state with
  | nil => simp
  | cons entry rest ih =>
    obtain ⟨name, values⟩ := entry
    have fresh_name : rest.dlookup name = none :=
      List.dlookup_eq_none.mpr (List.nodupKeys_cons.mp nodup).1
    obtain ⟨kept, merged, changed⟩ :=
      ih (List.nodupKeys_cons.mp nodup).2 (mergeField order state name values)
    rw [List.foldl_cons]
    refine ⟨fun key outside => ?_, fun key value => ?_, ?_⟩
    · have different : key ≠ name := fun same => outside (by simp [same])
      rw [kept key fun inside => outside (by simp [inside]),
        lookup_mergeField_ne order different]
    · rw [merged key value]
      by_cases same : key = name
      · subst same
        simp [mem_elements_mergeField, fresh_name]
      · rw [lookup_mergeField_ne order same, List.dlookup_cons_ne rest ⟨name, values⟩ same]
    · rw [changed, changed_mergeField]
      constructor
      · rintro ((before | ⟨value, mine, missing⟩) | ⟨key, value, mine, missing⟩)
        · exact .inl before
        · exact .inr ⟨name, value, by simpa using mine, missing⟩
        · -- a later entry is one of another key, which this entry has left alone
          have different : key ≠ name := by
            rintro rfl
            simp [fresh_name] at mine
          refine .inr ⟨key, value, ?_, ?_⟩
          · rwa [List.dlookup_cons_ne rest ⟨name, values⟩ different]
          · rwa [lookup_mergeField_ne order different] at missing
      · rintro (before | ⟨key, value, mine, missing⟩)
        · exact .inl (.inl before)
        · by_cases same : key = name
          · subst same
            exact .inl (.inr ⟨value, by simpa using mine, missing⟩)
          · refine .inr ⟨key, value, ?_, ?_⟩
            · rwa [List.dlookup_cons_ne rest ⟨name, values⟩ same] at mine
            · rwa [lookup_mergeField_ne order same]

end Merging

/-! ### Requests for one document -/

/-- What the document holds in an owned field when this request is the newest. -/
def UpsertRequest.value (request : UpsertRequest) (key : String) : Option Json :=
  (withDocId request request.doc).lookup key

/-- The fields a request sets or removes. -/
def UpsertRequest.owned (request : UpsertRequest) : Finset String :=
  (withDocId request request.doc).keys.toFinset ∪ request.remove.toFinset

theorem UpsertRequest.value_version (request : UpsertRequest) :
    request.value "document_version" = some (.number request.documentVersion) := by
  rw [value, withDocId, AList.lookup_insert_ne (by decide), request.versioned]

theorem UpsertRequest.version_owned (request : UpsertRequest) :
    "document_version" ∈ request.owned := by
  have held : (withDocId request request.doc).lookup "document_version" =
      some (.number request.documentVersion) := request.value_version
  have present : "document_version" ∈ withDocId request request.doc :=
    AList.lookup_isSome.mp (by rw [held]; rfl)
  simp [owned, ← AList.mem_keys, present]

/-- The requests that project one document. Each field has one role: owned, accumulated or written
at creation. -/
structure Projection (owned : Finset String) (requests : List UpsertRequest) : Prop where
  distinct : (requests.map UpsertRequest.documentVersion).Nodup
  sameFields : ∀ request ∈ requests, request.owned = owned
  setOrRemoved : ∀ request ∈ requests, ∀ key ∈ request.remove, request.value key = none
  unionApart : ∀ request ∈ requests, ∀ key ∈ request.union, key ∉ owned
  createOnlyApart : ∀ request ∈ requests, ∀ key ∈ request.createOnly, key ∉ owned
  rolesApart : ∀ request ∈ requests, ∀ other ∈ requests, ∀ key ∈ request.union,
    key ∉ other.createOnly

/-- The requests carried out so far, oldest first, are in the document. -/
structure Projected (owned : Finset String) (requests : List UpsertRequest)
    (carriedOut : List UpsertRequest) (source : Fields) : Prop where
  newest : ∃ request, carriedOut.argmax UpsertRequest.documentVersion = some request ∧
    ∀ key ∈ owned, source.lookup key = request.value key
  accumulated : ∀ key ∉ owned, (∀ request ∈ requests, key ∉ request.createOnly) →
    ∀ value, value ∈ elements (source.lookup key) ↔
      ∃ request ∈ carriedOut, value ∈ request.added key
  created : ∃ request, carriedOut.head? = some request ∧
    ∀ key ∉ owned, (∀ request ∈ requests, key ∉ request.union) →
      source.lookup key = request.createOnly.lookup key

variable {newest : UpsertRequest}

section OneDocument

variable {owned : Finset String} {requests : List UpsertRequest}

namespace Projection

variable (projection : Projection owned requests) {request : UpsertRequest}
  (mine : request ∈ requests)
include projection mine

theorem docId_owned : "doc_id" ∈ owned := by
  rw [← projection.sameFields request mine, UpsertRequest.owned, Finset.mem_union,
    List.mem_toFinset, withDocId, ← AList.mem_keys]
  exact .inl ((AList.mem_insert _).mpr (.inl rfl))

theorem doc_outside (outside : key ∉ owned) : request.doc.lookup key = none := by
  rw [AList.lookup_eq_none]
  intro inside
  apply outside
  rw [← projection.sameFields request mine, UpsertRequest.owned, Finset.mem_union,
    List.mem_toFinset, withDocId, ← AList.mem_keys]
  exact .inl ((AList.mem_insert _).mpr (.inr inside))

theorem value_outside (outside : key ∉ owned) : request.value key = none := by
  have different : key ≠ "doc_id" := by
    rintro rfl
    exact outside (projection.docId_owned mine)
  rw [UpsertRequest.value, withDocId, AList.lookup_insert_ne different,
    projection.doc_outside mine outside]

theorem initialDocument_owned (inside : key ∈ owned) :
    (initialDocument request).lookup key = request.value key := by
  have noUnion : key ∉ request.union := fun there =>
    projection.unionApart request mine key there inside
  have noCreateOnly : key ∉ request.createOnly := fun there =>
    projection.createOnlyApart request mine key there inside
  by_cases same : key = "doc_id"
  · subst same
    simp [initialDocument, withDocId, UpsertRequest.value]
  · rw [UpsertRequest.value, initialDocument, withDocId, withDocId, AList.lookup_insert_ne same,
      AList.lookup_insert_ne same, lookup_assign, lookup_assign, lookup_toArrays,
      AList.lookup_eq_none.mpr noUnion, AList.lookup_eq_none.mpr noCreateOnly]
    rfl

theorem initialDocument_outside (outside : key ∉ owned) :
    (initialDocument request).lookup key =
      (request.createOnly.lookup key).or ((request.union.lookup key).map Json.array) := by
  have different : key ≠ "doc_id" := by
    rintro rfl
    exact outside (projection.docId_owned mine)
  rw [initialDocument, withDocId, AList.lookup_insert_ne different, lookup_assign, lookup_assign,
    lookup_toArrays, projection.doc_outside mine outside, Option.or_none]

/-- The request that creates the document. -/
theorem projected_initialDocument :
    Projected owned requests [request] (initialDocument request) where
  newest := ⟨request, rfl, fun _ inside => projection.initialDocument_owned mine inside⟩
  accumulated key outside notCreated value := by
    rw [projection.initialDocument_outside mine outside,
      AList.lookup_eq_none.mpr (notCreated request mine)]
    cases held : request.union.lookup key <;> simp [elements, UpsertRequest.added, held]
  created := by
    refine ⟨request, rfl, fun key outside notMerged => ?_⟩
    rw [projection.initialDocument_outside mine outside,
      AList.lookup_eq_none.mpr (notMerged request mine)]
    exact Option.or_none

end Projection

/-- Sources that agree where the requests have a say. -/
theorem Projected.congr {carriedOut : List UpsertRequest} {source other : Fields}
    (projected : Projected owned requests carriedOut source)
    (sameOwned : ∀ key ∈ owned, other.lookup key = source.lookup key)
    (sameElements : ∀ key value,
      value ∈ elements (other.lookup key) ↔ value ∈ elements (source.lookup key))
    (sameCreated : ∀ key, (∀ request ∈ requests, key ∉ request.union) →
      other.lookup key = source.lookup key) :
    Projected owned requests carriedOut other where
  newest := by
    obtain ⟨newest, isNewest, holds⟩ := projected.newest
    exact ⟨newest, isNewest, fun key inside => (sameOwned key inside).trans (holds key inside)⟩
  accumulated key outside notCreated value := by
    rw [sameElements key value, projected.accumulated key outside notCreated value]
  created := by
    obtain ⟨first, isFirst, holds⟩ := projected.created
    exact ⟨first, isFirst, fun key outside notMerged =>
      (sameCreated key notMerged).trans (holds key outside notMerged)⟩

/-- The version comparison, against the newest request so far. -/
theorem fresh_of_version {source : Fields} (request : UpsertRequest)
    (holds : source.lookup "document_version" = newest.value "document_version") :
    fresh source (scriptBody request).params =
      some (decide (newest.documentVersion < request.documentVersion)) := by
  have sent : (scriptBody request).params.doc.lookup "document_version" =
      some (.number request.documentVersion) := request.value_version
  rw [fresh, holds, newest.value_version, sent]

/-- The source once the state fields are assigned and removed. -/
def assigned (request : UpsertRequest) (isFresh : Bool) (source : Fields) : Fields :=
  if isFresh then removeFields request.remove (assign (withDocId request request.doc) source)
  else source

theorem lookup_assigned_owned (projection : Projection owned requests) {request : UpsertRequest}
    (mine : request ∈ requests) (source : Fields) (inside : key ∈ owned) :
    (assigned request true source).lookup key = request.value key := by
  rw [assigned, if_pos rfl, lookup_removeFields, lookup_assign]
  by_cases removed : key ∈ request.remove
  · rw [if_pos removed, projection.setOrRemoved request mine key removed]
  · rw [if_neg removed]
    have set : key ∈ withDocId request request.doc := by
      rw [← projection.sameFields request mine, UpsertRequest.owned, Finset.mem_union] at inside
      simpa [removed, ← AList.mem_keys] using inside
    obtain ⟨value, held⟩ := Option.isSome_iff_exists.mp (AList.lookup_isSome.mpr set)
    rw [UpsertRequest.value, held]
    rfl

theorem lookup_assigned_outside (projection : Projection owned requests) {request : UpsertRequest}
    (mine : request ∈ requests) (isFresh : Bool) (source : Fields) (outside : key ∉ owned) :
    (assigned request isFresh source).lookup key = source.lookup key := by
  cases isFresh with
  | false => rfl
  | true =>
    have notRemoved : key ∉ request.remove := by
      intro removed
      apply outside
      rw [← projection.sameFields request mine, UpsertRequest.owned]
      simp [removed]
    have notSet : (withDocId request request.doc).lookup key = none :=
      projection.value_outside mine outside
    rw [assigned, if_pos rfl, lookup_removeFields, if_neg notRemoved, lookup_assign, notSet]
    rfl

/-- The source after the accumulated fields, and whether the script reports a change. -/
def merged (order : HashOrder) (request : UpsertRequest) (isFresh : Bool) (source : Fields) :
    Fields × Bool :=
  request.union.foldl (mergeField order) (assigned request isFresh source, isFresh)

theorem script_of_fresh (order : HashOrder) {request : UpsertRequest} {source : Fields}
    {isFresh : Bool} (decided : fresh source (scriptBody request).params = some isFresh) :
    conditionalUpsertScript order (scriptBody request).params source =
      if (merged order request isFresh source).2 then
        .index (merged order request isFresh source).1 else .noop := by
  rw [conditionalUpsertScript, decided]
  cases isFresh <;> rfl

theorem merged_spec (order : HashOrder) (request : UpsertRequest) (isFresh : Bool)
    (source : Fields) :
    (∀ key ∉ request.union, (merged order request isFresh source).1.lookup key =
        (assigned request isFresh source).lookup key) ∧
      (∀ key value, value ∈ elements ((merged order request isFresh source).1.lookup key) ↔
        value ∈ elements ((assigned request isFresh source).lookup key) ∨
          value ∈ request.added key) ∧
      ((merged order request isFresh source).2 = true ↔ isFresh = true ∨
        ∃ key, ∃ value ∈ request.added key,
          value ∉ elements ((assigned request isFresh source).lookup key)) :=
  mergeFields_spec order request.union.nodupKeys (assigned request isFresh source, isFresh)

section Carrying

variable (projection : Projection owned requests) (order : HashOrder)
  {carriedOut : List UpsertRequest} {source : Fields} {request : UpsertRequest}
  (mine : request ∈ requests) (projected : Projected owned requests carriedOut source)
include projection order mine projected

/-- What the script makes of the source, whether it then writes it or not. -/
theorem projected_merged (isNewest : carriedOut.argmax UpsertRequest.documentVersion = some newest)
    (holds : ∀ key ∈ owned, source.lookup key = newest.value key) :
    Projected owned requests (carriedOut ++ [request]) (merged order request
      (decide (newest.documentVersion < request.documentVersion)) source).1 := by
  obtain ⟨others, elementwise, _⟩ := merged_spec order request
    (decide (newest.documentVersion < request.documentVersion)) source
  have ownedApart : ∀ key ∈ owned, key ∉ request.union := fun key inside there =>
    projection.unionApart request mine key there inside
  constructor
  · rw [List.argmax_concat, isNewest]
    by_cases newer : newest.documentVersion < request.documentVersion
    · refine ⟨request, by simp [newer], fun key inside => ?_⟩
      rw [others key (ownedApart key inside), decide_eq_true newer,
        lookup_assigned_owned projection mine source inside]
    · refine ⟨newest, by simp [newer], fun key inside => ?_⟩
      rw [others key (ownedApart key inside), decide_eq_false newer]
      exact holds key inside
  · intro key outside notCreated value
    rw [elementwise key value, lookup_assigned_outside projection mine _ source outside,
      projected.accumulated key outside notCreated value]
    simp [or_and_right, exists_or]
  · obtain ⟨first, isFirst, kept⟩ := projected.created
    refine ⟨first, by simp [isFirst], fun key outside notMerged => ?_⟩
    rw [others key (notMerged request mine),
      lookup_assigned_outside projection mine _ source outside]
    exact kept key outside notMerged

/-- One more request: the script writes the source it makes, or finds the source as it should be. -/
theorem projected_script :
    ∃ next, Projected owned requests (carriedOut ++ [request]) next ∧
      (conditionalUpsertScript order (scriptBody request).params source = .index next ∨
        conditionalUpsertScript order (scriptBody request).params source = .noop ∧
          next = source) := by
  obtain ⟨newest, isNewest, holds⟩ := projected.newest
  have after := projected_merged projection order mine projected isNewest holds
  have versionOwned : "document_version" ∈ owned :=
    projection.sameFields request mine ▸ request.version_owned
  have decided := fresh_of_version request (holds _ versionOwned)
  rw [script_of_fresh order decided]
  obtain ⟨others, elementwise, changed⟩ := merged_spec order request
    (decide (newest.documentVersion < request.documentVersion)) source
  by_cases wrote : (merged order request
      (decide (newest.documentVersion < request.documentVersion)) source).2 = true
  · exact ⟨_, after, .inl (if_pos wrote)⟩
  · refine ⟨source, ?_, .inr ⟨if_neg wrote, rfl⟩⟩
    -- nothing was assigned and nothing was missing, so the merged source says what `source` says
    have nothing := mt changed.mpr wrote
    push Not at nothing
    obtain ⟨notFresh, present⟩ := nothing
    rw [Bool.eq_false_iff.mpr notFresh] at after others elementwise present
    apply after.congr
    · intro key inside
      exact (others key fun there => projection.unionApart request mine key there inside).symm
    · intro key value
      rw [elementwise key value]
      exact ⟨.inl, fun either => either.elim id (present key value)⟩
    · intro key notMerged
      exact (others key (notMerged request mine)).symm

/-- A request that is already in the document. -/
theorem script_noop (again : request ∈ carriedOut) :
    conditionalUpsertScript order (scriptBody request).params source = .noop := by
  obtain ⟨newest, isNewest, holds⟩ := projected.newest
  have versionOwned : "document_version" ∈ owned :=
    projection.sameFields request mine ▸ request.version_owned
  have stale : ¬ newest.documentVersion < request.documentVersion :=
    List.not_lt_of_mem_argmax again isNewest
  rw [script_of_fresh order (fresh_of_version request (holds _ versionOwned)),
    decide_eq_false stale]
  apply if_neg
  obtain ⟨_, _, changed⟩ := merged_spec order request false source
  rw [changed]
  rintro (isFresh | ⟨key, value, adds, missing⟩)
  · exact absurd isFresh (by decide)
  · have merging : key ∈ request.union := by
      by_contra absent
      rw [UpsertRequest.added, AList.lookup_eq_none.mpr absent] at adds
      exact absurd adds List.not_mem_nil
    have outside := projection.unionApart request mine key merging
    have notCreated : ∀ other ∈ requests, key ∉ other.createOnly := fun other theirs =>
      projection.rolesApart request mine other theirs key merging
    exact missing ((projected.accumulated key outside notCreated value).mpr ⟨request, again, adds⟩)

end Carrying

end OneDocument

/-! ### Deliveries -/

def Delivery.appliesTo (delivery : Delivery) (address : Address) : Bool :=
  decide (delivery.address = address) && delivery.attempt.carriedOut

/-- The requests carried out on one document, oldest first. -/
def applied (address : Address) (history : List Delivery) : List UpsertRequest :=
  (history.filter (·.appliesTo address)).map Delivery.request

/-- The document after those requests. -/
def Documented (owned : Finset String) (requests : List UpsertRequest) :
    List UpsertRequest → Option Fields → Prop
  | [], document => document = none
  | carriedOut, document =>
      ∃ source, document = some source ∧ Projected owned requests carriedOut source

theorem run_append (order : HashOrder) (documents : Documents) (before after : List Delivery) :
    run order documents (before ++ after) = run order (run order documents before) after :=
  List.foldl_append

/-- A delivery leaves every other document alone, and its own when it is refused. -/
theorem sendOne_frame (order : HashOrder) (documents : Documents) {address : Address}
    (away : delivery.appliesTo address = false) :
    (sendOne order documents delivery).1 address = documents address := by
  have untouched : delivery.address ≠ address →
      (update order documents delivery.address (scriptBody delivery.request)).1 address =
        documents address := by
    intro elsewhere
    rw [update]
    split
    · exact Function.update_of_ne elsewhere.symm _ _
    · split
      · exact Function.update_of_ne elsewhere.symm _ _
      · rfl
      · rfl
  rw [sendOne]
  cases attempt : delivery.attempt with
  | refused status error => rfl
  | served => exact untouched (by simpa [Delivery.appliesTo, attempt, Attempt.carriedOut] using away)
  | lost => exact untouched (by simpa [Delivery.appliesTo, attempt, Attempt.carriedOut] using away)

theorem sendOne_applied (order : HashOrder) (documents : Documents) {address : Address}
    (here : delivery.appliesTo address = true) :
    (sendOne order documents delivery).1 address =
      (update order documents address (scriptBody delivery.request)).1 address := by
  rw [Delivery.appliesTo, Bool.and_eq_true, decide_eq_true_eq] at here
  obtain ⟨rfl, carried⟩ := here
  rw [sendOne]
  cases attempt : delivery.attempt with
  | refused status error => simp [attempt, Attempt.carriedOut] at carried
  | served => rfl
  | lost => rfl

section History

variable {owned : Finset String} {requests : List UpsertRequest}
  (projection : Projection owned requests) (order : HashOrder) {address : Address}
include projection

theorem Documented.update {carriedOut : List UpsertRequest} {request : UpsertRequest}
    (mine : request ∈ requests)
    (documented : Documented owned requests carriedOut (documents address)) :
    Documented owned requests (carriedOut ++ [request])
      ((Index.update order documents address (scriptBody request)).1 address) := by
  rcases carriedOut with _ | ⟨first, rest⟩
  · -- the document is created
    rw [Documented] at documented
    refine ⟨initialDocument request, ?_, projection.projected_initialDocument mine⟩
    simp [Index.update, documented, scriptBody]
  · obtain ⟨source, held, projected⟩ := documented
    obtain ⟨next, after, outcome⟩ := projected_script projection order mine projected
    refine ⟨next, ?_, after⟩
    rcases outcome with wrote | ⟨skipped, rfl⟩
    · simp [Index.update, held, wrote]
    · simp [Index.update, held, skipped]

/-- What one delivery keeps. -/
theorem Documented.sendOne {before : List Delivery}
    (mine : delivery.address = address → delivery.request ∈ requests)
    (documented : Documented owned requests (applied address before) (documents address)) :
    Documented owned requests (applied address (before ++ [delivery]))
      ((Index.sendOne order documents delivery).1 address) := by
  cases here : delivery.appliesTo address with
  | false =>
    rw [sendOne_frame order documents here]
    simpa [applied, here] using documented
  | true =>
    rw [sendOne_applied order documents here]
    have atAddress : delivery.address = address := by
      simp only [Delivery.appliesTo, Bool.and_eq_true, decide_eq_true_eq] at here
      exact here.1
    have next := documented.update projection order (mine atAddress)
    simpa [applied, here] using next

/-- What any history keeps. -/
theorem documented_run (absent : documents address = none) (history : List Delivery)
    (only : ∀ delivery ∈ history, delivery.address = address → delivery.request ∈ requests) :
    Documented owned requests (applied address history)
      (run order documents history address) := by
  induction history using List.reverseRecOn with
  | nil => exact absent
  | append_singleton before delivery ih =>
    have documented := ih fun other among =>
      only other (List.mem_append_left _ among)
    rw [run_append]
    exact documented.sendOne projection order
      (only delivery (List.mem_append_right _ List.mem_cons_self))

end History

/-- **Convergence.** One document is projected by some requests, in any order and with any number of
redeliveries, among deliveries for other documents. Once every request was carried out, each owned
field is as in the request with the greatest version, the accumulated fields hold the values of all
requests, and the other fields are those the first request wrote at creation. And at any time, a
request that was carried out before is a `noop`. -/
theorem projection_converges (order : HashOrder) {owned : Finset String}
    {requests : List UpsertRequest} (projection : Projection owned requests) {address : Address}
    {documents : Documents} (absent : documents address = none) {history : List Delivery}
    (only : ∀ delivery ∈ history, delivery.address = address → delivery.request ∈ requests)
    (all : ∀ request ∈ requests, request ∈ applied address history) :
    (∀ first, (applied address history).head? = some first →
      ∃ source, run order documents history address = some source ∧
        (∀ newest ∈ requests,
          (∀ other ∈ requests, other.documentVersion ≤ newest.documentVersion) →
            ∀ key ∈ owned, source.lookup key = newest.value key) ∧
        (∀ key, (∃ request ∈ requests, key ∈ request.union) →
          ∀ value, value ∈ elements (source.lookup key) ↔
            ∃ request ∈ requests, value ∈ request.added key) ∧
        (∀ key, key ∉ owned → (∀ request ∈ requests, key ∉ request.union) →
          source.lookup key = first.createOnly.lookup key)) ∧
      ∀ before delivery after, history = before ++ delivery :: after →
        delivery.address = address → delivery.request ∈ applied address before →
          update order (run order documents before) address (scriptBody delivery.request) =
            (run order documents before, .result "noop") := by
  have carried : ∀ request ∈ applied address history, request ∈ requests := by
    intro request among
    obtain ⟨delivery, inside, rfl⟩ := List.mem_map.mp among
    obtain ⟨among, here⟩ := List.mem_filter.mp inside
    simp only [Delivery.appliesTo, Bool.and_eq_true, decide_eq_true_eq] at here
    exact only delivery among here.1
  constructor
  · intro first isFirst
    have documented := documented_run projection order absent history only
    rcases done : applied address history with _ | ⟨head, rest⟩
    · simp [done] at isFirst
    · rw [done] at documented
      obtain ⟨source, held, projected⟩ := documented
      rw [← done] at projected
      refine ⟨source, held, ?_, ?_, ?_⟩
      · intro newest mine greatest key inside
        obtain ⟨other, isNewest, holds⟩ := projected.newest
        have upper := List.le_of_mem_argmax (all newest mine) isNewest
        have theirs := carried other (List.argmax_mem isNewest)
        have same : other = newest :=
          List.inj_on_of_nodup_map projection.distinct theirs mine
            (le_antisymm (greatest other theirs) upper)
        exact same ▸ holds key inside
      · rintro key ⟨request, mine, merging⟩ value
        rw [projected.accumulated key (projection.unionApart request mine key merging)
          fun other theirs => projection.rolesApart request mine other theirs key merging]
        constructor
        · rintro ⟨other, among, adds⟩
          exact ⟨other, carried other among, adds⟩
        · rintro ⟨other, theirs, adds⟩
          exact ⟨other, all other theirs, adds⟩
      · intro key outside notMerged
        obtain ⟨other, isOther, kept⟩ := projected.created
        rw [isFirst, Option.some.injEq] at isOther
        exact isOther ▸ kept key outside notMerged
  · rintro before delivery after rfl here again
    have documented := documented_run projection order absent before
      fun other among => only other (List.mem_append_left _ among)
    rcases done : applied address before with _ | ⟨head, rest⟩
    · simp [done] at again
    · rw [done] at documented
      obtain ⟨source, held, projected⟩ := documented
      rw [← done] at projected
      have mine := only delivery (List.mem_append_right _ List.mem_cons_self) here
      rw [update, held]
      simp only [script_noop projection order mine projected again]

/-! ### A pull request whose size became unknown -/

def known : UpsertRequest where
  entityAlias := .pullRequests
  id := "42-7"
  routing := "42"
  doc := [⟨"document_version", .number 1⟩, ⟨"additions", .number 3⟩].toAList
  documentVersion := 1
  versioned := rfl
  union := [⟨"tags", [.string "x"]⟩].toAList
  noRelation := by decide
  createOnly := [⟨"links_pending", .bool true⟩].toAList
  remove := []

def unknown : UpsertRequest where
  entityAlias := .pullRequests
  id := "42-7"
  routing := "42"
  doc := [⟨"document_version", .number 2⟩].toAList
  documentVersion := 2
  versioned := rfl
  union := [⟨"tags", [.string "y"]⟩].toAList
  noRelation := by decide
  createOnly := [⟨"links_pending", .bool true⟩].toAList
  remove := ["additions"]

theorem known_unknown_projection : Projection {"document_version", "doc_id", "additions"} [known, unknown] where
  distinct := by decide
  sameFields := by decide
  setOrRemoved := by decide
  unionApart := by
    have roles : ∀ request ∈ [known, unknown], ∀ key ∈ request.union.keys,
        key ∉ ({"document_version", "doc_id", "additions"} : Finset String) := by decide
    exact roles
  createOnlyApart := by
    have roles : ∀ request ∈ [known, unknown], ∀ key ∈ request.createOnly.keys,
        key ∉ ({"document_version", "doc_id", "additions"} : Finset String) := by decide
    exact roles
  rolesApart := by
    have roles : ∀ request ∈ [known, unknown], ∀ other ∈ [known, unknown],
        ∀ key ∈ request.union.keys, key ∉ other.createOnly.keys := by decide
    exact roles

/-- The later event arrives first, and once more at the end; the earlier one is carried out between
them, though its response is lost. -/
def overtaken : List Delivery :=
  [⟨unknown, "prs-pull-requests", .served⟩, ⟨known, "prs-pull-requests", .lost⟩,
    ⟨unknown, "prs-pull-requests", .served⟩]

def empty : Documents := fun _ => none

theorem overtaken_converges :
    ∃ source, run ⟨id, fun _ => .rfl⟩ empty overtaken
        ⟨"prs-pull-requests", "42-7", "42"⟩ = some source ∧
      source.lookup "additions" = none ∧
      Json.string "x" ∈ elements (source.lookup "tags") ∧
      source.lookup "links_pending" = some (.bool true) := by
  have carried : applied ⟨"prs-pull-requests", "42-7", "42"⟩ overtaken =
      [unknown, known, unknown] := rfl
  have only : ∀ delivery ∈ overtaken, delivery.address = ⟨"prs-pull-requests", "42-7", "42"⟩ →
      delivery.request ∈ [known, unknown] := by simp [overtaken]
  have all : ∀ request ∈ [known, unknown],
      request ∈ applied ⟨"prs-pull-requests", "42-7", "42"⟩ overtaken := by simp [carried]
  have absent : empty ⟨"prs-pull-requests", "42-7", "42"⟩ = none := rfl
  obtain ⟨source, held, newest, accumulated, created⟩ :=
    (projection_converges ⟨id, fun _ => .rfl⟩ known_unknown_projection absent only all).1
      unknown rfl
  refine ⟨source, held, ?_, ?_, ?_⟩
  · exact newest unknown (by simp) (by simp [known, unknown]) "additions" (by decide)
  · refine (accumulated "tags" ⟨known, by simp, by decide⟩ _).mpr ⟨known, by simp, ?_⟩
    decide
  · have outside : ∀ request ∈ [known, unknown], "links_pending" ∉ request.union := by decide
    exact created "links_pending" (by decide) outside

/-! ### Dual writes -/

/-- The document after a request that is carried out. -/
def afterUpsert (order : HashOrder) (document : Option Fields) (request : UpsertRequest) :
    Option Fields :=
  match document with
  | none => some (scriptBody request).upsert
  | some source =>
      match conditionalUpsertScript order (scriptBody request).params source with
      | .index next => some next
      | _ => some source

variable {order : HashOrder} {lost : BulkItemOutcome} {documents others : Documents}
  {history : List Delivery} {address : Address}

theorem sendOne_apply : (sendOne order documents delivery).1 address =
    if delivery.appliesTo address then afterUpsert order (documents address) delivery.request
    else documents address := by
  cases here : delivery.appliesTo address with
  | false => exact sendOne_frame order documents here
  | true =>
    rw [sendOne_applied order documents here, update, if_pos rfl]
    unfold afterUpsert
    cases held : documents address with
    | none => simp
    | some source =>
      cases made : conditionalUpsertScript order (scriptBody delivery.request).params source <;>
        simp [made, held]

/-- A document is what the requests carried out on it make of it, one after the other. -/
theorem run_apply : run order documents history address =
    (applied address history).foldl (afterUpsert order) (documents address) := by
  induction history generalizing documents with
  | nil => rfl
  | cons delivery rest ih =>
    have first : run order documents (delivery :: rest) =
      run order (sendOne order documents delivery).1 rest := rfl
    rw [first, ih, sendOne_apply]
    cases here : delivery.appliesTo address <;> simp [applied, here]

theorem run_frame (away : ∀ delivery ∈ history, delivery.address ≠ address) :
    run order documents history address = documents address := by
  have untouched : applied address history = [] := by
    simp only [applied, List.map_eq_nil_iff, List.filter_eq_nil_iff]
    intro delivery member
    simp [Delivery.appliesTo, away delivery member]
  rw [run_apply, untouched, List.foldl_nil]

/-- The outcomes tell about the documents that are written, and no others. -/
theorem sendAll_congr {P : Address → Prop}
    (agree : ∀ address, P address → documents address = others address)
    (inside : ∀ delivery ∈ history, P delivery.address) :
    sendAll order lost documents history = sendAll order lost others history := by
  induction history generalizing documents others with
  | nil => rfl
  | cons delivery rest ih =>
    rw [List.forall_mem_cons] at inside
    have outcome : (sendOne order documents delivery).2 = (sendOne order others delivery).2 := by
      simp only [sendOne, update, agree _ inside.1]
      cases others delivery.address with
      | none => cases delivery.attempt <;> rfl
      | some source =>
        cases made : conditionalUpsertScript order (scriptBody delivery.request).params source <;>
          cases delivery.attempt <;> simp [made]
    have next : ∀ address, P address → (sendOne order documents delivery).1 address =
        (sendOne order others delivery).1 address := by
      intro address among
      rw [sendOne_apply, sendOne_apply, agree address among]
    simp only [sendAll, outcome, ih next inside.2]

/-- An outcome is good when the operation was served. -/
theorem served_of_ok (bad : ∀ value, lost ≠ .ok value)
    (good : ∀ one ∈ sendAll order lost documents history, ∃ value, one.2 = .ok value) :
    ∀ delivery ∈ history, delivery.attempt = .served := by
  induction history generalizing documents with
  | nil => exact List.forall_mem_nil _
  | cons delivery rest ih =>
    simp only [sendAll, List.forall_mem_cons] at good ⊢
    obtain ⟨⟨value, is⟩, later⟩ := good
    refine ⟨?_, ih later⟩
    cases attempt : delivery.attempt with
    | served => rfl
    | refused status error => simp [attempt, sendOne, failed] at is
    | lost => exact absurd (by simpa [attempt] using is) (bad value)

/-- No shadow is served, and each is the shadow of one alias. -/
def Apart (targets : WriteTargets) : Prop :=
  ∀ entity index, targets entity = some index →
    ∀ other : EntityAlias, index ≠ other.name ∧ (targets other = some index → other = entity)

def Served (address : Address) : Prop := ∃ entity : EntityAlias, address.index = entity.name

/-- With the shadows the callers see the outcomes, and the served indices hold the documents, that there
are without; and a shadow that had the document that is served has it still, unless some outcome is a
failure or the failure of a shadow is reported. -/
structure Mirrors (targets : WriteTargets) (documents : Documents) (doubled alone : BulkUpsertResult) :
    Prop where
  outcomes : doubled.outcomes = alone.outcomes
  served : ∀ address, Served address → doubled.documents address = alone.documents address
  mirrored : ∀ entity index id routing, targets entity = some index →
    documents ⟨index, id, routing⟩ = documents ⟨entity.name, id, routing⟩ →
    (∀ outcome ∈ doubled.outcomes, ∃ value, outcome = .ok value) → doubled.shadowFailures = [] →
      doubled.documents ⟨index, id, routing⟩ = doubled.documents ⟨entity.name, id, routing⟩

variable {targets : WriteTargets} {requests : List Attempted}

theorem served_servedPlan : ∀ delivery ∈ servedPlan requests, Served delivery.address := by
  intro delivery member
  obtain ⟨one, -, rfl⟩ := List.mem_map.mp member
  exact ⟨one.1.entityAlias, rfl⟩

variable (apart : Apart targets)
include apart

theorem not_served_shadowPlan : ∀ delivery ∈ shadowPlan targets requests, ¬ Served delivery.address := by
  rintro delivery member ⟨entity, isServed⟩
  obtain ⟨one, -, planned⟩ := List.mem_filterMap.mp member
  obtain ⟨index, target, rfl⟩ := Option.map_eq_some_iff.mp planned
  exact (apart _ _ target entity).1 isServed

/-- A document and its shadow get the same requests. -/
theorem applied_shadowPlan {entity : EntityAlias} {index id routing : String}
    (mirrored : targets entity = some index)
    (served : ∀ delivery ∈ servedPlan requests, delivery.attempt = .served)
    (shadow : ∀ delivery ∈ shadowPlan targets requests, delivery.attempt = .served) :
    applied ⟨index, id, routing⟩ (shadowPlan targets requests) =
      applied ⟨entity.name, id, routing⟩ (servedPlan requests) := by
  induction requests with
  | nil => rfl
  | cons one rest ih =>
    obtain ⟨request, attempt, attempt'⟩ := one
    have names : request.entityAlias.name = entity.name ↔ request.entityAlias = entity := by
      cases request.entityAlias <;> cases entity <;> decide
    simp only [servedPlan, shadowPlan, List.map_cons, List.forall_mem_cons, List.filterMap_cons]
      at ih served shadow ⊢
    obtain ⟨rfl, served⟩ := served
    cases target : targets request.entityAlias with
    | none =>
      have other : request.entityAlias ≠ entity := fun same => by simp [← same, target] at mirrored
      rw [target] at shadow
      simpa [applied, Delivery.appliesTo, Delivery.address, names, other] using ih served shadow
    | some shadowIndex =>
      have same : shadowIndex = index ↔ request.entityAlias = entity := by
        refine ⟨?_, fun same => Option.some.inj (target.symm.trans (same ▸ mirrored))⟩
        rintro rfl
        exact (apart entity _ mirrored _).2 target
      simp only [target, Option.map_some, List.forall_mem_cons] at shadow
      obtain ⟨rfl, shadow⟩ := shadow
      have later := ih served shadow
      by_cases here : request.entityAlias = entity ∧ request.id = id ∧ request.routing = routing <;>
        simpa [applied, Delivery.appliesTo, Delivery.address, Attempt.carriedOut, names, same, here]
          using later

theorem writeBoth_mirrors {operation : String} (bad : ∀ value, lost ≠ .ok value)
    (agree : ∀ address, Served address → documents address = others address) :
    Mirrors targets documents (writeBoth order lost operation targets documents requests)
      (writeBoth order lost operation (fun _ => none) others requests) := by
  have kept : ∀ address, Served address →
      (writeBoth order lost operation targets documents requests).documents address =
        run order documents (servedPlan requests) address :=
    fun address isServed => run_frame fun delivery member same =>
      not_served_shadowPlan apart delivery member (same ▸ isServed)
  constructor
  · exact congrArg (List.map Prod.snd) (sendAll_congr agree served_servedPlan)
  · intro address isServed
    have none_planned : shadowPlan (fun _ => none) requests = [] := by simp [shadowPlan]
    rw [kept address isServed, writeBoth, none_planned, run_apply, agree address isServed]
    exact run_apply.symm
  · intro entity index id routing mirrored same good quiet
    have away : ∀ delivery ∈ servedPlan requests, delivery.address ≠ ⟨index, id, routing⟩ := by
      intro delivery member at_
      obtain ⟨other, isServed⟩ := at_ ▸ served_servedPlan delivery member
      exact (apart entity index mirrored other).1 isServed
    have first := served_of_ok bad fun one member => good _ (List.mem_map_of_mem member)
    have second := served_of_ok bad fun one member => by
      have told := List.filterMap_eq_nil_iff.mp quiet one member
      cases outcome : one.2 with
      | ok value => exact ⟨value, rfl⟩
      | failed kind status reason => simp [shadowFailure, outcome] at told
    rw [kept ⟨entity.name, id, routing⟩ ⟨entity, rfl⟩, run_apply,
      ← applied_shadowPlan apart mirrored first second, ← same]
    exact run_apply.trans (by rw [run_frame away])

/-- Some bulk requests and updates of one document, one after the other. -/
def writeAll (order : HashOrder) (targets : WriteTargets) :
    Documents → List (List Attempted ⊕ Attempted) → BulkUpsertResult
  | documents, [] => ⟨documents, [], []⟩
  | documents, write :: rest =>
      let first := write.elim (bulkUpsert order targets documents) (upsertOne order targets documents)
      let later := writeAll order targets first.documents rest
      ⟨later.documents, first.outcomes ++ later.outcomes, first.shadowFailures ++ later.shadowFailures⟩

/-- **Dual writes.** While an index is built anew each write goes to what is served and to its shadow, in
every sequence of writes and whatever becomes of their operations. -/
theorem dual_writes_mirror (writes : List (List Attempted ⊕ Attempted))
    (agree : ∀ address, Served address → documents address = others address) :
    Mirrors targets documents (writeAll order targets documents writes)
      (writeAll order (fun _ => none) others writes) := by
  induction writes generalizing documents others with
  | nil => exact ⟨rfl, agree, fun _ _ _ _ _ same _ _ => same⟩
  | cons write rest ih =>
    have first : Mirrors targets documents
        (write.elim (bulkUpsert order targets documents) (upsertOne order targets documents))
        (write.elim (bulkUpsert order (fun _ => none) others) (upsertOne order (fun _ => none) others)) := by
      cases write with
      | inl requests => exact writeBoth_mirrors apart (by simp) agree
      | inr request => exact writeBoth_mirrors apart (by simp [failed]) agree
    have later := ih first.served
    refine ⟨congrArg₂ _ first.outcomes later.outcomes, later.served, ?_⟩
    intro entity index id routing target same good quiet
    simp only [writeAll, List.forall_mem_append, List.append_eq_nil_iff] at good quiet
    exact later.mirrored _ _ _ _ target (first.mirrored _ _ _ _ target same good.1 quiet.1) good.2 quiet.2

omit apart

/-- The size becomes unknown while pull requests are built anew. -/
def rebuilding : WriteTargets
  | .pullRequests => some "prs-pull-requests-v2"
  | _ => none

def rebuilt : List (List Attempted ⊕ Attempted) :=
  [.inl [(known, .served, .served)], .inr (unknown, .served, .lost)]

theorem dual_writes_mirror_rebuilt : Mirrors rebuilding empty
    (writeAll ⟨id, fun _ => .rfl⟩ rebuilding empty rebuilt)
    (writeAll ⟨id, fun _ => .rfl⟩ (fun _ => none) empty rebuilt) := by
  refine dual_writes_mirror ?_ rebuilt fun _ _ => rfl
  intro entity index target other
  cases entity <;> cases target
  cases other <;> decide

end PrSearch.Index
