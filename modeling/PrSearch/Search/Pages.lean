import PrSearch.Search.Hints
import PrSearch.Search.SortOrder

/-! # The pages of a list

Each page begins behind the last item of the page before it. Read to the end, the pages are what the search
finds, each document once and in the order of the sort.
-/
namespace PrSearch.Search.Listing

open Index Query Authz

variable {field : String} {type : FieldType}

section Pages

variable {σ : Type} [LinearOrder σ]

/-- Follows `next_cursor`; each request comes at its time. -/
def readPages (request : SearchRequest σ) (deps : SearchDeps σ) (times : Nat → Int) :
    Nat → Nat → Option (Envelope σ) → List (Except SearchError (SearchResult σ))
  | 0, _, _ => []
  | fuel + 1, page, cursor =>
      let result := runSearch { request with cursor := cursor } { deps with now := times page }
      match result with
      | .error _ => [result]
      | .ok answer =>
          match answer.nextCursor with
          | none => [result]
          | some next => result :: readPages request deps times fuel (page + 1) (some next)

def listed (pages : List (SearchResult σ)) : List StoredDocument := pages.flatMap SearchResult.items

/-- The pages are what a search finds. -/
structure Partition (request : SearchRequest σ) (deps : SearchDeps σ) (pages : List (SearchResult σ)) :
    Prop where
  sizes : ∀ (i : Nat) page, pages[i]? = some page → i + 1 < pages.length →
    page.items.length = request.size
  ends : ∃ last, pages.getLast? = some last ∧ last.nextCursor = none
  all : (listed pages).Perm (request.finds deps)
  once : ((listed pages).map StoredDocument.docId).Nodup
  order : ∀ asked ∈ request.searched deps,
    let sort := buildSort request.sortKey request.order
    (listed pages).Pairwise fun earlier later =>
      comesAfter sort (sortValues deps.elastic asked.query sort earlier)
        (sortValues deps.elastic asked.query sort later) = true
  missing : ∀ field type, sortField request.sortKey = some (field, type) →
    (∀ document ∈ request.finds deps, ∀ value ∈ deps.elastic.docValue field document.fields,
      missingSentinel type .desc < value ∧ value < missingSentinel type .asc) →
    (listed pages).Pairwise fun earlier later =>
      deps.elastic.docValue field earlier.fields = none → deps.elastic.docValue field later.fields = none

variable {request : SearchRequest σ} {deps : SearchDeps σ} {times : Nat → Int}
  {asked : ScopedSearchRequest} {whole rest : List StoredDocument} {cursor : Option (Envelope σ)}
  {page : Nat}

/-- With a query a search shows its page, and when something is found it does not fail. -/
theorem runSearch_of_runPage (request : SearchRequest σ) (deps : SearchDeps σ)
    (searched : request.searched deps = some asked) {hits : Nat} {items : List StoredDocument}
    {nextCursor : Option (Envelope σ)}
    (isPage : runPage request deps asked.target asked.query = .ok (hits, items, nextCursor)) :
    (∀ result, runSearch request deps = .ok result →
      result.items = items ∧ result.nextCursor = nextCursor) ∧
    (hits ≠ 0 → ∃ result, runSearch request deps = .ok result) := by
  unfold SearchRequest.searched at searched
  unfold runSearch
  simp only at searched ⊢
  split at searched
  next target resolution isTarget names =>
    simp only [isTarget, names]
    cases isBuilt : buildQuery deps.zones (resolveSearchTarget request.ast deps.baseTarget).ast
        resolution request.options with
    | error _ => simp [isBuilt] at searched
    | ok built =>
      simp only [isBuilt] at searched ⊢
      split at searched
      next => cases searched
      next query isQuery =>
        cases searched
        simp only at isPage
        simp only [isQuery, isPage, totalOf_value]
        constructor
        · intro result ran
          split at ran
          next =>
            split at ran
            next => cases ran
            next =>
              cases ran
              exact ⟨rfl, rfl⟩
          next =>
            cases ran
            exact ⟨rfl, rfl⟩
        · intro some_
          rw [if_neg some_]
          exact ⟨_, rfl⟩
  next => cases searched

/-- Without a query a search that succeeds shows nothing. -/
theorem runSearch_unsearched (request : SearchRequest σ) (deps : SearchDeps σ)
    (none_ : request.searched deps = none)
    {result : SearchResult σ} (ran : runSearch request deps = .ok result) :
    result.items = [] ∧ result.nextCursor = none := by
  unfold SearchRequest.searched at none_
  unfold runSearch at ran
  simp only at none_ ran
  split at ran
  next =>
    split at ran
    next => cases ran
    next =>
      cases ran
      exact ⟨rfl, rfl⟩
  next target isTarget =>
    split at ran
    next => cases ran
    next resolution names =>
      simp only [isTarget, names] at none_
      cases isBuilt : buildQuery deps.zones (resolveSearchTarget request.ast deps.baseTarget).ast
          resolution request.options with
      | error _ => simp [isBuilt] at ran
      | ok built =>
        simp only [isBuilt] at ran none_
        cases isQuery : applyMandatoryScopeFilter built.query request.scope with
        | error _ => simp [isQuery] at ran
        | ok query => simp [isQuery] at none_

/-! ### One page -/

variable (request deps times asked) in
/-- A cursor stands before the rest of the list: at its start, or behind the last item of a page. -/
inductive StandsAt (whole : List StoredDocument) : Nat → Option (Envelope σ) → List StoredDocument → Prop
  | start : StandsAt whole 0 none whole
  | behind {page : Nat} {front rest : List StoredDocument} {item : StoredDocument} {pit : String}
      (split : whole = front ++ item :: rest) (indices : deps.elastic.indices pit = asked.target)
      (named : pit ≠ "") :
      StandsAt whole (page + 1)
        (some (encodeSearchCursor
          ⟨pit, sortValues deps.elastic asked.query (buildSort request.sortKey request.order) item⟩
          (computeFingerprint deps.hash request.fingerprintInput) deps.sign (times page))) rest

theorem buildSort_ne_nil (key : SortKey) (order : SortOrder) : buildSort key order ≠ [] :=
  List.ne_nil_of_mem (tiebreak_mem_buildSort key order)

variable (deps) in
theorem sortValues_ne_nil (document : StoredDocument) (query : Query) (key : SortKey)
    (order : SortOrder) : sortValues deps.elastic query (buildSort key order) document ≠ [] := by
  unfold sortValues
  rw [ne_eq, List.map_eq_nil_iff]
  exact buildSort_ne_nil key order

/-- A cursor is opened by the search that it was made for, in time. -/
theorem decode_encode (cursor : SearchCursor σ) {fingerprint : Text} (some_ : fingerprint ≠ [])
    (sign : CursorSigner σ) {issued now : Int} (inTime : now < issued + cursorTtlMs)
    (named : cursor.pitId ≠ "") (values : cursor.searchAfter ≠ []) :
    decodeSearchCursor (encodeSearchCursor cursor fingerprint sign issued) fingerprint sign now =
      .ok cursor := by
  simp [decodeSearchCursor, encodeSearchCursor, Int.not_le.mpr inTime, named, values, some_]

theorem getLast?_take {α : Type} {items : List α} {size : Nat} (positive : 1 ≤ size)
    (more : size < items.length) :
    ∃ front item, items.take size = front ++ [item] ∧ items = front ++ item :: items.drop size := by
  have some_ : items.take size ≠ [] := by
    intro empty
    have length := congrArg List.length empty
    rw [List.length_take, List.length_nil] at length
    omega
  refine ⟨(items.take size).dropLast, (items.take size).getLast some_,
    (List.dropLast_append_getLast some_).symm, ?_⟩
  have together := List.take_append_drop size items
  rw [← List.dropLast_append_getLast some_, List.append_assoc, List.singleton_append] at together
  exact together.symm

/-- A point in time goes on under the name that the response gives it. -/
theorem live_pit (elastic : Elastic σ) {pit : String} {target : List EntityAlias}
    (indices : elastic.indices pit = target) (named : pit ≠ "") :
    elastic.indices ((elastic.renewed pit).getD pit) = target ∧ (elastic.renewed pit).getD pit ≠ "" := by
  cases renewed : elastic.renewed pit with
  | none => exact ⟨indices, named⟩
  | some other =>
    obtain ⟨same, named'⟩ := elastic.kept pit other renewed
    exact ⟨same.trans indices, named'⟩

/-- What is behind the cursor is what the index answers. -/
theorem resume_spec (digest : ∀ text, deps.hash text ≠ [])
    (inTime : ∀ page, times (page + 1) < times page + cursorTtlMs)
    (distinct : (deps.elastic.documents.map StoredDocument.docId).Nodup)
    (isWhole : whole = sorted deps.elastic asked.query (buildSort request.sortKey request.order)
      (found deps.elastic asked.query asked.target))
    (stands : StandsAt request deps times asked whole page cursor rest) :
    ∃ resumed pit, resume { request with cursor := cursor } { deps with now := times page }
        (computeFingerprint deps.hash request.fingerprintInput) = .ok resumed ∧
      (resumed.map SearchCursor.pitId).getD (deps.elastic.openPointInTime asked.target) = pit ∧
      deps.elastic.indices pit = asked.target ∧ pit ≠ "" ∧ (∃ front, whole = front ++ rest) ∧
      ∀ size, searchWithPit deps.elastic asked.query pit size (buildSort request.sortKey request.order)
        (resumed.map SearchCursor.searchAfter) = ⟨whole.length, rest.take size⟩ := by
  cases stands with
  | start =>
    obtain ⟨indices, named⟩ := deps.elastic.opened asked.target
    refine ⟨none, deps.elastic.openPointInTime asked.target, rfl, rfl, indices, named, ⟨[], rfl⟩,
      fun size => ?_⟩
    simp only [searchWithPit, indices, Option.map_none, isWhole]
  | @behind page front rest item pit split indices named =>
    have opened := decode_encode ⟨pit, sortValues deps.elastic asked.query
      (buildSort request.sortKey request.order) item⟩ (digest (material request.fingerprintInput))
      deps.sign (inTime page) named (sortValues_ne_nil deps item asked.query request.sortKey request.order)
    refine ⟨some ⟨pit, sortValues deps.elastic asked.query
      (buildSort request.sortKey request.order) item⟩, pit, ?_, rfl, indices, named, ⟨front ++ [item], by simp [split]⟩,
      fun size => ?_⟩
    · unfold resume
      simp only [computeFingerprint] at opened ⊢
      rw [opened]
      rfl
    · -- the items behind the last one are the rest of the sorted list
      have apart : ((found deps.elastic asked.query asked.target).map StoredDocument.docId).Nodup :=
        distinct.sublist ((List.filter_sublist).map _)
      have strict := sorted_strict deps.elastic asked.query
        (tiebreak_mem_buildSort request.sortKey request.order) apart
      rw [← isWhole, split] at strict
      have left := Paging.left_of_sorted strict
      simp only [searchWithPit, indices, Option.map_some, ← isWhole]
      rw [split]
      exact congrArg (SearchResponse.mk _) (congrArg (List.take size) left)

/-- The page behind a cursor, and the cursor behind the page. -/
theorem runPage_spec (digest : ∀ text, deps.hash text ≠ []) (positive : 1 ≤ request.size)
    (inTime : ∀ page, times (page + 1) < times page + cursorTtlMs)
    (distinct : (deps.elastic.documents.map StoredDocument.docId).Nodup)
    (isWhole : whole = sorted deps.elastic asked.query (buildSort request.sortKey request.order)
      (found deps.elastic asked.query asked.target))
    (stands : StandsAt request deps times asked whole page cursor rest) :
    ∃ next, runPage { request with cursor := cursor } { deps with now := times page } asked.target
        asked.query = .ok (whole.length, rest.take request.size, next) ∧
      if request.size < rest.length then
        StandsAt request deps times asked whole (page + 1) next (rest.drop request.size) ∧ next ≠ none
      else next = none := by
  obtain ⟨resumed, pit, isResumed, isPit, indices, named, ⟨front, split⟩, answers⟩ :=
    resume_spec digest inTime distinct isWhole stands
  have isResumed' : resume { request with cursor := cursor } { deps with now := times page }
      (computeFingerprint deps.hash
        (SearchRequest.fingerprintInput { request with cursor := cursor })) = .ok resumed := isResumed
  unfold runPage
  simp only [isResumed', isPit, answers, List.length_take]
  by_cases more : request.size < rest.length
  · have hasMore : request.size < min (request.size + 1) rest.length := by omega
    have taken : (rest.take (request.size + 1)).take request.size = rest.take request.size := by
      rw [List.take_take, Nat.min_eq_left (Nat.le_succ _)]
    obtain ⟨before, item, isPage, parts⟩ := getLast?_take positive more
    obtain ⟨live, named'⟩ := live_pit deps.elastic indices named
    obtain ⟨value, values, isValues⟩ := List.exists_cons_of_ne_nil
      (sortValues_ne_nil deps item asked.query request.sortKey request.order)
    simp only [hasMore, if_true, taken, isPage, List.getLast?_concat, Option.map_some, isValues, more]
    refine ⟨_, rfl, ?_, by simp⟩
    rw [← isValues]
    have split' : whole = (front ++ before) ++ item :: rest.drop request.size := by
      rw [List.append_assoc, ← parts, split]
    exact .behind split' live named'
  · have noMore : ¬ request.size < min (request.size + 1) rest.length := by omega
    have taken : rest.take (request.size + 1) = rest := List.take_of_length_le (by omega)
    have taken' : rest.take request.size = rest := List.take_of_length_le (by omega)
    simp only [noMore, if_false, taken, taken', more]
    refine ⟨_, rfl, ?_⟩
    split <;> rfl

/-! ### All pages -/

/-- The pages from a cursor on are what is behind it. -/
theorem readPages_spec (digest : ∀ text, deps.hash text ≠ []) (positive : 1 ≤ request.size)
    (inTime : ∀ page, times (page + 1) < times page + cursorTtlMs)
    (distinct : (deps.elastic.documents.map StoredDocument.docId).Nodup)
    (searched : request.searched deps = some asked)
    (isWhole : whole = sorted deps.elastic asked.query (buildSort request.sortKey request.order)
      (found deps.elastic asked.query asked.target))
    (runs : whole ≠ [] ∨ ∃ result,
      runSearch { request with cursor := cursor } { deps with now := times page } = .ok result)
    (stands : StandsAt request deps times asked whole page cursor rest) (fuel : Nat)
    (enough : rest.length < fuel) :
    ∃ pages, readPages request deps times fuel page cursor = pages.map .ok ∧ listed pages = rest ∧
      (∀ (i : Nat) page, pages[i]? = some page → i + 1 < pages.length →
        page.items.length = request.size) ∧
      ∃ last, pages.getLast? = some last ∧ last.nextCursor = none := by
  induction fuel generalizing page cursor rest with
  | zero => exact absurd enough (Nat.not_lt_zero _)
  | succ fuel ih =>
    obtain ⟨next, isPage, onwards⟩ := runPage_spec digest positive inTime distinct isWhole stands
    obtain ⟨shows, succeeds⟩ := runSearch_of_runPage { request with cursor := cursor }
      { deps with now := times page } searched isPage
    obtain ⟨result, ran⟩ : ∃ result, runSearch { request with cursor := cursor }
        { deps with now := times page } = .ok result := by
      rcases runs with some_ | ran
      · exact succeeds (fun none_ => some_ (List.eq_nil_of_length_eq_zero none_))
      · exact ran
    obtain ⟨items, isNext⟩ := shows result ran
    unfold readPages
    simp only [ran, isNext]
    by_cases more : request.size < rest.length
    · rw [if_pos more] at onwards
      obtain ⟨standsNext, some_⟩ := onwards
      obtain ⟨cursor', rfl⟩ := Option.ne_none_iff_exists'.mp some_
      have whole_ : whole ≠ [] := by
        rintro rfl
        cases standsNext with
        | behind split _ _ => exact absurd split.symm (by simp)
      have shorter : (rest.drop request.size).length < fuel := by
        rw [List.length_drop]
        omega
      obtain ⟨pages, reads, joined, sizes, last, isLast, ends⟩ := ih (.inl whole_) standsNext shorter
      refine ⟨result :: pages, by simp [reads], ?_, ?_, last, ?_, ends⟩
      · rw [listed, List.flatMap_cons, items]
        exact (congrArg _ joined).trans (List.take_append_drop _ _)
      · intro i other there later
        cases i with
        | zero =>
          obtain rfl := Option.some.inj there
          rw [items, List.length_take]
          omega
        | succ i => exact sizes i other there (by simpa using later)
      · rw [List.getLast?_cons, isLast, Option.getD_some]
    · rw [if_neg more] at onwards
      subst onwards
      refine ⟨[result], rfl, ?_, fun i other there later => absurd later (by simp), result, rfl, isNext⟩
      rw [listed, List.flatMap_singleton, items, List.take_of_length_le (by omega)]

/-- A document without a value comes after all that have one, where these lie between the bounds. -/
theorem missing_last {elastic : Elastic σ} {query : Query} {order : SortOrder}
    {sort : List SortCombination} {earlier later : StoredDocument}
    (between : ∀ value ∈ elastic.docValue field later.fields,
      missingSentinel type .desc < value ∧ value < missingSentinel type .asc)
    (after : comesAfter (fieldSort field type order :: sort)
      (sortValues elastic query (fieldSort field type order :: sort) earlier)
      (sortValues elastic query (fieldSort field type order :: sort) later) = true)
    (none_ : elastic.docValue field earlier.fields = none) :
    elastic.docValue field later.fields = none := by
  cases value : elastic.docValue field later.fields with
  | none => rfl
  | some n =>
    obtain ⟨above, below⟩ := between n value
    simp only [sortValues, List.map_cons, comesAfter_cons, sortValue, fieldSort, none_, value,
      Option.getD_none, Option.getD_some, precedes, SortCombination.order,
      SortValue.number.injEq] at after
    cases order with
    | asc =>
      simp only [ordered, decide_eq_true_eq] at after
      omega
    | desc =>
      simp only [ordered, decide_eq_true_eq] at after
      omega

theorem buildSort_field {key : SortKey} (order : SortOrder)
    (is : sortField key = some (field, type)) :
    ∃ sort, buildSort key order = fieldSort field type order :: sort := by
  unfold buildSort
  rw [is]
  dsimp only
  split <;> exact ⟨_, rfl⟩

/-- Read from the first page on, the pages are what the search finds. -/
theorem partition_readPages (digest : ∀ text, deps.hash text ≠ []) (positive : 1 ≤ request.size)
    (inTime : ∀ page, times (page + 1) < times page + cursorTtlMs)
    (distinct : (deps.elastic.documents.map StoredDocument.docId).Nodup)
    (first : ∃ result,
      runSearch { request with cursor := none } { deps with now := times 0 } = .ok result) :
    ∃ pages, readPages request deps times ((request.finds deps).length + 1) 0 none = pages.map .ok ∧
      Partition request deps pages := by
  cases searched : request.searched deps with
  | none =>
    obtain ⟨result, ran⟩ := first
    have nothing := runSearch_unsearched { request with cursor := none } { deps with now := times 0 }
      searched ran
    have finds : request.finds deps = [] := by rw [SearchRequest.finds, searched]
    have empty : listed [result] = [] := by rw [listed, List.flatMap_singleton, nothing.1]
    refine ⟨[result], ?_, ?_, ⟨result, rfl, nothing.2⟩, ?_, ?_, ?_, ?_⟩
    · unfold readPages
      simp only [ran, nothing.2]
      rfl
    · exact fun i page there later => absurd later (by simp)
    · rw [empty, finds]
    · rw [empty]
      exact List.nodup_nil
    · intro asked is
      rw [searched] at is
      cases is
    · rw [empty]
      exact fun _ _ _ _ => .nil
  | some asked =>
    have finds : request.finds deps = found deps.elastic asked.query asked.target := by
      rw [SearchRequest.finds, searched]
    have isWhole := Eq.refl (sorted deps.elastic asked.query (buildSort request.sortKey request.order)
      (found deps.elastic asked.query asked.target))
    have enough : (sorted deps.elastic asked.query (buildSort request.sortKey request.order)
        (found deps.elastic asked.query asked.target)).length < (request.finds deps).length + 1 := by
      rw [length_sorted, finds]
      exact Nat.lt_succ_self _
    obtain ⟨pages, reads, joined, sizes, ends⟩ := readPages_spec digest positive inTime distinct searched
      isWhole (.inr first) .start _ enough
    have perm : (listed pages).Perm (found deps.elastic asked.query asked.target) := by
      rw [joined]
      exact sorted_perm _ _ _ _
    have apart : ((found deps.elastic asked.query asked.target).map StoredDocument.docId).Nodup :=
      distinct.sublist ((List.filter_sublist).map _)
    have order : (listed pages).Pairwise fun earlier later =>
        comesAfter (buildSort request.sortKey request.order)
          (sortValues deps.elastic asked.query (buildSort request.sortKey request.order) earlier)
          (sortValues deps.elastic asked.query (buildSort request.sortKey request.order) later) = true := by
      rw [joined]
      exact (sorted_strict deps.elastic asked.query
        (tiebreak_mem_buildSort request.sortKey request.order) apart).2.imp And.left
    refine ⟨pages, reads, sizes, ends, ?_, (perm.map _).nodup_iff.mpr apart, ?_, ?_⟩
    · rwa [finds]
    · intro other is
      rw [searched] at is
      obtain rfl := Option.some.inj is
      exact order
    · intro field type isField between
      obtain ⟨sort, isSort⟩ := buildSort_field request.order isField
      rw [isSort] at order
      refine order.imp_of_mem fun {earlier later} _ inside after none_ => ?_
      refine missing_last (between later ?_) after none_
      rw [finds]
      exact perm.mem_iff.mp inside

end Pages
end PrSearch.Search.Listing
