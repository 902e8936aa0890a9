import PrSearch.Search.Pages

/-! # Fingerprints tell searches apart

The words of a material stand behind the query, which may have blanks of its own. Read from the end, the
material gives all of them back: the optional ones are told by their marks, and the others have no blanks.
-/
namespace PrSearch.Search.Listing

open Query Authz

/-! ### Words and lists -/

section Words

variable {words others : List Text} {c : Char}

theorem splitOn_of_not_mem {text : Text} (free : c ∉ text) : text.splitOn c = [text] := by
  induction text with
  | nil => rfl
  | cons first text ih =>
    rw [List.mem_cons, not_or] at free
    rw [List.splitOn_cons_eq_if_modifyHead, if_neg (by simpa using Ne.symm free.1), ih free.2]
    rfl

-- Joined words are given back by their separator.
theorem splitOn_join (some_ : words ≠ []) (free : ∀ word ∈ words, c ∉ word) :
    ([c].intercalate words).splitOn c = words := by
  induction words with
  | nil => exact absurd rfl some_
  | cons word rest ih =>
    have first := splitOn_of_not_mem (free word List.mem_cons_self)
    cases rest with
    | nil => simpa using first
    | cons next rest =>
      rw [List.intercalate_cons_cons, List.append_assoc, List.singleton_append,
        List.splitOn_append_cons_self, ih (List.cons_ne_nil next rest)
          fun word inside => free word (List.mem_cons_of_mem _ inside), first]
      rfl

theorem join_inj (free : ∀ word ∈ words, c ∉ word ∧ word ≠ []) (free' : ∀ word ∈ others, c ∉ word ∧ word ≠ [])
    (same : [c].intercalate words = [c].intercalate others) : words = others := by
  cases words with
  | nil =>
    cases others with
    | nil => rfl
    | cons word rest =>
      have split := splitOn_join (List.cons_ne_nil word rest) fun word inside => (free' word inside).1
      rw [← same] at split
      have one : word :: rest = [[]] := split.symm
      exact absurd (List.cons.inj one).1 (free' word List.mem_cons_self).2
  | cons word rest =>
    cases others with
    | nil =>
      have split := splitOn_join (List.cons_ne_nil word rest) fun word inside => (free word inside).1
      rw [same] at split
      have one : word :: rest = [[]] := split.symm
      exact absurd (List.cons.inj one).1 (free word List.mem_cons_self).2
    | cons word' rest' =>
      have split := splitOn_join (List.cons_ne_nil word rest) fun word inside => (free word inside).1
      rw [same, splitOn_join (List.cons_ne_nil word' rest') fun word inside => (free' word inside).1] at split
      exact split.symm

theorem not_mem_join {d : Char} (free : ∀ word ∈ words, d ∉ word) (other : d ≠ c) :
    d ∉ [c].intercalate words := by
  induction words with
  | nil => simp
  | cons word rest ih =>
    have first := free word List.mem_cons_self
    cases rest with
    | nil => simpa using first
    | cons next rest =>
      rw [List.intercalate_cons_cons, List.mem_append, List.mem_append, List.mem_singleton]
      rintro ((inside | is) | inside)
      · exact first inside
      · exact other is
      · exact ih (fun word member => free word (List.mem_cons_of_mem _ member)) inside

theorem sortedList_inj (free : ∀ word ∈ words, ',' ∉ word ∧ word ≠ [])
    (free' : ∀ word ∈ others, ',' ∉ word ∧ word ≠ []) (same : sortedList words = sortedList others)
    (word : Text) : word ∈ words ↔ word ∈ others := by
  have sorted_ := join_inj
    (fun word inside => free word (List.mem_mergeSort.mp inside))
    (fun word inside => free' word (List.mem_mergeSort.mp inside)) same
  rw [← List.mem_mergeSort (l := words), sorted_, List.mem_mergeSort]

theorem not_mem_sortedList (d : Char) (other : d ≠ ',') (free : ∀ word ∈ words, d ∉ word) :
    d ∉ sortedList words :=
  not_mem_join (fun word inside => free word (List.mem_mergeSort.mp inside)) other

end Words

variable {visibilities : List String} {mark : Text} {value : Option Text}

/-! ### Scopes -/

section Scopes

theorem renderNumber_injective {n m : Int} (same : renderNumber n = renderNumber m) : n = m := by
  have read := readInteger_renderNumber n
  rw [same, readInteger_renderNumber] at read
  exact (Option.some.inj read).symm

theorem numbers_free (c : Char) (noDigit : c.isDigit = false) (other : c ≠ '-') (ids : List Int) :
    ∀ word ∈ ids.map renderNumber, c ∉ word ∧ word ≠ [] := by
  intro word inside
  obtain ⟨n, _, rfl⟩ := List.mem_map.mp inside
  exact ⟨not_mem_renderNumber noDigit other, renderNumber_ne_nil n⟩

/-- Visibilities are GitHub's. -/
def KnownVisibilities : AccessScope → Prop
  | .explicit _ => True
  | .orgTeam _ _ visibilities => ∀ name ∈ visibilities, ∃ visibility : Visibility, name = visibility.name

/-- Two scopes of the same kind with the same elements. -/
def SameScope : AccessScope → AccessScope → Prop
  | .explicit ids, .explicit ids' => ∀ id, id ∈ ids ↔ id ∈ ids'
  | .orgTeam orgs teams visibilities, .orgTeam orgs' teams' visibilities' =>
      (∀ id, id ∈ orgs ↔ id ∈ orgs') ∧ (∀ id, id ∈ teams ↔ id ∈ teams') ∧
        ∀ name, name ∈ visibilities ↔ name ∈ visibilities'
  | _, _ => False

theorem visibilities_free (c : Char) {names : List String}
    (known : ∀ name ∈ names, ∃ visibility : Visibility, name = visibility.name)
    (other : ∀ visibility : Visibility, c ∉ visibility.name.toList) :
    ∀ word ∈ names.map String.toList, c ∉ word ∧ word ≠ [] := by
  intro word inside
  obtain ⟨name, member, rfl⟩ := List.mem_map.mp inside
  obtain ⟨visibility, rfl⟩ := known name member
  refine ⟨other visibility, ?_⟩
  cases visibility <;> decide

theorem known_names (among : ∀ name ∈ visibilities, name = "public" ∨ name = "internal") :
    ∀ name ∈ visibilities, ∃ visibility : Visibility, name = visibility.name := by
  intro name inside
  rcases among name inside with rfl | rfl
  · exact ⟨.pub, rfl⟩
  · exact ⟨.internal, rfl⟩

/-- The scopes that are computed have no other visibilities. -/
theorem known_toAccessScope {ε : Type} {api : GhePermissionApi ε} {login : String}
    {registered : List Repository} {raw : RawAccessScope}
    (fetched : fetch api login (.ok registered) = .ok raw) (refreshedAt : Instant) (version : Nat) :
    KnownVisibilities (toAccessScope (raw.cached refreshedAt version)) := by
  have known : ∀ name ∈ raw.visibilities, ∃ visibility : Visibility, name = visibility.name := by
    refine known_names ?_
    obtain ⟨listed, asked, fetched⟩ := bind_ok fetched
    obtain rfl : registered = listed := Except.ok.inj asked
    by_cases nothing : registered.isEmpty
    · rw [if_pos nothing] at fetched
      cases fetched
      exact fun name inside => nomatch inside
    · rw [if_neg nothing] at fetched
      obtain ⟨repositoryIds, _, fetched⟩ := bind_ok fetched
      split at fetched
      next =>
        obtain ⟨members, _, fetched⟩ := bind_ok fetched
        cases fetched
        dsimp only
        split
        next => exact fun name inside => nomatch inside
        next => simp
      next =>
        cases fetched
        exact fun name inside => nomatch inside
  unfold toAccessScope
  split
  · exact known
  · trivial

theorem mem_of_map {α : Type} {f : α → Text} (injective : ∀ a b, f a = f b → a = b) {xs ys : List α}
    (same : ∀ word, word ∈ xs.map f ↔ word ∈ ys.map f) (x : α) : x ∈ xs ↔ x ∈ ys := by
  have own : ∀ zs : List α, x ∈ zs ↔ f x ∈ zs.map f := by
    intro zs
    constructor
    · exact List.mem_map_of_mem
    · intro inside
      obtain ⟨z, member, is⟩ := List.mem_map.mp inside
      rwa [← injective z x is]
  rw [own xs, own ys, same]

theorem numbers_same {ids ids' : List Int}
    (same : sortedList (ids.map renderNumber) = sortedList (ids'.map renderNumber)) (id : Int) :
    id ∈ ids ↔ id ∈ ids' :=
  mem_of_map (fun _ _ => renderNumber_injective)
    (sortedList_inj (numbers_free ',' (by decide) (by decide) ids)
      (numbers_free ',' (by decide) (by decide) ids') same) id

theorem scopeMaterial_explicit (ids : List Int) :
    scopeMaterial (.explicit ids) = "explicit|".toList ++ sortedList (ids.map renderNumber) := rfl

/-- The three lists of a scope stand between bars. -/
theorem scopeMaterial_orgTeam (orgs teams : List Int) (visibilities : List String) :
    scopeMaterial (.orgTeam orgs teams visibilities) = "org_team|".toList ++
      ['|'].intercalate [sortedList (orgs.map renderNumber), sortedList (teams.map renderNumber),
        sortedList (visibilities.map String.toList)] := by
  have is : scopeMaterial (.orgTeam orgs teams visibilities) =
      "org_team|".toList ++ sortedList (orgs.map renderNumber) ++ '|' :: sortedList (teams.map renderNumber) ++
        '|' :: sortedList (visibilities.map String.toList) := rfl
  rw [is, List.intercalate_cons_cons, List.intercalate_cons_cons, List.intercalate_singleton]
  simp only [List.append_assoc, List.cons_append, List.nil_append]

theorem bars_free {orgs teams : List Int}
    (known : ∀ name ∈ visibilities, ∃ visibility : Visibility, name = visibility.name) :
    ∀ word ∈ [sortedList (orgs.map renderNumber), sortedList (teams.map renderNumber),
      sortedList (visibilities.map String.toList)], '|' ∉ word := by
  have numbers : ∀ ids : List Int, '|' ∉ sortedList (ids.map renderNumber) := fun ids =>
    not_mem_sortedList '|' (by decide) fun word inside =>
      (numbers_free '|' (by decide) (by decide) ids word inside).1
  have names : '|' ∉ sortedList (visibilities.map String.toList) :=
    not_mem_sortedList '|' (by decide) fun word inside =>
      (visibilities_free '|' known (fun visibility => by cases visibility <;> decide) word inside).1
  intro word inside
  simp only [List.mem_cons, List.not_mem_nil, or_false] at inside
  rcases inside with rfl | rfl | rfl
  · exact numbers orgs
  · exact numbers teams
  · exact names

theorem scopeMaterial_inj {a b : AccessScope} (known : KnownVisibilities a) (known' : KnownVisibilities b)
    (same : scopeMaterial a = scopeMaterial b) : SameScope a b := by
  cases a with
  | explicit ids =>
    cases b with
    | explicit ids' =>
      rw [scopeMaterial_explicit, scopeMaterial_explicit] at same
      exact numbers_same (List.append_cancel_left same)
    | orgTeam orgs teams visibilities =>
      rw [scopeMaterial_orgTeam, scopeMaterial_explicit] at same
      exact absurd (List.cons.inj same).1 (by decide)
  | orgTeam orgs teams visibilities =>
    cases b with
    | explicit ids =>
      rw [scopeMaterial_orgTeam, scopeMaterial_explicit] at same
      exact absurd (List.cons.inj same).1 (by decide)
    | orgTeam orgs' teams' visibilities' =>
      rw [scopeMaterial_orgTeam, scopeMaterial_orgTeam] at same
      have parts := congrArg (List.splitOn '|') (List.append_cancel_left same)
      rw [splitOn_join (List.cons_ne_nil _ _) (bars_free known),
        splitOn_join (List.cons_ne_nil _ _) (bars_free known')] at parts
      simp only [List.cons.injEq, and_true] at parts
      obtain ⟨sameOrgs, sameTeams, sameNames⟩ := parts
      have comma : ∀ visibility : Visibility, ',' ∉ visibility.name.toList := fun visibility => by
        cases visibility <;> decide
      exact ⟨numbers_same sameOrgs, numbers_same sameTeams,
        mem_of_map (fun _ _ => String.toList_inj.mp) (sortedList_inj
          (visibilities_free ',' known comma) (visibilities_free ',' known' comma) sameNames)⟩

theorem scopeMaterial_free {scope : AccessScope} (known : KnownVisibilities scope) :
    ' ' ∉ scopeMaterial scope := by
  have numbers : ∀ ids : List Int, ' ' ∉ sortedList (ids.map renderNumber) := fun ids =>
    not_mem_sortedList ' ' (by decide) fun word inside =>
      (numbers_free ' ' (by decide) (by decide) ids word inside).1
  cases scope with
  | explicit ids =>
    rw [scopeMaterial_explicit, List.mem_append]
    rintro (inside | inside)
    · exact absurd inside (by decide)
    · exact numbers ids inside
  | orgTeam orgs teams visibilities =>
    have names : ' ' ∉ sortedList (visibilities.map String.toList) :=
      not_mem_sortedList ' ' (by decide) fun word inside =>
        (visibilities_free ' ' known (fun visibility => by cases visibility <;> decide) word inside).1
    rw [scopeMaterial_orgTeam, List.mem_append]
    rintro (inside | inside)
    · exact absurd inside (by decide)
    · refine not_mem_join (fun word member => ?_) (by decide) inside
      simp only [List.mem_cons, List.not_mem_nil, or_false] at member
      rcases member with rfl | rfl | rfl
      · exact numbers orgs
      · exact numbers teams
      · exact names

end Scopes

/-! ### The material -/

section Material

/-- An input whose branch and binding have no separator, under a scope as it is computed. -/
structure Plain (input : FingerprintInput) : Prop where
  scope : KnownVisibilities input.scope
  branch : ∀ branch ∈ input.mergeNumberBaseBranch, ' ' ∉ branch
  binding : ∀ binding ∈ input.binding, ' ' ∉ binding

/-- What a fingerprint is to tell apart. -/
structure SameSearch (a b : FingerprintInput) : Prop where
  query : a.query = b.query
  sortKey : a.sortKey = b.sortKey
  order : a.order = b.order
  scope : SameScope a.scope b.scope
  scopeVersion : a.scopeVersion = b.scopeVersion
  sequenceEpoch : a.sequenceEpoch = b.sequenceEpoch
  mergeNumberEpoch : a.mergeNumberEpoch = b.mergeNumberEpoch
  mergeNumberBaseBranch : a.mergeNumberBaseBranch = b.mergeNumberBaseBranch
  binding : a.binding = b.binding

variable {a b : FingerprintInput}

theorem sortKey_name_inj {key key' : SortKey} (same : key.name.toList = key'.name.toList) : key = key' := by
  have names := String.toList_inj.mp same
  revert names
  cases key <;> cases key' <;> decide

theorem sortOrder_name_inj {order order' : SortOrder} (same : order.name.toList = order'.name.toList) :
    order = order' := by
  have names := String.toList_inj.mp same
  revert names
  cases order <;> cases order' <;> decide

theorem epoch_inj {epoch epoch' : Option Int}
    (same : epoch.elim [] renderNumber = epoch'.elim [] renderNumber) : epoch = epoch' := by
  cases epoch with
  | none =>
    cases epoch' with
    | none => rfl
    | some n => exact absurd same.symm (renderNumber_ne_nil n)
  | some n =>
    cases epoch' with
    | none => exact absurd same (renderNumber_ne_nil n)
    | some m => rw [renderNumber_injective same]

-- An epoch is written with digits, or not at all.
theorem epoch_free (c : Char) (noDigit : c.isDigit = false) (other : c ≠ '-') (epoch : Option Int) :
    c ∉ epoch.elim [] renderNumber := by
  cases epoch with
  | none => exact List.not_mem_nil
  | some n => exact not_mem_renderNumber noDigit other

/-- The words that every material has. -/
def coreWords (input : FingerprintInput) : List Text :=
  [input.sortKey.name.toList, input.order.name.toList, scopeMaterial input.scope,
    renderNumber input.scopeVersion, input.sequenceEpoch.elim [] renderNumber,
    input.mergeNumberEpoch.elim [] renderNumber]

/-- A word that is there when there is something to tell. -/
def marked (mark : Text) (value : Option Text) : List Text :=
  value.toList.map fun text => mark ++ text

theorem materialWords_eq (input : FingerprintInput) : materialWords input =
    coreWords input ++ marked "mnum_base:".toList input.mergeNumberBaseBranch ++
      marked "binding:".toList input.binding := rfl

theorem coreWords_inj (known : KnownVisibilities a.scope) (known' : KnownVisibilities b.scope)
    (same : coreWords a = coreWords b) : a.sortKey = b.sortKey ∧ a.order = b.order ∧
      SameScope a.scope b.scope ∧ a.scopeVersion = b.scopeVersion ∧ a.sequenceEpoch = b.sequenceEpoch ∧
        a.mergeNumberEpoch = b.mergeNumberEpoch := by
  simp only [coreWords, List.cons.injEq, and_true] at same
  obtain ⟨key, order, scope, version, sequence, mergeNumber⟩ := same
  exact ⟨sortKey_name_inj key, sortOrder_name_inj order, scopeMaterial_inj known known' scope,
    renderNumber_injective version, epoch_inj sequence, epoch_inj mergeNumber⟩

theorem coreWords_free (known : KnownVisibilities a.scope) : ∀ word ∈ coreWords a, ' ' ∉ word := by
  intro word inside
  simp only [coreWords, List.mem_cons, List.not_mem_nil, or_false] at inside
  rcases inside with rfl | rfl | rfl | rfl | rfl | rfl
  · cases a.sortKey <;> decide
  · cases a.order <;> decide
  · exact scopeMaterial_free known
  · exact not_mem_renderNumber (by decide) (by decide)
  · exact epoch_free ' ' (by decide) (by decide) _
  · exact epoch_free ' ' (by decide) (by decide) _

theorem marked_free (free : ' ' ∉ mark) (plain : ∀ text ∈ value, ' ' ∉ text) :
    ∀ word ∈ marked mark value, ' ' ∉ word := by
  intro word inside
  obtain ⟨text, member, rfl⟩ := List.mem_map.mp inside
  rw [List.mem_append, not_or]
  exact ⟨free, plain text (Option.mem_toList.mp member)⟩

theorem materialWords_free (plain : Plain a) : ∀ word ∈ materialWords a, ' ' ∉ word := by
  intro word inside
  rw [materialWords_eq, List.mem_append, List.mem_append] at inside
  rcases inside with (inside | inside) | inside
  · exact coreWords_free plain.scope word inside
  · exact marked_free (by decide) plain.branch word inside
  · exact marked_free (by decide) plain.binding word inside

/-- Cut at its blanks, a material is the pieces of its query and then its words. -/
theorem splitOn_material (plain : Plain a) :
    (material a).splitOn ' ' = a.query.splitOn ' ' ++ materialWords a := by
  rw [material, splitOn_intercalate (List.cons_ne_nil _ _), List.flatMap_cons]
  congr 1
  have each : ∀ words : List Text, (∀ word ∈ words, ' ' ∉ word) →
      (words.flatMap fun word => word.splitOn ' ') = words := by
    intro words free
    induction words with
    | nil => rfl
    | cons word rest ih =>
      rw [List.flatMap_cons, splitOn_of_not_mem (free word List.mem_cons_self),
        ih fun other member => free other (List.mem_cons_of_mem _ member)]
      rfl
  exact each _ (materialWords_free plain)

/-- A last word that is told by its mark, behind words that do not end with one of that mark. -/
theorem marked_last {xs ys : List Text} {value' : Option Text}
    (unmarked : ∀ word ∈ xs.getLast?, ¬ mark <+: word)
    (unmarked' : ∀ word ∈ ys.getLast?, ¬ mark <+: word)
    (same : xs ++ marked mark value = ys ++ marked mark value') : xs = ys ∧ value = value' := by
  cases value with
  | none =>
    cases value' with
    | none => exact ⟨by simpa [marked] using same, rfl⟩
    | some text =>
      have is : xs = ys ++ [mark ++ text] := by simpa [marked] using same
      refine absurd (List.prefix_append mark text) (unmarked _ ?_)
      rw [is, List.getLast?_concat]
      rfl
  | some text =>
    cases value' with
    | none =>
      have is : ys = xs ++ [mark ++ text] := by simpa [marked] using same.symm
      refine absurd (List.prefix_append mark text) (unmarked' _ ?_)
      rw [is, List.getLast?_concat]
      rfl
    | some text' =>
      obtain ⟨front, last⟩ := List.append_inj' same rfl
      have word := (List.cons.inj last).1
      exact ⟨front, congrArg some (List.append_cancel_left word)⟩

-- The words before the branch end with an epoch, which has no letter.
theorem epoch_last (mark : Text) (c : Char) (begins : c ∈ mark) (noDigit : c.isDigit = false) (other : c ≠ '-')
    (words : List Text) (input : FingerprintInput) :
    ∀ word ∈ (words ++ coreWords input).getLast?, ¬ mark <+: word := by
  intro word inside isMarked
  have last : (words ++ coreWords input).getLast? = some (input.mergeNumberEpoch.elim [] renderNumber) := by
    simp [coreWords]
  rw [last, Option.mem_some_iff] at inside
  subst inside
  exact epoch_free c noDigit other _ (isMarked.subset begins)

-- With a branch they end with that branch, whose mark is not the one of a binding.
theorem branch_last (words : List Text) (input : FingerprintInput) :
    ∀ word ∈ (words ++ coreWords input ++ marked "mnum_base:".toList input.mergeNumberBaseBranch).getLast?,
      ¬ "binding:".toList <+: word := by
  cases isBranch : input.mergeNumberBaseBranch with
  | none =>
    have none_ : marked "mnum_base:".toList Option.none = [] := rfl
    rw [none_, List.append_nil]
    exact epoch_last _ 'b' (by decide) (by decide) (by decide) words input
  | some branch =>
    intro word inside isMarked
    have one : marked "mnum_base:".toList (some branch) = ["mnum_base:".toList ++ branch] := rfl
    rw [one, List.getLast?_concat, Option.mem_some_iff] at inside
    subst inside
    exact absurd (List.cons_prefix_cons.mp isMarked).1 (by decide)

/-- Different searches have different materials. -/
theorem material_inj (plain : Plain a) (plain' : Plain b) (same : material a = material b) :
    SameSearch a b := by
  have pieces := congrArg (List.splitOn ' ') same
  rw [splitOn_material plain, splitOn_material plain', materialWords_eq, materialWords_eq,
    ← List.append_assoc, ← List.append_assoc, ← List.append_assoc, ← List.append_assoc] at pieces
  -- The words are taken off from the end: the binding, the branch, and the six that are always there.
  obtain ⟨pieces, binding⟩ := marked_last (branch_last _ a) (branch_last _ b) pieces
  obtain ⟨pieces, branch⟩ := marked_last
    (epoch_last _ 'm' (by decide) (by decide) (by decide) _ a)
    (epoch_last _ 'm' (by decide) (by decide) (by decide) _ b) pieces
  obtain ⟨query, core⟩ := List.append_inj' pieces rfl
  have isQuery : a.query = b.query := by
    have whole := congrArg (List.intercalate [' ']) query
    rwa [List.intercalate_splitOn, List.intercalate_splitOn] at whole
  obtain ⟨key, order, scope, version, sequence, mergeNumber⟩ := coreWords_inj plain.scope plain'.scope core
  exact ⟨isQuery, key, order, scope, version, sequence, mergeNumber, branch, binding⟩

end Material

/-! ### Cursors of other searches -/

section Rejection

variable {σ : Type}

variable {raw : Envelope σ} {request : SearchRequest σ} {deps : SearchDeps σ}
  {result : SearchResult σ}

/-- A fingerprint that is not the one of the search is refused, whatever else the cursor holds. -/
theorem decode_other {fingerprint : Text} {sign : CursorSigner σ} {now : Int}
    (other : raw.payload.f ≠ fingerprint) (cursor : SearchCursor σ) :
    decodeSearchCursor raw fingerprint sign now ≠ .ok cursor := by
  intro decoded
  unfold decodeSearchCursor at decoded
  simp only [if_pos other] at decoded
  repeat' split at decoded
  all_goals cases decoded

variable [LinearOrder σ]

/-- A search that succeeds with a query has opened its cursor. -/
theorem runPage_of_runSearch {asked : ScopedSearchRequest}
    (searched : request.searched deps = some asked) (ran : runSearch request deps = .ok result) :
    ∃ page, runPage request deps asked.target asked.query = .ok page := by
  unfold SearchRequest.searched at searched
  unfold runSearch at ran
  simp only at searched ran
  split at searched
  next target resolution isTarget names =>
    simp only [isTarget, names] at ran
    split at searched
    next => cases searched
    next built isBuilt =>
      simp only [isBuilt] at ran
      split at searched
      next => cases searched
      next query isQuery =>
        obtain rfl := Option.some.inj searched
        simp only [isQuery] at ran
        split at ran
        next => cases ran
        next isPage => exact ⟨_, isPage⟩
  next => cases searched

/-- A search does not go on from the cursor of another one; without an index left it has nothing to show. -/
theorem runSearch_other
    (other : raw.payload.f ≠ computeFingerprint deps.hash request.fingerprintInput)
    (ran : runSearch { request with cursor := some raw } deps = .ok result) :
    result.items = [] ∧ result.nextCursor = none := by
  cases searched : request.searched deps with
  | none => exact runSearch_unsearched { request with cursor := some raw } deps searched ran
  | some asked =>
    obtain ⟨page, isPage⟩ := runPage_of_runSearch
      (show SearchRequest.searched { request with cursor := some raw } deps = some asked from searched) ran
    unfold runPage at isPage
    simp only [resume] at isPage
    cases decoded : decodeSearchCursor raw (computeFingerprint deps.hash request.fingerprintInput) deps.sign
        deps.now with
    | error error =>
      have is : SearchRequest.fingerprintInput { request with cursor := some raw } =
        request.fingerprintInput := rfl
      rw [is, decoded] at isPage
      cases isPage
    | ok cursor => exact absurd decoded (decode_other other cursor)

/-- The pages of a search are what it finds, and a cursor is good for its own search only. -/
theorem pages_partition_and_cursors_stay (request : SearchRequest σ) (deps : SearchDeps σ)
    (times : Nat → Int) (digest : ∀ text, deps.hash text ≠ []) (positive : 1 ≤ request.size)
    (inTime : ∀ page, times (page + 1) < times page + cursorTtlMs)
    (distinct : (deps.elastic.documents.map StoredDocument.docId).Nodup)
    (first : ∃ result,
      runSearch { request with cursor := none } { deps with now := times 0 } = .ok result) :
    (∃ pages, readPages request deps times ((request.finds deps).length + 1) 0 none = pages.map .ok ∧
      Partition request deps pages) ∧
    ∀ a b : FingerprintInput, Plain a → Plain b → ¬ SameSearch a b →
      material a ≠ material b ∧
      (deps.hash (material a) ≠ deps.hash (material b) → ∀ (cursor : SearchCursor σ) (issued : Int),
        let raw := encodeSearchCursor cursor (computeFingerprint deps.hash a) deps.sign issued
        (∀ opened, decodeSearchCursor raw (computeFingerprint deps.hash b) deps.sign deps.now ≠ .ok opened) ∧
        ∀ other : SearchRequest σ, other.fingerprintInput = b → ∀ result,
          runSearch { other with cursor := some raw } deps = .ok result →
            result.items = [] ∧ result.nextCursor = none) := by
  refine ⟨partition_readPages digest positive inTime distinct first, ?_⟩
  intro a b plain plain' different
  refine ⟨fun same => different (material_inj plain plain' same), fun apart cursor issued => ⟨?_, ?_⟩⟩
  · exact fun opened => decode_other apart opened
  · intro other is result ran
    refine runSearch_other ?_ ran
    rw [is]
    exact apart

/-- A second document. -/
def leeDocument : StoredDocument where
  docId := "2".toList
  index := .pullRequests
  fields name := if name = "repository_id" then [.number 1] else []

def digestDeps : SearchDeps Int :=
  { plainDeps [kimDocument, leeDocument] with hash := fun text => '#' :: text }

/-- One item a page. -/
def singles : SearchRequest Int where
  ast := ⟨[], none⟩
  scope := .explicit [1]
  scopeVersion := 1
  sortKey := .mergeSeq
  order := .desc
  size := 1
  cursor := none
  sequenceEpoch := none
  mergeNumberEpoch := none
  mergeNumberBaseBranch := none
  cursorBinding := none

theorem pages_partition_and_cursors_stay_singles :
    (∃ pages, readPages singles digestDeps (fun page => page) ((singles.finds digestDeps).length + 1) 0 none =
        pages.map .ok ∧ Partition singles digestDeps pages) ∧
      (singles.finds digestDeps).map StoredDocument.docId = ["1".toList, "2".toList] ∧
      material singles.fingerprintInput ≠ material { singles.fingerprintInput with scopeVersion := 2 } := by
  have asks : (singles.searched digestDeps).isSome = true := by decide
  obtain ⟨asked, searched⟩ := Option.isSome_iff_exists.mp asks
  have some_ : (singles.finds digestDeps).length ≠ 0 := by decide
  have first : ∃ result, runSearch { singles with cursor := none } { digestDeps with now := 0 } = .ok result := by
    refine runSearch_found { singles with cursor := none } rfl searched ?_
    rwa [SearchRequest.finds, searched] at some_
  have all := pages_partition_and_cursors_stay singles digestDeps (fun page => page)
    (fun text => List.cons_ne_nil _ _) (by decide) (fun page => by simp [cursorTtlMs]) (by decide) first
  have plain : ∀ version, Plain { singles.fingerprintInput with scopeVersion := version } := fun version =>
    { scope := trivial
      branch := fun _ inside => by cases inside
      binding := fun _ inside => by cases inside }
  refine ⟨all.1, by decide, (all.2 _ _ (plain 1) (plain 2) fun same => ?_).1⟩
  exact absurd same.scopeVersion (by decide)

end Rejection

end PrSearch.Search.Listing
