import PrSearch.MergeNumber.Lookup

/-! # What a confirmation rests on

A look-up confirms the only match among the pull requests that it has looked at: the candidates,
and where none of them matches, the pages up to the limit. With the same candidates, and all pages
read, these do not depend on how the pull requests of the commit are ordered or cut into pages.
-/
namespace PrSearch.MergeNumber.Lookup

open Sequence

/-! ### What is looked at -/

/-- The snapshot that a number is verified with. -/
def Candidates.snapshotOf (prNumber : Int) : Candidates → Option PullRequestSnapshot
  | [] => none
  | (key, snapshot) :: rest => if key = prNumber then snapshot else snapshotOf prNumber rest

def Candidates.keys (candidates : Candidates) : List Int := candidates.map Prod.fst

/-- The pull request is verified as the squash merge of the commit. -/
def isMatch (deps : EvidenceDeps) (subject : EvidenceSubject) (candidates : Candidates)
    (prNumber : Int) : Bool :=
  match verify deps subject prNumber (candidates.snapshotOf prNumber) with
  | .ok (some _) => true
  | _ => false

/-- The numbers on a page that is answered, and the page that follows. -/
def pageItems (source : EvidenceSource) (page : Int) : List Int × Option Int :=
  match source.listPullRequestsForCommitPage page with
  | .error _ => ([], none)
  | .ok response => (response.items, response.nextPage)

/-- The numbers on the pages from `page` on, `left` more of them after this one. -/
def listed (source : EvidenceSource) : Nat → Int → List Int
  | 0, page => (pageItems source page).1
  | left + 1, page =>
      (pageItems source page).1 ++ match (pageItems source page).2 with
        | none => []
        | some next => listed source left next

/-- The pull requests that a look-up looks at. -/
def lookedAt (deps : EvidenceDeps) (subject : EvidenceSubject) (candidates : Candidates) :
    List Int :=
  if candidates.keys.any (isMatch deps subject candidates) then candidates.keys
  else candidates.keys ++ match deps.source with
    | some source => listed source (maxPages deps - 1) (startPage subject)
    | none => []

/-- The candidates of a look-up that gets as far as verifying them. -/
def candidates (deps : EvidenceDeps) (subject : EvidenceSubject) : Candidates :=
  candidatesOf subject.candidateHint (deps.findSnapshotsByMergeCommit.toOption.getD [])

/-! ### The matches are those of the numbers that were seen -/

/-- `found` are the matches among `seen`, each once. -/
structure Accounts (matching : Int → Bool) (seen : List Int) (found : List Match) : Prop where
  once : (found.map Match.prNumber).Nodup
  mem : ∀ q, q ∈ found.map Match.prNumber ↔ q ∈ seen ∧ matching q = true

theorem accounts_nil (matching : Int → Bool) : Accounts matching [] [] where
  once := List.nodup_nil
  mem q := by simp

variable {prNumber : Int} {found : List Match} {source : EvidenceSource} {proof : EvidenceProof}
  {mergedAt : Instant} {kind : EvidenceSourceKind} {version : Option Int}

variable {snapshot : Option PullRequestSnapshot} {here : Option Match} {matching : Int → Bool}
  {seen : List Int} {out sofar : Enumeration} {page : Int} {left limit : Nat}
  {details : Int → Except LookupFault (Option PullRequestEvidence)} {pages : List (List Int)}

theorem verify_prNumber {deps : EvidenceDeps} {subject : EvidenceSubject} {found : Match}
    (verified : verify deps subject prNumber snapshot = .ok (some found)) :
    found.prNumber = prNumber := by
  unfold verify at verified
  split at verified
  next source _ =>
    cases detail : source.getPullRequestEvidence prNumber with
    | error fault =>
      rw [detail] at verified
      cases verified
    | ok detail' =>
      rw [detail] at verified
      simp only [bind, Except.bind, pure, Except.pure, Except.ok.injEq] at verified
      obtain ⟨_, -, rest⟩ := Option.bind_eq_some_iff.mp verified
      obtain ⟨_, -, rfl⟩ := Option.map_eq_some_iff.mp rest
      rfl
  next =>
    obtain ⟨_, -, rest⟩ := Option.bind_eq_some_iff.mp (Except.ok.inj verified)
    obtain ⟨_, -, rfl⟩ := Option.map_eq_some_iff.mp rest
    rfl

theorem named_of_verify {deps : EvidenceDeps} {subject : EvidenceSubject}
    (verified : verify deps subject prNumber snapshot = .ok here) :
    ∀ one ∈ here, one.prNumber = prNumber := by
  intro one found
  cases found
  exact verify_prNumber verified

/-- One more number is seen, and a match of it is kept. -/
theorem Accounts.add (accounts : Accounts matching seen found) (new : prNumber ∉ seen)
    (named : ∀ one ∈ here, one.prNumber = prNumber) (verdict : matching prNumber = here.isSome) :
    Accounts matching (seen ++ [prNumber]) (found ++ here.toList) := by
  obtain ⟨once, mem⟩ := accounts
  cases here with
  | none =>
    refine ⟨by simpa using once, fun q => ?_⟩
    simp only [Option.toList_none, List.append_nil, mem, List.mem_append, List.mem_singleton]
    constructor
    · exact fun ⟨inside, matches'⟩ => ⟨Or.inl inside, matches'⟩
    · rintro ⟨inside | rfl, matches'⟩
      · exact ⟨inside, matches'⟩
      · rw [verdict] at matches'
        cases matches'
  | some one =>
    have name := named one rfl
    refine ⟨?_, fun q => ?_⟩
    · simp only [Option.toList_some, List.map_append, List.map_cons, List.map_nil, name]
      rw [List.nodup_append]
      refine ⟨once, List.nodup_singleton _, ?_⟩
      rintro a inside b last rfl
      rw [List.mem_singleton.mp last] at inside
      exact new ((mem prNumber).mp inside).1
    · simp only [Option.toList_some, List.map_append, List.map_cons, List.map_nil, name,
        List.mem_append, List.mem_singleton, mem]
      constructor
      · rintro (⟨inside, matches'⟩ | rfl)
        · exact ⟨Or.inl inside, matches'⟩
        · exact ⟨Or.inr rfl, verdict⟩
      · rintro ⟨inside | rfl, matches'⟩
        · exact Or.inl ⟨inside, matches'⟩
        · exact Or.inr rfl

/-- What is found depends on the set of what is seen. -/
theorem Accounts.congr {seen' : List Int} (accounts : Accounts matching seen found)
    (same : ∀ q, q ∈ seen ↔ q ∈ seen') : Accounts matching seen' found :=
  ⟨accounts.once, fun q => by rw [accounts.mem, same]⟩

/-! ### Candidates -/

@[simp] theorem Candidates.keys_cons (entry : Int × Option PullRequestSnapshot)
    (rest : Candidates) : Candidates.keys (entry :: rest) = entry.1 :: Candidates.keys rest := rfl

theorem Candidates.keys_set (snapshot : PullRequestSnapshot) (candidates : Candidates) :
    (candidates.set snapshot).keys =
      if snapshot.prNumber ∈ candidates.keys then candidates.keys
      else candidates.keys ++ [snapshot.prNumber] := by
  induction candidates with
  | nil => rfl
  | cons entry rest ih =>
    obtain ⟨key, held⟩ := entry
    simp only [Candidates.set]
    by_cases same : key = snapshot.prNumber
    · simp [same]
    · have apart : ¬ snapshot.prNumber = key := fun eq => same eq.symm
      simp only [if_neg same, keys_cons, ih, List.mem_cons, apart, false_or]
      split <;> rfl

theorem candidatesOf_nodup (hint : Option Int) (snapshots : List PullRequestSnapshot) :
    (candidatesOf hint snapshots).keys.Nodup := by
  have kept : ∀ (snapshots : List PullRequestSnapshot) (candidates : Candidates),
      candidates.keys.Nodup →
        (snapshots.foldl (fun candidates snapshot => candidates.set snapshot)
          candidates).keys.Nodup := by
    intro snapshots
    induction snapshots with
    | nil => exact fun _ nodup => nodup
    | cons snapshot rest ih =>
      intro candidates nodup
      apply ih
      rw [Candidates.keys_set]
      split
      · exact nodup
      next new =>
        rw [List.nodup_append]
        refine ⟨nodup, List.nodup_singleton _, ?_⟩
        rintro a inside b last rfl
        exact new (List.mem_singleton.mp last ▸ inside)
  apply kept
  cases hint <;> simp [Candidates.keys]

theorem Candidates.snapshotOf_of_mem {candidates : Candidates} (nodup : candidates.keys.Nodup)
    (member : (prNumber, snapshot) ∈ candidates) : candidates.snapshotOf prNumber = snapshot := by
  induction candidates with
  | nil => cases member
  | cons entry rest ih =>
    obtain ⟨key, held⟩ := entry
    rw [keys_cons, List.nodup_cons] at nodup
    simp only [snapshotOf]
    rcases List.mem_cons.mp member with same | later
    · cases same
      exact if_pos rfl
    · have apart : ¬ key = prNumber := by
        rintro rfl
        exact nodup.1 (List.mem_map.mpr ⟨_, later, rfl⟩)
      rw [if_neg apart]
      exact ih nodup.2 later

section

variable {deps : EvidenceDeps} {subject : EvidenceSubject} {candidates : Candidates}

theorem isMatch_of_verify
    (verified : verify deps subject prNumber (candidates.snapshotOf prNumber) = .ok here) :
    isMatch deps subject candidates prNumber = here.isSome := by
  unfold isMatch
  rw [verified]
  cases here <;> rfl

theorem verifyCandidates_accounts {done rest : Candidates} {out : List Match}
    (whole : candidates = done ++ rest) (nodup : candidates.keys.Nodup)
    (accounts : Accounts (isMatch deps subject candidates) done.keys found)
    (ran : verifyCandidates deps subject rest found = .ok out) :
    Accounts (isMatch deps subject candidates) candidates.keys out := by
  induction rest generalizing done found with
  | nil =>
    cases ran
    rw [whole, List.append_nil]
    rwa [whole, List.append_nil] at accounts
  | cons entry rest ih =>
    obtain ⟨key, snapshot⟩ := entry
    simp only [verifyCandidates] at ran
    cases verified : verify deps subject key snapshot with
    | error fault =>
      rw [verified] at ran
      cases ran
    | ok here =>
      rw [verified] at ran
      have held : candidates.snapshotOf key = snapshot :=
        Candidates.snapshotOf_of_mem nodup (by simp [whole])
      have new : key ∉ done.keys := by
        rw [whole] at nodup
        simp only [Candidates.keys, List.map_append, List.map_cons] at nodup
        intro inside
        exact (List.nodup_append.mp nodup).2.2 key inside key List.mem_cons_self rfl
      have verdict : isMatch deps subject candidates key = here.isSome :=
        isMatch_of_verify (held.symm ▸ verified)
      have added := accounts.add new (named_of_verify verified) verdict
      have keys : done.keys ++ [key] = Candidates.keys (done ++ [(key, snapshot)]) := by
        simp [Candidates.keys]
      rw [keys] at added
      exact ih (by simp [whole]) added ran

/-! ### Enumeration -/

/-- With a source, the snapshot is not looked at. -/
theorem verify_of_source (online : deps.source = some source) (prNumber : Int)
    (snapshot snapshot' : Option PullRequestSnapshot) :
    verify deps subject prNumber snapshot = verify deps subject prNumber snapshot' := by
  simp only [verify, online]

theorem verifyItems_accounts (online : deps.source = some source) {items : List Int}
    (accounts : Accounts (isMatch deps subject candidates) sofar.seen sofar.found)
    (ran : verifyItems deps subject items sofar = .ok out) :
    Accounts (isMatch deps subject candidates) out.seen out.found ∧
      ∀ q, q ∈ out.seen ↔ q ∈ sofar.seen ∨ q ∈ items := by
  induction items generalizing sofar with
  | nil =>
    cases ran
    exact ⟨accounts, by simp⟩
  | cons prNumber rest ih =>
    simp only [verifyItems] at ran
    split at ran
    next old =>
      obtain ⟨after, seen⟩ := ih accounts ran
      refine ⟨after, fun q => ?_⟩
      rw [seen, List.mem_cons]
      constructor
      · rintro (inside | later)
        · exact Or.inl inside
        · exact Or.inr (Or.inr later)
      · rintro (inside | rfl | later)
        · exact Or.inl inside
        · exact Or.inl old
        · exact Or.inr later
    next new =>
      cases verified : verify deps subject prNumber none with
      | error fault =>
        rw [verified] at ran
        cases ran
      | ok here =>
        rw [verified] at ran
        have verdict : isMatch deps subject candidates prNumber = here.isSome :=
          isMatch_of_verify ((verify_of_source online prNumber _ none).trans verified)
        have added := accounts.add new (named_of_verify verified) verdict
        obtain ⟨after, seen⟩ := ih added ran
        refine ⟨after, fun q => ?_⟩
        rw [seen]
        simp [or_assoc]

theorem readPage_accounts (online : deps.source = some source) {nextPage : Option Int}
    (accounts : Accounts (isMatch deps subject candidates) sofar.seen sofar.found)
    (ran : readPage deps subject source page sofar = .ok (out, nextPage)) :
    Accounts (isMatch deps subject candidates) out.seen out.found ∧
      (∀ q, q ∈ out.seen ↔ q ∈ sofar.seen ++ (pageItems source page).1) ∧
      (pageItems source page).2 = nextPage := by
  unfold readPage at ran
  unfold pageItems
  cases response : source.listPullRequestsForCommitPage page with
  | error fault =>
    rw [response] at ran
    cases ran
  | ok response' =>
    rw [response] at ran
    cases verified : verifyItems deps subject response'.items sofar with
    | error fault =>
      simp only [bind, Except.bind, verified] at ran
      cases ran
    | ok after =>
      simp only [bind, Except.bind, verified] at ran
      cases ran
      obtain ⟨accounts, seen⟩ := verifyItems_accounts online accounts verified
      exact ⟨accounts, by simpa using seen, rfl⟩

theorem enumeratePages_accounts (online : deps.source = some source) {pageCount : Nat}
    {out : Enumerated}
    (accounts : Accounts (isMatch deps subject candidates) sofar.seen sofar.found)
    (ran : enumeratePages deps subject source left pageCount page sofar = .ok out) :
    Accounts (isMatch deps subject candidates) (sofar.seen ++ listed source left page)
      out.found := by
  induction left generalizing pageCount page sofar with
  | zero =>
    simp only [enumeratePages] at ran
    cases read : readPage deps subject source page sofar with
    | error fault =>
      rw [read] at ran
      cases ran
    | ok answer =>
      obtain ⟨after, nextPage⟩ := answer
      obtain ⟨accounts, seen, -⟩ := readPage_accounts online accounts read
      rw [read] at ran
      cases ran
      exact accounts.congr seen
  | succ left ih =>
    simp only [enumeratePages] at ran
    cases read : readPage deps subject source page sofar with
    | error fault =>
      rw [read] at ran
      cases ran
    | ok answer =>
      obtain ⟨after, nextPage⟩ := answer
      obtain ⟨accounts, seen, next⟩ := readPage_accounts online accounts read
      rw [read] at ran
      simp only [listed, next]
      cases nextPage with
      | none =>
        cases ran
        rw [List.append_nil]
        exact accounts.congr seen
      | some page' =>
        have later := ih accounts ran
        refine later.congr fun q => ?_
        simp only [List.mem_append, seen, or_assoc]

/-! ### A confirmation -/

/-- One match confirms, and no other number of matches does. -/
theorem decideMatches_confirms {finished : EvidenceProof}
    (decided : decideMatches subject found finished =
      .prConfirmed prNumber mergedAt kind version proof) :
    found.map Match.prNumber = [prNumber] := by
  unfold decideMatches at decided
  split at decided
  · cases decided
  · cases decided
    rfl
  · cases decided

/-- A look-up that confirms has found one match in what it has looked at. -/
theorem lookUp_confirms (nodup : candidates.keys.Nodup)
    (looked : lookUp deps subject candidates =
      .ok (.prConfirmed prNumber mergedAt kind version proof)) :
    ∃ found, Accounts (isMatch deps subject candidates) (lookedAt deps subject candidates) found ∧
      found.map Match.prNumber = [prNumber] := by
  unfold lookUp at looked
  cases verified : verifyCandidates deps subject candidates [] with
  | error fault =>
    rw [verified] at looked
    cases looked
  | ok found =>
    rw [verified] at looked
    simp only [bind, Except.bind] at looked
    have accounts : Accounts (isMatch deps subject candidates) candidates.keys found :=
      verifyCandidates_accounts (List.nil_append candidates).symm nodup (accounts_nil _) verified
    unfold lookedAt
    cases found with
    | cons first more =>
      -- a candidate matches, so nothing is enumerated
      have some : candidates.keys.any (isMatch deps subject candidates) = true := by
        obtain ⟨inside, matches'⟩ := (accounts.mem first.prNumber).mp (by simp)
        exact List.any_eq_true.mpr ⟨first.prNumber, inside, matches'⟩
      rw [if_pos some]
      refine ⟨first :: more, accounts, ?_⟩
      exact decideMatches_confirms (Except.ok.inj looked)
    | nil =>
      have none : ¬ candidates.keys.any (isMatch deps subject candidates) = true := by
        intro any
        obtain ⟨q, inside, matches'⟩ := List.any_eq_true.mp any
        have member := (accounts.mem q).mpr ⟨inside, matches'⟩
        cases member
      rw [if_neg none]
      cases online : deps.source with
      | none =>
        rw [online] at looked
        have decided := decideMatches_confirms (Except.ok.inj looked)
        cases decided
      | some source =>
        rw [online] at looked
        dsimp only at looked ⊢
        cases enumerated : enumeratePages deps subject source (maxPages deps - 1) 0
            (startPage subject) ⟨candidates.map Prod.fst, []⟩ with
        | error fault =>
          rw [enumerated] at looked
          cases looked
        | ok out =>
          rw [enumerated] at looked
          have after := enumeratePages_accounts online accounts enumerated
          refine ⟨out.found, after, ?_⟩
          dsimp only at looked
          split at looked
          · cases looked
          · exact decideMatches_confirms (Except.ok.inj looked)
          · exact decideMatches_confirms (Except.ok.inj looked)

end

section

variable {deps : EvidenceDeps} {subject : EvidenceSubject} {force : Bool}

/-- Only a look-up confirms where the stored evidence does not. -/
theorem resolveEvidence_confirms (unsettled : subject.existing.bind settledBy = none)
    (resolved : resolveEvidence deps subject force =
      .ok (.prConfirmed prNumber mergedAt kind version proof)) :
    lookUp deps subject (candidates deps subject) =
      .ok (.prConfirmed prNumber mergedAt kind version proof) := by
  unfold resolveEvidence at resolved
  rw [unsettled] at resolved
  dsimp only at resolved
  split at resolved
  · cases resolved
  · unfold scanCommit at resolved
    split at resolved
    · cases resolved
    · cases resolved
    · split at resolved
      · cases resolved
      · cases read : deps.findSnapshotsByMergeCommit with
        | error fault =>
          rw [read] at resolved
          cases resolved
        | ok snapshots =>
          rw [read] at resolved
          simp only [bind, Except.bind, pure, Except.pure] at resolved
          unfold candidates
          rw [read]
          split at resolved
          · cases resolved
          · exact resolved

theorem candidates_nodup (deps : EvidenceDeps) (subject : EvidenceSubject) :
    (candidates deps subject).keys.Nodup := candidatesOf_nodup _ _

/-- The confirmed pull request is the only match in what was looked at. -/
theorem confirmed_unique (unsettled : subject.existing.bind settledBy = none)
    (resolved : resolveEvidence deps subject force =
      .ok (.prConfirmed prNumber mergedAt kind version proof)) (q : Int) :
    q ∈ lookedAt deps subject (candidates deps subject) ∧
      isMatch deps subject (candidates deps subject) q = true ↔ q = prNumber := by
  obtain ⟨found, accounts, only⟩ :=
    lookUp_confirms (candidates_nodup deps subject) (resolveEvidence_confirms unsettled resolved)
  rw [← accounts.mem, only, List.mem_singleton]

/-! ### Orders and pages -/

/-- A source that enumerates the pull requests of the commit in these pages. -/
def pagedSource (details : Int → Except LookupFault (Option PullRequestEvidence))
    (pages : List (List Int)) : EvidenceSource where
  getPullRequestEvidence := details
  listPullRequestsForCommitPage page := .ok
    ⟨pages.getD (page - 1).toNat [], if page < pages.length then some (page + 1) else none⟩

/-- The same look-up over these pages, with a limit that they do not exceed. -/
def EvidenceDeps.over (deps : EvidenceDeps)
    (details : Int → Except LookupFault (Option PullRequestEvidence)) (pages : List (List Int))
    (limit : Nat) : EvidenceDeps :=
  { deps with source := some (pagedSource details pages), maxPagesPerRound := some limit }

theorem flatten_drop (pages : List (List Int)) (read : Nat) :
    (pages.drop read).flatten = pages.getD read [] ++ (pages.drop (read + 1)).flatten := by
  rw [List.drop_eq_getElem?_toList_append, List.flatten_append, List.getD_eq_getElem?_getD]
  cases pages[read]? <;> simp

theorem pageItems_pagedSource (details : Int → Except LookupFault (Option PullRequestEvidence))
    (pages : List (List Int)) (read : Nat) :
    pageItems (pagedSource details pages) (read + 1) =
      (pages.getD read [], if read + 1 < pages.length then some ((read : Int) + 1 + 1) else none) := by
  have page : ((read : Int) + 1 - 1).toNat = read := by omega
  have next : ((read : Int) + 1 < pages.length) = (read + 1 < pages.length) := by
    rw [eq_iff_iff]
    omega
  simp only [pageItems, pagedSource, page, next]

/-- With a limit that is not exceeded, all pages are read. -/
theorem listed_pagedSource (details : Int → Except LookupFault (Option PullRequestEvidence))
    (pages : List (List Int)) {read : Nat} (enough : pages.length ≤ read + 1 + left) :
    listed (pagedSource details pages) left (read + 1) = (pages.drop read).flatten := by
  induction left generalizing read with
  | zero =>
    have last : pages.drop (read + 1) = [] := List.drop_eq_nil_of_le enough
    rw [flatten_drop, last, listed, pageItems_pagedSource]
    simp
  | succ left ih =>
    rw [flatten_drop, listed, pageItems_pagedSource]
    by_cases more : read + 1 < pages.length
    · have later : listed (pagedSource details pages) left ((read : Int) + 1 + 1) =
          (pages.drop (read + 1)).flatten := by
        have counted : listed (pagedSource details pages) left (((read + 1 : Nat) : Int) + 1) =
            (pages.drop (read + 1)).flatten := ih (by omega)
        push_cast at counted
        exact counted
      simp only [if_pos more, later]
    · have last : pages.drop (read + 1) = [] := List.drop_eq_nil_of_le (by omega)
      simp [if_neg more, last]

theorem lookedAt_over (enough : pages.length ≤ limit) (start : startPage subject = 1)
    (candidates : Candidates) :
    lookedAt (deps.over details pages limit) subject candidates =
      if candidates.keys.any (isMatch (deps.over details pages limit) subject candidates) then
        candidates.keys
      else candidates.keys ++ pages.flatten := by
  have all : listed (pagedSource details pages) (limit - 1) 1 = pages.flatten := by
    have read : listed (pagedSource details pages) (limit - 1) (((0 : Nat) : Int) + 1) =
        (pages.drop 0).flatten := listed_pagedSource details pages (by omega)
    simpa using read
  simp only [lookedAt, EvidenceDeps.over, maxPages, Option.getD_some, start, all]
  rfl

/-- Whether a number matches does not depend on the pages. -/
theorem isMatch_over (details : Int → Except LookupFault (Option PullRequestEvidence))
    (pages pages' : List (List Int)) (limit limit' : Nat) (candidates : Candidates) :
    isMatch (deps.over details pages limit) subject candidates =
      isMatch (deps.over details pages' limit') subject candidates := rfl

/-- With the same pull requests on the pages, the same set is looked at. -/
theorem mem_lookedAt_over {pages' : List (List Int)} {limit' : Nat} (enough : pages.length ≤ limit)
    (enough' : pages'.length ≤ limit') (start : startPage subject = 1)
    (same : ∀ q, q ∈ pages.flatten ↔ q ∈ pages'.flatten) (candidates : Candidates) (q : Int) :
    q ∈ lookedAt (deps.over details pages limit) subject candidates ↔
      q ∈ lookedAt (deps.over details pages' limit') subject candidates := by
  rw [lookedAt_over enough start, lookedAt_over enough' start,
    isMatch_over details pages pages' limit limit']
  split
  · rfl
  · rw [List.mem_append, List.mem_append, same]

/-! ### The outcome of a look-up -/

/-- The result confirms a pull request. -/
def Confirms (result : Except LookupFault Decision) (prNumber : Int) : Prop :=
  ∃ mergedAt kind version proof, result = .ok (.prConfirmed prNumber mergedAt kind version proof)

/-- Where the stored evidence settles nothing: a confirmed pull request is the only match among
those looked at, so two matches among them confirm none. And over pages that are all read, no order
of the pull requests and no cut into pages leads to another one. -/
theorem resolveEvidence_unique (unsettled : subject.existing.bind settledBy = none) :
    (∀ p, Confirms (resolveEvidence deps subject force) p → ∀ q,
      q ∈ lookedAt deps subject (candidates deps subject) ∧
        isMatch deps subject (candidates deps subject) q = true ↔ q = p) ∧
    (∀ a ∈ lookedAt deps subject (candidates deps subject),
      ∀ b ∈ lookedAt deps subject (candidates deps subject), a ≠ b →
        isMatch deps subject (candidates deps subject) a = true →
        isMatch deps subject (candidates deps subject) b = true →
        ∀ p, ¬ Confirms (resolveEvidence deps subject force) p) ∧
    (∀ details (pages pages' : List (List Int)) (limit limit' : Nat), startPage subject = 1 →
      pages.length ≤ limit → pages'.length ≤ limit' →
      (∀ q, q ∈ pages.flatten ↔ q ∈ pages'.flatten) →
      ∀ p p', Confirms (resolveEvidence (deps.over details pages limit) subject force) p →
        Confirms (resolveEvidence (deps.over details pages' limit') subject force) p' → p = p') ∧
    ∀ details (pages : List (List Int)) (limit : Nat), startPage subject = 1 →
      pages.length ≤ limit → (∀ key ∈ (candidates deps subject).keys,
        isMatch (deps.over details pages limit) subject (candidates deps subject) key = false) →
      ∀ a ∈ pages.flatten, ∀ b ∈ pages.flatten, a ≠ b →
        isMatch (deps.over details pages limit) subject (candidates deps subject) a = true →
        isMatch (deps.over details pages limit) subject (candidates deps subject) b = true →
        ∀ p, ¬ Confirms (resolveEvidence (deps.over details pages limit) subject force) p := by
  have unique : ∀ deps p, Confirms (resolveEvidence deps subject force) p → ∀ q,
      q ∈ lookedAt deps subject (candidates deps subject) ∧
        isMatch deps subject (candidates deps subject) q = true ↔ q = p := by
    rintro deps p ⟨mergedAt, kind, version, proof, resolved⟩ q
    exact confirmed_unique unsettled resolved q
  -- two matches in what is looked at would both be the confirmed one
  have conflict : ∀ deps, ∀ a ∈ lookedAt deps subject (candidates deps subject),
      ∀ b ∈ lookedAt deps subject (candidates deps subject), a ≠ b →
        isMatch deps subject (candidates deps subject) a = true →
        isMatch deps subject (candidates deps subject) b = true →
        ∀ p, ¬ Confirms (resolveEvidence deps subject force) p := by
    intro deps a looked b looked' apart matches' matches'' p confirms
    have here := (unique deps p confirms a).mp ⟨looked, matches'⟩
    have there := (unique deps p confirms b).mp ⟨looked', matches''⟩
    exact apart (here.trans there.symm)
  refine ⟨unique deps, conflict deps, ?_, ?_⟩
  · intro details pages pages' limit limit' start enough enough' same p p' confirms confirms'
    obtain ⟨looked, matches'⟩ := (unique _ p confirms p).mpr rfl
    refine (unique _ p' confirms' p).mp ⟨?_, matches'⟩
    exact (mem_lookedAt_over enough enough' start same _ p).mp looked
  · intro details pages limit start enough none a inside b inside' apart matches' matches''
    have enumerated : ∀ q ∈ pages.flatten, q ∈ lookedAt (deps.over details pages limit) subject
        (candidates deps subject) := by
      intro q listed
      have unmatched : ¬ (candidates deps subject).keys.any (isMatch (deps.over details pages limit)
          subject (candidates deps subject)) = true := by
        simpa using none
      rw [lookedAt_over enough start, if_neg unmatched]
      exact List.mem_append_right _ listed
    exact conflict (deps.over details pages limit) a (enumerated a inside) b (enumerated b inside')
      apart matches' matches''

end

/-! ### The look-up as the answer that a round gets -/

/-- The decision as a round takes it. -/
def Decision.toEvidenceDecision (seqEpoch : Int) (row : MergeSequenceRow) :
    Decision → EvidenceDecision
  | .prConfirmed prNumber mergedAt .. => confirmed seqEpoch row prNumber mergedAt
  | .directConfirmed => .directConfirmed none
  | .unresolved reason _ => MergeNumber.unresolved seqEpoch row reason

def LookupFault.toFault : LookupFault → Fault
  | .gitHubApi message => .error message
  | .other message => .error message

/-- What a look-up comes to, in the round's words. -/
def Decision.toScan : Decision → EvidenceScan
  | .prConfirmed prNumber mergedAt .. => .confirmed prNumber mergedAt
  | .directConfirmed => .unresolved .prEvidencePending
  | .unresolved reason _ => .unresolved reason

/-- A look-up never takes a commit for a direct push. -/
inductive NotDirect : Except LookupFault Decision → Prop
  | error (fault : LookupFault) : NotDirect (.error fault)
  | confirmed (prNumber : Int) (mergedAt : Instant) (kind : EvidenceSourceKind)
      (version : Option Int) (proof : EvidenceProof) :
      NotDirect (.ok (.prConfirmed prNumber mergedAt kind version proof))
  | unresolved (reason : BlockReason) (proof : EvidenceProof) :
      NotDirect (.ok (.unresolved reason proof))

theorem decideMatches_notDirect (subject : EvidenceSubject) (found : List Match)
    (finished : EvidenceProof) : NotDirect (.ok (decideMatches subject found finished)) := by
  unfold decideMatches
  split
  · exact .unresolved _ _
  · exact .confirmed _ _ _ _ _
  · exact .unresolved _ _

theorem lookUp_notDirect (deps : EvidenceDeps) (subject : EvidenceSubject)
    (candidates : Candidates) : NotDirect (lookUp deps subject candidates) := by
  unfold lookUp
  cases verifyCandidates deps subject candidates [] with
  | error fault => exact .error fault
  | ok found =>
    simp only [bind, Except.bind]
    split
    · cases enumeratePages deps subject _ (maxPages deps - 1) 0 (startPage subject)
          ⟨candidates.map Prod.fst, []⟩ with
      | error fault => exact .error fault
      | ok out =>
        dsimp only
        split
        · exact .unresolved _ _
        · exact decideMatches_notDirect ..
        · exact decideMatches_notDirect ..
    · exact decideMatches_notDirect ..

theorem scanCommit_notDirect (deps : EvidenceDeps) (subject : EvidenceSubject) :
    NotDirect (scanCommit deps subject) := by
  unfold scanCommit
  split
  · exact .unresolved _ _
  · exact .unresolved _ _
  · split
    · exact .unresolved _ _
    · cases deps.findSnapshotsByMergeCommit with
      | error fault => exact .error fault
      | ok snapshots =>
        simp only [bind, Except.bind]
        have looked := lookUp_notDirect deps subject (candidatesOf subject.candidateHint snapshots)
        split
        · exact .unresolved _ _
        · exact looked

/-- The answers of the outside that this look-up stands for. -/
structure Answers (deps : EvidenceDeps) (subject : EvidenceSubject) (row : MergeSequenceRow)
    (choice : Choice) : Prop where
  scan : choice.scanEvidence row =
    ((scanCommit deps subject).map Decision.toScan).mapError LookupFault.toFault
  recheck : ∀ existing, subject.existing = some existing →
    choice.recheckPending = recentlyChecked deps.now existing

theorem settled_toEvidenceRow (seqEpoch : Int) (row : MergeSequenceRow)
    (existing : StoredEvidence) :
    settled seqEpoch row existing.toEvidenceRow =
      (settledBy existing).map (Decision.toEvidenceDecision seqEpoch row) := by
  unfold settled settledBy
  cases existing.state with
  | unresolved => rfl
  | directConfirmed => rfl
  | prConfirmed =>
    cases existing.prNumber with
    | none => rfl
    | some prNumber => cases existing.mergedAt <;> rfl

section

variable {W : Type} [DecidableEq W] {deps : EvidenceDeps} {subject : EvidenceSubject}
  {row : MergeSequenceRow} {choice : Choice}

theorem scan_refines (answers : Answers deps subject row choice) (seqEpoch : Int) (w : W)
    (world : World W) :
    (machine W fun _ => True).eval w choice (scan seqEpoch row) world =
      some (((scanCommit deps subject).map (Decision.toEvidenceDecision seqEpoch row)).mapError
        LookupFault.toFault, world) := by
  have answered : (machine W fun _ => True).eval w choice (scan seqEpoch row) world =
      (machine W fun _ => True).eval w choice
        (match choice.scanEvidence row with
          | .ok (.confirmed prNumber mergedAt) => .ret (confirmed seqEpoch row prNumber mergedAt)
          | .ok (.unresolved reason) => .ret (MergeNumber.unresolved seqEpoch row reason)
          | .error fault => .raise fault) world := by
    unfold scan
    simp only [Prog.perform, Prog.bind_eq, Prog.bind, Machine.eval, machine, step,
      Sequence.answered]
    cases choice.scanEvidence row with
    | error fault => rfl
    | ok found => cases found <;> rfl
  rw [answered, answers.scan]
  have notDirect := scanCommit_notDirect deps subject
  generalize scanCommit deps subject = result at notDirect
  cases notDirect with
  | error fault => cases fault <;> rfl
  | confirmed => rfl
  | unresolved => rfl

/-- The round's `resolveEvidence`, answered by this look-up, decides as this one does. -/
theorem resolveEvidence_refines (answers : Answers deps subject row choice) (seqEpoch : Int)
    (force : Bool) (w : W) (world : World W) :
    (machine W fun _ => True).eval w choice
        (MergeNumber.resolveEvidence seqEpoch row
          (subject.existing.map StoredEvidence.toEvidenceRow) force) world =
      some (((resolveEvidence deps subject force).map
        (Decision.toEvidenceDecision seqEpoch row)).mapError LookupFault.toFault, world) := by
  have scanned := scan_refines answers seqEpoch w world
  unfold MergeNumber.resolveEvidence resolveEvidence
  cases stored : subject.existing with
  | none => exact scanned
  | some existing =>
    simp only [Option.map_some, Option.bind_some, settled_toEvidenceRow]
    cases settledBy existing with
    | some decision => rfl
    | none =>
      simp only [Option.map_none, stillPending, Option.filter_some]
      have recheck := answers.recheck existing stored
      by_cases asks : existing.state = .unresolved ∧ ¬ force = true ∧
          existing.reason ≠ some .partialLookup
      · rw [if_pos asks]
        simp only [Prog.perform, Prog.bind_eq, Prog.bind, Machine.eval, machine, step,
          Sequence.answered, recheck]
        by_cases recent : recentlyChecked deps.now existing = true
        · have pending : decide (existing.state = .unresolved ∧ ¬ force = true ∧
              existing.reason ≠ some .partialLookup ∧
                recentlyChecked deps.now existing = true) = true :=
            decide_eq_true ⟨asks.1, asks.2.1, asks.2.2, recent⟩
          rw [if_pos recent, if_pos pending]
          rfl
        · have past : ¬ decide (existing.state = .unresolved ∧ ¬ force = true ∧
              existing.reason ≠ some .partialLookup ∧
                recentlyChecked deps.now existing = true) = true :=
            fun held => recent (of_decide_eq_true held).2.2.2
          rw [if_neg recent, if_neg past]
          exact scanned
      · have past : ¬ decide (existing.state = .unresolved ∧ ¬ force = true ∧
            existing.reason ≠ some .partialLookup ∧
              recentlyChecked deps.now existing = true) = true := by
          intro held
          obtain ⟨pending, forced, partial', -⟩ := of_decide_eq_true held
          exact asks ⟨pending, forced, partial'⟩
        rw [if_neg asks, if_neg past]
        exact scanned

end

/-! ### A hint, and a limit -/

/-- A commit that nothing is stored of, with or without a candidate. -/
def squashOf (candidateHint : Option Int) : EvidenceSubject where
  repositoryId := 1
  baseBranch := "main"
  commitSha := "c0"
  candidateHint := candidateHint
  existing := none

/-- Every pull request was merged as the commit `c0`. -/
def mergedDetail (_ : Int) : Except LookupFault (Option PullRequestEvidence) :=
  .ok (some ⟨true, some 0, some "c0", none, "main", some 1⟩)

/-- A look-up of a squash commit that no snapshot names. -/
def plainDeps : EvidenceDeps where
  source := none
  readCommit := .ok (some 1)
  findSnapshotsByMergeCommit := .ok []
  maxPagesPerRound := none
  now := 0

/-- An environment that answers as this look-up does. -/
def answering (deps : EvidenceDeps) (subject : EvidenceSubject) : Choice where
  scanEvidence _ := ((scanCommit deps subject).map Decision.toScan).mapError LookupFault.toFault
  recheckPending := subject.existing.any (recentlyChecked deps.now)

theorem answering_answers (deps : EvidenceDeps) (subject : EvidenceSubject)
    (row : MergeSequenceRow) : Answers deps subject row (answering deps subject) where
  scan := rfl
  recheck existing stored := by simp [answering, stored]

theorem resolveEvidence_refines_squash :
    (machine Unit fun _ => True).eval ()
        (answering (plainDeps.over mergedDetail [[7]] 100) (squashOf none))
        (MergeNumber.resolveEvidence 1 ⟨1, 1, "c0", none, 0, none⟩ none false)
        (World.initial Store.empty) =
      some (.ok (confirmed 1 ⟨1, 1, "c0", none, 0, none⟩ 7 0), World.initial Store.empty) :=
  resolveEvidence_refines (answering_answers _ (squashOf none) _) 1 false () _

theorem resolveEvidence_unique_one :
    Confirms (resolveEvidence (plainDeps.over mergedDetail [[7]] 100) (squashOf none) false) 7 ∧
      (∀ q, q ∈ lookedAt (plainDeps.over mergedDetail [[7]] 100) (squashOf none) [] ∧
        isMatch (plainDeps.over mergedDetail [[7]] 100) (squashOf none) [] q = true ↔ q = 7) := by
  have confirms :
      Confirms (resolveEvidence (plainDeps.over mergedDetail [[7]] 100) (squashOf none) false) 7 :=
    ⟨_, _, _, _, rfl⟩
  exact ⟨confirms, (resolveEvidence_unique rfl).1 7 confirms⟩

/-- Two pull requests match the commit. Enumerated in full they stop the numbering; but a hint
confirms either of them, and so does a limit of one page, whichever page comes first. -/
theorem two_matches_confirmed :
    (∀ p, ¬ Confirms (resolveEvidence (plainDeps.over mergedDetail [[7], [8]] 100)
      (squashOf none) false) p) ∧
    Confirms (resolveEvidence (plainDeps.over mergedDetail [[7], [8]] 100)
      (squashOf (some 7)) false) 7 ∧
    Confirms (resolveEvidence (plainDeps.over mergedDetail [[7], [8]] 100)
      (squashOf (some 8)) false) 8 ∧
    Confirms (resolveEvidence (plainDeps.over mergedDetail [[7], [8]] 1) (squashOf none) false) 7 ∧
    Confirms (resolveEvidence (plainDeps.over mergedDetail [[8], [7]] 1)
      (squashOf none) false) 8 := by
  refine ⟨?_, ⟨_, _, _, _, rfl⟩, ⟨_, _, _, _, rfl⟩, ⟨_, _, _, _, rfl⟩, ⟨_, _, _, _, rfl⟩⟩
  rintro p ⟨mergedAt, kind, version, proof, resolved⟩
  have conflict : resolveEvidence (plainDeps.over mergedDetail [[7], [8]] 100)
      (squashOf none) false =
        .ok (.unresolved .mappingConflict ⟨none, some 2, some true, none⟩) := rfl
  rw [conflict] at resolved
  cases resolved

end PrSearch.MergeNumber.Lookup
