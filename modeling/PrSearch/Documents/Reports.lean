import PrSearch.Documents.Consistency

/-! # What the reports say

A number is in the sample of its side when fewer than a thousand numbers of that side are greater.
Below that cut nothing is known: a number reported as missing or as surplus is truly so when it lies
above the cut of the other side. The contents of what both samples hold differ exactly when the
fingerprints do, and the report names the twenty greatest such numbers.
-/
namespace PrSearch.Documents

open Lib Index

/-! ### Numbers as texts -/

theorem natRepr_injective {a b : Nat} (same : a.repr = b.repr) : a = b := by
  have digits : Nat.toDigits 10 a = Nat.toDigits 10 b := by
    rw [← Nat.toList_repr, ← Nat.toList_repr, same]
  have read (n : Nat) : Nat.ofDigitChars 10 (Nat.toDigits 10 n) 0 = n :=
    Nat.ofDigitChars_toDigits (by decide) (by decide)
  rw [← read a, digits, read b]

/-- The text of a natural number has no sign. -/
theorem natRepr_ne_minus (a b : Nat) : a.repr ≠ "-" ++ b.repr := by
  intro same
  have inside : '-' ∈ Nat.toDigits 10 a := by
    rw [← Nat.toList_repr, same, String.toList_append]
    simp
  exact absurd (Nat.isDigit_of_mem_toDigits (by decide) (by decide) inside) (by decide)

theorem intRepr_injective {a b : Int} (same : toString a = toString b) : a = b := by
  cases a with
  | ofNat m =>
    cases b with
    | ofNat n => exact congrArg Int.ofNat (natRepr_injective same)
    | negSucc n => exact absurd same (natRepr_ne_minus m (n + 1))
  | negSucc m =>
    cases b with
    | ofNat n => exact absurd same.symm (natRepr_ne_minus n (m + 1))
    | negSucc n =>
      have bare : (m + 1).repr = (n + 1).repr := by
        have lists : ("-" ++ (m + 1).repr).toList = ("-" ++ (n + 1).repr).toList :=
          congrArg String.toList same
        rw [String.toList_append, String.toList_append] at lists
        exact String.toList_inj.mp (List.append_cancel_left lists)
      exact congrArg Int.negSucc (Nat.succ.inj (natRepr_injective bare))

/-! ### Fingerprints and contents -/

/-- The same value, where a missing one counts as `null` and a list without its order. -/
def SameValue (left right : Option Json) : Prop :=
  match left.getD .null, right.getD .null with
  | .array these, .array those => (these.map text).Perm (those.map text)
  | this, that => this = that

/-- Alike in every field of the fingerprint. -/
def Alike (left right : Fields) : Prop :=
  ∀ field ∈ fingerprintFields, SameValue (left.lookup field) (right.lookup field)

theorem strings_injective {left right : List String} (same : strings left = strings right) :
    left = right := by
  rw [strings, strings, Json.array.injEq] at same
  exact List.map_injective_iff.mpr (fun _ _ same => Json.string.inj same) same

/-- Sorting forgets the order and nothing else. -/
theorem sorted_eq_iff_perm (left right : List String) :
    left.insertionSort (· ≤ ·) = right.insertionSort (· ≤ ·) ↔ left.Perm right := by
  constructor
  · intro same
    have leftPerm := List.perm_insertionSort (· ≤ ·) left
    rw [same] at leftPerm
    exact leftPerm.symm.trans (List.perm_insertionSort (· ≤ ·) right)
  · intro perm
    have sortedPerm := (List.perm_insertionSort (· ≤ ·) left).trans
      (perm.trans (List.perm_insertionSort (· ≤ ·) right).symm)
    exact sortedPerm.eq_of_pairwise' (List.pairwise_insertionSort _ left)
      (List.pairwise_insertionSort _ right)

theorem canonicalValue_getD (value : Option Json) :
    canonicalValue value = canonicalValue (some (value.getD .null)) := by
  cases value <;> rfl

theorem canonicalValue_eq_iff (left right : Option Json) :
    canonicalValue left = canonicalValue right ↔ SameValue left right := by
  rw [canonicalValue_getD left, canonicalValue_getD right, SameValue]
  generalize left.getD .null = this
  generalize right.getD .null = that
  cases this <;> cases that
  -- two lists are compared as sorted texts, a list and another value are different
  case array.array these those =>
    constructor
    · intro same
      exact (sorted_eq_iff_perm _ _).mp (strings_injective same)
    · intro perm
      exact congrArg strings ((sorted_eq_iff_perm _ _).mpr perm)
  all_goals simp [canonicalValue, strings]

theorem fingerprint_eq_iff (left right : Fields) :
    fingerprint left = fingerprint right ↔ Alike left right := by
  rw [fingerprint, fingerprint, List.map_inj_left, Alike]
  refine forall₂_congr fun field _ => ?_
  rw [Prod.mk.injEq, and_iff_right rfl, canonicalValue_eq_iff]

variable {ρ : Type} {number : ρ → Int} {rows : List ρ} {numbers : List Int} {n : Int} {count : Nat}

/-! ### The two samples -/

/-- Writing the entries of a list under distinct numbers. -/
theorem foldl_update {φ : Type} (value : ρ → φ) (distinct : (rows.map number).Nodup)
    (start : Int → Option φ) (n : Int) (found : Option φ) :
    rows.foldl (fun held row => Function.update held (number row) (some (value row))) start n =
        found ↔
      (∃ row ∈ rows, number row = n ∧ found = some (value row)) ∨
        (n ∉ rows.map number ∧ found = start n) := by
  induction rows generalizing start with
  | nil => simp [eq_comm]
  | cons row rest ih =>
    rw [List.map_cons, List.nodup_cons] at distinct
    rw [List.foldl_cons, ih distinct.2, List.map_cons, List.mem_cons]
    by_cases this : n = number row
    · subst this
      have notLater : ∀ other ∈ rest, number other ≠ number row :=
        fun other inside same => distinct.1 (same ▸ List.mem_map_of_mem inside)
      constructor
      · rintro (⟨other, inside, same, _⟩ | ⟨_, is⟩)
        · exact absurd same (notLater other inside)
        · rw [Function.update_self] at is
          exact .inl ⟨row, List.mem_cons_self, rfl, is⟩
      · rintro (⟨other, inside, same, is⟩ | ⟨absent, _⟩)
        · rcases List.mem_cons.mp inside with rfl | later
          · exact .inr ⟨distinct.1, by rw [Function.update_self, is]⟩
          · exact absurd same (notLater other later)
        · exact absurd (.inl rfl) absent
    · rw [Function.update_of_ne this]
      have otherRow : number row ≠ n := fun same => this same.symm
      simp [this, otherRow]

section Samples

variable (snapshots : Snapshots) (index : IndexDocuments) (repository : RepositoryRow)

/-- How many snapshots have a greater number. -/
def snapshotsAbove (n : Int) : Nat :=
  (snapshots.rows.filter fun row => row.repositoryId = repository.repositoryId).countP
    fun row => n < row.prNumber

def documentsAbove (n : Int) : Nat :=
  (index.rows.filter fun document => document.repositoryId = repository.repositoryId).countP
    fun document => n < document.prNumber

/-- The canonical snapshot of a number. -/
def IsSnapshot (n : Int) (row : StoredSnapshot) : Prop :=
  row ∈ snapshots.rows ∧ row.repositoryId = repository.repositoryId ∧ row.prNumber = n

def IsDocument (n : Int) (document : StoredDocument) : Prop :=
  document ∈ index.rows ∧ document.repositoryId = repository.repositoryId ∧ document.prNumber = n

/-- Within one repository the numbers are distinct. -/
theorem numbers_nodup {key : ρ → Int × Int} (table : Rows.Table key) (repositoryId : Int) :
    ((table.rows.filter fun row => (key row).1 = repositoryId).map fun row => (key row).2).Nodup := by
  have keys := (table.keyed : (table.rows.map key).Nodup).sublist
    ((List.filter_sublist (p := fun row => (key row).1 = repositoryId)).map key)
  refine (List.nodup_map_iff_inj_on (List.Nodup.of_map key keys)).mpr ?_
  intro left leftIn right rightIn same
  have leftHere := (List.mem_filter.mp leftIn).2
  have rightHere := (List.mem_filter.mp rightIn).2
  refine List.inj_on_of_nodup_map keys leftIn rightIn (Prod.ext ?_ same)
  exact (of_decide_eq_true leftHere).trans (of_decide_eq_true rightHere).symm

theorem snapshots_nodup : ((snapshots.rows.filter fun row =>
    row.repositoryId = repository.repositoryId).map fun row => row.prNumber).Nodup :=
  numbers_nodup snapshots repository.repositoryId

theorem documents_nodup : ((index.rows.filter fun document =>
    document.repositoryId = repository.repositoryId).map fun document => document.prNumber).Nodup :=
  numbers_nodup index repository.repositoryId

theorem mem_listSnapshots (row : StoredSnapshot) :
    row ∈ listSnapshots snapshots repository.repositoryId consistencySampleSize ↔
      IsSnapshot snapshots repository row.prNumber row ∧
        snapshotsAbove snapshots repository row.prNumber < consistencySampleSize := by
  rw [listSnapshots, Rows.mem_top (snapshots_nodup snapshots repository), IsSnapshot,
    snapshotsAbove, decide_eq_true_iff, and_iff_left (rfl : row.prNumber = row.prNumber), and_assoc]

theorem mem_search (document : StoredDocument) :
    document ∈ (search index repository.repositoryId consistencySampleSize).1 ↔
      IsDocument index repository document.prNumber document ∧
        documentsAbove index repository document.prNumber < consistencySampleSize := by
  rw [search, Rows.mem_top (documents_nodup index repository), IsDocument, documentsAbove,
    decide_eq_true_iff, and_iff_left (rfl : document.prNumber = document.prNumber), and_assoc]

theorem pairwise_listSnapshots :
    (listSnapshots snapshots repository.repositoryId consistencySampleSize).Pairwise
      fun a b => b.prNumber < a.prNumber :=
  Rows.pairwise_top (snapshots_nodup snapshots repository)

theorem pairwise_search :
    (search index repository.repositoryId consistencySampleSize).1.Pairwise
      fun a b => b.prNumber < a.prNumber :=
  Rows.pairwise_top (documents_nodup index repository)

end Samples

/-! ### What a side says of a number -/

section Sides

variable (snapshots : Snapshots) (index : IndexDocuments) (repository : RepositoryRow)

theorem nodup_of_pairwise_lt (sorted : rows.Pairwise fun a b => number b < number a) :
    (rows.map number).Nodup :=
  List.pairwise_map.mpr (sorted.imp fun less => (ne_of_lt less).symm)

/-- The hits have distinct numbers, so that none is left out of the set. -/
theorem elasticsearch_fold {hits : List StoredDocument}
    (distinct : (hits.map fun hit => hit.prNumber).Nodup) (side : Side)
    (apart : ∀ hit ∈ hits, hit.prNumber ∉ side.numbers) :
    hits.foldl readHit side = (⟨side.numbers ++ hits.map fun hit => hit.prNumber,
      hits.foldl (fun held hit => Function.update held hit.prNumber (some (fingerprint hit.source)))
        side.fingerprints⟩ : Side) := by
  induction hits generalizing side with
  | nil => simp
  | cons hit rest ih =>
    rw [List.map_cons, List.nodup_cons] at distinct
    have read : readHit side hit = ⟨side.numbers ++ [hit.prNumber],
        Function.update side.fingerprints hit.prNumber (some (fingerprint hit.source))⟩ := by
      rw [readHit, hit.numbered]
      dsimp only
      rw [if_neg (apart hit List.mem_cons_self)]
    rw [List.foldl_cons, List.foldl_cons, read, ih distinct.2]
    · simp
    · intro other inside
      rw [List.mem_append, List.mem_singleton]
      rintro (before | same)
      · exact apart other (List.mem_cons_of_mem _ inside) before
      · exact distinct.1 (same ▸ List.mem_map_of_mem inside)

theorem elasticsearchPullRequests_eq :
    (elasticsearchPullRequests index repository.repositoryId).1 =
      ⟨(search index repository.repositoryId consistencySampleSize).1.map fun hit => hit.prNumber,
        (search index repository.repositoryId consistencySampleSize).1.foldl
          (fun held hit => Function.update held hit.prNumber (some (fingerprint hit.source)))
          fun _ => none⟩ := by
  rw [elasticsearchPullRequests]
  dsimp only
  rw [elasticsearch_fold (nodup_of_pairwise_lt (pairwise_search index repository)) _
    fun _ _ inside => absurd inside List.not_mem_nil]
  rfl

theorem mem_postgres_numbers (n : Int) :
    n ∈ (postgresPullRequests snapshots repository).numbers ↔
      (∃ row, IsSnapshot snapshots repository n row) ∧
        snapshotsAbove snapshots repository n < consistencySampleSize := by
  rw [postgresPullRequests, List.mem_map]
  constructor
  · rintro ⟨row, inside, rfl⟩
    obtain ⟨is, above⟩ := (mem_listSnapshots snapshots repository row).mp inside
    exact ⟨⟨row, is⟩, above⟩
  · rintro ⟨⟨row, is⟩, above⟩
    obtain ⟨stored, here, rfl⟩ := is
    exact ⟨row, (mem_listSnapshots snapshots repository row).mpr ⟨⟨stored, here, rfl⟩, above⟩, rfl⟩

theorem mem_elasticsearch_numbers (n : Int) :
    n ∈ (elasticsearchPullRequests index repository.repositoryId).1.numbers ↔
      (∃ document, IsDocument index repository n document) ∧
        documentsAbove index repository n < consistencySampleSize := by
  rw [elasticsearchPullRequests_eq, List.mem_map]
  constructor
  · rintro ⟨document, inside, rfl⟩
    obtain ⟨is, above⟩ := (mem_search index repository document).mp inside
    exact ⟨⟨document, is⟩, above⟩
  · rintro ⟨⟨document, is⟩, above⟩
    obtain ⟨stored, here, rfl⟩ := is
    exact ⟨document, (mem_search index repository document).mpr ⟨⟨stored, here, rfl⟩, above⟩, rfl⟩

theorem postgres_fingerprint (n : Int) (found : Fingerprint) :
    (postgresPullRequests snapshots repository).fingerprints n = some found ↔
      ∃ row, IsSnapshot snapshots repository n row ∧
        snapshotsAbove snapshots repository n < consistencySampleSize ∧
          found = fingerprint (expected repository row) := by
  rw [postgresPullRequests, foldl_update (fun row => fingerprint (expected repository row))
    (nodup_of_pairwise_lt (pairwise_listSnapshots snapshots repository))]
  constructor
  · rintro (⟨row, inside, rfl, is⟩ | ⟨_, nothing⟩)
    · obtain ⟨isSnapshot, above⟩ := (mem_listSnapshots snapshots repository row).mp inside
      exact ⟨row, isSnapshot, above, Option.some.inj is⟩
    · exact absurd nothing (Option.some_ne_none found)
  · rintro ⟨row, ⟨stored, here, rfl⟩, above, rfl⟩
    exact .inl ⟨row, (mem_listSnapshots snapshots repository row).mpr ⟨⟨stored, here, rfl⟩, above⟩,
      rfl, rfl⟩

theorem elasticsearch_fingerprint (n : Int) (found : Fingerprint) :
    (elasticsearchPullRequests index repository.repositoryId).1.fingerprints n = some found ↔
      ∃ document, IsDocument index repository n document ∧
        documentsAbove index repository n < consistencySampleSize ∧
          found = fingerprint document.source := by
  rw [elasticsearchPullRequests_eq, foldl_update (fun hit => fingerprint hit.source)
    (nodup_of_pairwise_lt (pairwise_search index repository))]
  constructor
  · rintro (⟨document, inside, rfl, is⟩ | ⟨_, nothing⟩)
    · obtain ⟨isDocument, above⟩ := (mem_search index repository document).mp inside
      exact ⟨document, isDocument, above, Option.some.inj is⟩
    · exact absurd nothing (Option.some_ne_none found)
  · rintro ⟨document, ⟨stored, here, rfl⟩, above, rfl⟩
    exact .inl ⟨document, (mem_search index repository document).mpr ⟨⟨stored, here, rfl⟩, above⟩,
      rfl, rfl⟩

/-- Sampled on both sides, with different contents. -/
def Drifts (n : Int) : Prop :=
  ∃ row document, IsSnapshot snapshots repository n row ∧ IsDocument index repository n document ∧
    snapshotsAbove snapshots repository n < consistencySampleSize ∧
    documentsAbove index repository n < consistencySampleSize ∧
    ¬ Alike (expected repository row) document.source

theorem mem_drifted (n : Int) :
    n ∈ drifted (postgresPullRequests snapshots repository)
        (elasticsearchPullRequests index repository.repositoryId).1 ↔
      Drifts snapshots index repository n := by
  rw [drifted, List.mem_filter, mem_postgres_numbers]
  constructor
  · rintro ⟨_, differs⟩
    split at differs
    case h_1 expectedIs actualIs =>
      obtain ⟨row, isRow, rowAbove, rfl⟩ := (postgres_fingerprint snapshots repository n _).mp expectedIs
      obtain ⟨document, isDocument, documentAbove, rfl⟩ :=
        (elasticsearch_fingerprint index repository n _).mp actualIs
      refine ⟨row, document, isRow, isDocument, rowAbove, documentAbove, ?_⟩
      rw [← fingerprint_eq_iff]
      exact of_decide_eq_true differs
    case h_2 => exact absurd differs Bool.false_ne_true
  · rintro ⟨row, document, isRow, isDocument, rowAbove, documentAbove, differs⟩
    refine ⟨⟨⟨row, isRow⟩, rowAbove⟩, ?_⟩
    rw [(postgres_fingerprint snapshots repository n _).mpr ⟨row, isRow, rowAbove, rfl⟩,
      (elasticsearch_fingerprint index repository n _).mpr ⟨document, isDocument, documentAbove, rfl⟩]
    rw [← fingerprint_eq_iff] at differs
    exact decide_eq_true differs

end Sides

/-! ### The reports of a check -/

/-- A report of this kind has the number among its identifiers. -/
def Outcome.Names (outcome : Outcome) (kind : MismatchKind) (n : Int) : Prop :=
  ∃ report ∈ outcome.reports, report.kind = kind ∧ toString n ∈ report.sampleIdentifiers

theorem mem_reportOn {slug : String} {kind : MismatchKind} {left right : Nat}
    {report : ConsistencyReport} :
    report ∈ reportOn slug kind left right numbers ↔ numbers ≠ [] ∧
      report = ⟨slug, kind, left, right, (numbers.take maxSampleIdentifiers).map toString⟩ := by
  rw [reportOn]
  split
  · case isTrue none => simp [none]
  · case isFalse some => simp [some]

theorem toString_mem_map : toString n ∈ numbers.map (toString : Int → String) ↔ n ∈ numbers := by
  constructor
  · intro inside
    obtain ⟨other, mine, same⟩ := List.mem_map.mp inside
    exact intRepr_injective same ▸ mine
  · exact List.mem_map_of_mem

section Check

variable (snapshots : Snapshots) (index : IndexDocuments) (requestReprojection : Bool)
  {repository : RepositoryRow}

/-- The reports of a kind name the first numbers found for that kind. -/
theorem names_iff (bootstrapped : repository.bootstrapped = true) (n : Int) :
    let pgSide := postgresPullRequests snapshots repository
    let esSide := (elasticsearchPullRequests index repository.repositoryId).1
    let outcome := checkRepositoryConsistency snapshots index requestReprojection repository
    (outcome.Names .missingInEs n ↔ n ∈ (missingInEs pgSide esSide).take maxSampleIdentifiers) ∧
      (outcome.Names .content n ↔ n ∈ (drifted pgSide esSide).take maxSampleIdentifiers) ∧
      (outcome.Names .extraInEs n ↔ n ∈ (extraInEs pgSide esSide).take maxSampleIdentifiers) ∧
      ¬ outcome.Names .snapshotBootstrapPending n ∧ ¬ outcome.Names .count n ∧
      outcome.reprojected = if requestReprojection then missingInEs pgSide esSide else [] := by
  intro pgSide esSide outcome
  let slug := repository.owner ++ "/" ++ repository.name
  let report := fun kind => reportOn slug kind pgSide.numbers.length esSide.numbers.length
  let count : List ConsistencyReport :=
    if countSnapshots snapshots repository.repositoryId ≠
        (elasticsearchPullRequests index repository.repositoryId).2 then
      [⟨slug, .count, countSnapshots snapshots repository.repositoryId,
        (elasticsearchPullRequests index repository.repositoryId).2, []⟩] else []
  have is : outcome = ⟨count ++ report .missingInEs (missingInEs pgSide esSide) ++
      report .content (drifted pgSide esSide) ++ report .extraInEs (extraInEs pgSide esSide),
      if requestReprojection then missingInEs pgSide esSide else []⟩ := by
    simp only [outcome, checkRepositoryConsistency, bootstrapped, Bool.not_true, Bool.false_eq_true,
      if_false]
    rfl
  have countIs : ∀ report ∈ count, report.kind = .count ∧ report.sampleIdentifiers = [] := by
    intro report inside
    simp only [count] at inside
    split at inside
    · rw [List.mem_singleton.mp inside]
      exact ⟨rfl, rfl⟩
    · exact absurd inside List.not_mem_nil
  have byKind (kind : MismatchKind) (numbers : List Int) (n : Int) :
      (∃ found ∈ report kind numbers, toString n ∈ found.sampleIdentifiers) ↔
        n ∈ numbers.take maxSampleIdentifiers := by
    constructor
    · rintro ⟨found, inside, named⟩
      obtain ⟨_, rfl⟩ := mem_reportOn.mp inside
      exact toString_mem_map.mp named
    · intro inside
      refine ⟨_, mem_reportOn.mpr ⟨?_, rfl⟩, toString_mem_map.mpr inside⟩
      rintro rfl
      simp at inside
  have kindOf {kind : MismatchKind} {numbers : List Int} {found : ConsistencyReport}
      (inside : found ∈ report kind numbers) : found.kind = kind := by
    obtain ⟨_, rfl⟩ := mem_reportOn.mp inside
    rfl
  -- the reports of each kind come from one of the four parts
  have parts (kind : MismatchKind) : outcome.Names kind n ↔
      (kind = .missingInEs ∧ n ∈ (missingInEs pgSide esSide).take maxSampleIdentifiers) ∨
      (kind = .content ∧ n ∈ (drifted pgSide esSide).take maxSampleIdentifiers) ∨
      (kind = .extraInEs ∧ n ∈ (extraInEs pgSide esSide).take maxSampleIdentifiers) := by
    rw [Outcome.Names, is]
    simp only [List.mem_append, or_and_right, exists_or, or_assoc]
    rw [← byKind .missingInEs, ← byKind .content, ← byKind .extraInEs]
    constructor
    · rintro (⟨found, inside, _, named⟩ | ⟨found, inside, rfl, named⟩ |
        ⟨found, inside, rfl, named⟩ | ⟨found, inside, rfl, named⟩)
      · rw [(countIs found inside).2] at named
        exact absurd named List.not_mem_nil
      · exact .inl ⟨kindOf inside, found, inside, named⟩
      · exact .inr (.inl ⟨kindOf inside, found, inside, named⟩)
      · exact .inr (.inr ⟨kindOf inside, found, inside, named⟩)
    · rintro (⟨rfl, found, inside, named⟩ | ⟨rfl, found, inside, named⟩ | ⟨rfl, found, inside, named⟩)
      · exact .inr (.inl ⟨found, inside, kindOf inside, named⟩)
      · exact .inr (.inr (.inl ⟨found, inside, kindOf inside, named⟩))
      · exact .inr (.inr (.inr ⟨found, inside, kindOf inside, named⟩))
  refine ⟨?_, ?_, ?_, ?_, ?_, congrArg Outcome.reprojected is⟩ <;> simp [parts]

end Check

/-! ### Soundness -/

section Soundness

variable (snapshots : Snapshots) (index : IndexDocuments) (repository : RepositoryRow)

/-- What a check says is so, up to the cuts of the samples and the length of a report. -/
structure Sound (outcome : Outcome) : Prop where
  missing : ∀ n, outcome.Names .missingInEs n ∨ n ∈ outcome.reprojected →
    (∃ row, IsSnapshot snapshots repository n row) ∧
      ∀ document, IsDocument index repository n document →
        consistencySampleSize ≤ documentsAbove index repository n
  extra : ∀ n, outcome.Names .extraInEs n → (∃ document, IsDocument index repository n document) ∧
    ∀ row, IsSnapshot snapshots repository n row →
      consistencySampleSize ≤ snapshotsAbove snapshots repository n
  content : ∃ numbers : List Int, numbers.Pairwise (· > ·) ∧
    (∀ n, n ∈ numbers ↔ Drifts snapshots index repository n) ∧
    ∀ n, outcome.Names .content n ↔ n ∈ numbers.take maxSampleIdentifiers
  alike : ∀ n row document, IsSnapshot snapshots repository n row →
    IsDocument index repository n document → Alike (expected repository row) document.source →
      ¬ outcome.Names .content n ∧
      (documentsAbove index repository n < consistencySampleSize →
        ¬ outcome.Names .missingInEs n ∧ n ∉ outcome.reprojected) ∧
      (snapshotsAbove snapshots repository n < consistencySampleSize → ¬ outcome.Names .extraInEs n)

/-- A number has one snapshot and one document. -/
theorem isSnapshot_unique {row other : StoredSnapshot} (is : IsSnapshot snapshots repository n row)
    (isOther : IsSnapshot snapshots repository n other) : row = other :=
  snapshots.keyed.eq is.1 isOther.1
    (Prod.ext (is.2.1.trans isOther.2.1.symm) (is.2.2.trans isOther.2.2.symm))

theorem isDocument_unique {document other : StoredDocument}
    (is : IsDocument index repository n document) (isOther : IsDocument index repository n other) :
    document = other :=
  index.keyed.eq is.1 isOther.1
    (Prod.ext (is.2.1.trans isOther.2.1.symm) (is.2.2.trans isOther.2.2.symm))

theorem pairwise_postgres : (postgresPullRequests snapshots repository).numbers.Pairwise (· > ·) :=
  List.pairwise_map.mpr (pairwise_listSnapshots snapshots repository)

theorem mem_missingInEs (n : Int) :
    n ∈ missingInEs (postgresPullRequests snapshots repository)
        (elasticsearchPullRequests index repository.repositoryId).1 ↔
      ((∃ row, IsSnapshot snapshots repository n row) ∧
        snapshotsAbove snapshots repository n < consistencySampleSize) ∧
      ((∃ document, IsDocument index repository n document) →
        consistencySampleSize ≤ documentsAbove index repository n) := by
  rw [missingInEs, List.mem_filter, mem_postgres_numbers, decide_eq_true_iff,
    mem_elasticsearch_numbers, not_and, not_lt]

theorem mem_extraInEs (n : Int) :
    n ∈ extraInEs (postgresPullRequests snapshots repository)
        (elasticsearchPullRequests index repository.repositoryId).1 ↔
      ((∃ document, IsDocument index repository n document) ∧
        documentsAbove index repository n < consistencySampleSize) ∧
      ((∃ row, IsSnapshot snapshots repository n row) →
        consistencySampleSize ≤ snapshotsAbove snapshots repository n) := by
  rw [extraInEs, List.mem_filter, mem_elasticsearch_numbers, decide_eq_true_iff,
    mem_postgres_numbers, not_and, not_lt]

theorem of_named_missing {requestReprojection : Bool}
    (bootstrapped : repository.bootstrapped = true)
    (named : (checkRepositoryConsistency snapshots index requestReprojection repository).Names
        .missingInEs n ∨
      n ∈ (checkRepositoryConsistency snapshots index requestReprojection repository).reprojected) :
    (∃ row, IsSnapshot snapshots repository n row) ∧
      ∀ document, IsDocument index repository n document →
        consistencySampleSize ≤ documentsAbove index repository n := by
  have names := names_iff snapshots index requestReprojection bootstrapped n
  have inside : n ∈ missingInEs (postgresPullRequests snapshots repository)
      (elasticsearchPullRequests index repository.repositoryId).1 := by
    rcases named with reported | handed
    · exact List.mem_of_mem_take (names.1.mp reported)
    · rw [names.2.2.2.2.2] at handed
      cases requestReprojection with
      | false => exact absurd handed List.not_mem_nil
      | true => exact handed
  obtain ⟨⟨there, _⟩, unlessCut⟩ := (mem_missingInEs snapshots index repository n).mp inside
  exact ⟨there, fun document is => unlessCut ⟨document, is⟩⟩

theorem of_named_extra {requestReprojection : Bool} (bootstrapped : repository.bootstrapped = true)
    (named : (checkRepositoryConsistency snapshots index requestReprojection repository).Names
      .extraInEs n) :
    (∃ document, IsDocument index repository n document) ∧
      ∀ row, IsSnapshot snapshots repository n row →
        consistencySampleSize ≤ snapshotsAbove snapshots repository n := by
  have names := names_iff snapshots index requestReprojection bootstrapped n
  have inside := List.mem_of_mem_take (names.2.2.1.mp named)
  obtain ⟨⟨there, _⟩, unlessCut⟩ := (mem_extraInEs snapshots index repository n).mp inside
  exact ⟨there, fun row is => unlessCut ⟨row, is⟩⟩

/-- The reports of a bootstrapped repository are sound. -/
theorem checkRepositoryConsistency_sound (requestReprojection : Bool)
    (bootstrapped : repository.bootstrapped = true) :
    Sound snapshots index repository
      (checkRepositoryConsistency snapshots index requestReprojection repository) where
  missing _ named := of_named_missing snapshots index repository bootstrapped named
  extra _ named := of_named_extra snapshots index repository bootstrapped named
  content := ⟨_, (pairwise_postgres snapshots repository).sublist List.filter_sublist,
    mem_drifted snapshots index repository,
    fun n => (names_iff snapshots index requestReprojection bootstrapped n).2.1⟩
  alike n row document isRow isDocument same := by
    refine ⟨fun named => ?_, fun reached => ⟨fun named => ?_, fun handed => ?_⟩,
      fun reached named => ?_⟩
    · have inside := List.mem_of_mem_take
        ((names_iff snapshots index requestReprojection bootstrapped n).2.1.mp named)
      obtain ⟨other, another, isOther, isAnother, _, _, differs⟩ :=
        (mem_drifted snapshots index repository n).mp inside
      rw [← isSnapshot_unique snapshots repository isRow isOther,
        ← isDocument_unique index repository isDocument isAnother] at differs
      exact differs same
    · exact absurd ((of_named_missing snapshots index repository bootstrapped (.inl named)).2
        document isDocument) (not_le.mpr reached)
    · exact absurd ((of_named_missing snapshots index repository bootstrapped (.inr handed)).2
        document isDocument) (not_le.mpr reached)
    · exact absurd ((of_named_extra snapshots index repository bootstrapped named).2 row isRow)
        (not_le.mpr reached)

end Soundness

/-! ### One row against a thousand and one -/

section Cut

def numberedSnapshot (title : String) (teams : List Json) (n : Nat) : StoredSnapshot where
  documentVersion := 1
  document := object [("repository_id", some (.number 1)), ("pr_number", some (.number n)),
    ("title", some (.string title)), ("allowed_team_ids", some (.array teams))]
  repositoryId := 1
  prNumber := n

def numberedDocument (title : String) (teams : List Json) (n : Nat) : StoredDocument where
  repositoryId := 1
  prNumber := n
  source := object [("repository_id", some (.number 1)), ("pr_number", some (.number n)),
    ("title", some (.string title)), ("allowed_team_ids", some (.array teams)),
    ("org_id", some (.number 1)), ("visibility", some (.string "internal")),
    ("repository_archived", some (.bool false))]
  registered := rfl
  numbered := rfl

theorem numbered_nodup (count : Nat) :
    ((List.range count).map fun n : Nat => ((1 : Int), (n : Int))).Nodup :=
  List.Nodup.map (fun _ _ same => Int.ofNat.inj (Prod.mk.inj same).2) List.nodup_range

def someSnapshots (title : String) (teams : List Json) (count : Nat) : Snapshots where
  rows := (List.range count).map (numberedSnapshot title teams)
  keyed := by
    rw [Rows.Keyed, List.map_map]
    exact numbered_nodup count

def someDocuments (title : String) (teams : List Json) (count : Nat) : IndexDocuments where
  rows := (List.range count).map (numberedDocument title teams)
  keyed := by
    rw [Rows.Keyed, List.map_map]
    exact numbered_nodup count

def teamed : RepositoryRow := { someRepository with allowedTeamIds := [1] }

/-- The elements of lists compared as they are, not as texts. -/
def SameElements (left right : Option Json) : Prop :=
  match left.getD .null, right.getD .null with
  | .array these, .array those => these.Perm those
  | this, that => this = that

/-- The number 0 is the least of a thousand and one. -/
theorem snapshotsAbove_zero :
    snapshotsAbove (someSnapshots "fix" [] 1001) someRepository 0 = consistencySampleSize := by
  decide +kernel

theorem documentsAbove_zero :
    documentsAbove (someDocuments "fix" [] 1001) someRepository 0 = consistencySampleSize := by
  decide +kernel

theorem isSnapshot_zero (title : String) (teams : List Json) (some : 0 < count) :
    IsSnapshot (someSnapshots title teams count) someRepository 0 (numberedSnapshot title teams 0) :=
  ⟨List.mem_map.mpr ⟨0, List.mem_range.mpr some, rfl⟩, rfl, rfl⟩

theorem isDocument_zero (title : String) (teams : List Json) (some : 0 < count) :
    IsDocument (someDocuments title teams count) someRepository 0 (numberedDocument title teams 0) :=
  ⟨List.mem_map.mpr ⟨0, List.mem_range.mpr some, rfl⟩, rfl, rfl⟩

/-- Its document is below the cut, so that it is handed over as missing. -/
theorem zero_reprojected : 0 ∈ (checkRepositoryConsistency (someSnapshots "fix" [] 1)
    (someDocuments "fix" [] 1001) true someRepository).reprojected := by
  rw [(names_iff _ _ true (rfl : someRepository.bootstrapped = true) 0).2.2.2.2.2, if_pos rfl,
    mem_missingInEs]
  exact ⟨⟨⟨_, isSnapshot_zero "fix" [] Nat.one_pos⟩, by decide⟩,
    fun _ => documentsAbove_zero.ge⟩

/-- Its snapshot is below the cut, so that it is reported as surplus. -/
theorem zero_extra : (checkRepositoryConsistency (someSnapshots "fix" [] 1001)
    (someDocuments "fix" [] 1) true someRepository).Names .extraInEs 0 := by
  rw [(names_iff _ _ true (rfl : someRepository.bootstrapped = true) 0).2.2.1]
  have short : (extraInEs (postgresPullRequests (someSnapshots "fix" [] 1001) someRepository)
      (elasticsearchPullRequests (someDocuments "fix" [] 1) someRepository.repositoryId).1).length ≤
        maxSampleIdentifiers := by
    refine (List.length_filter_le ..).trans ?_
    rw [elasticsearchPullRequests_eq, List.length_map]
    exact Rows.length_top_le.trans (by decide)
  rw [List.take_of_length_le short, mem_extraInEs]
  exact ⟨⟨⟨_, isDocument_zero "fix" [] Nat.one_pos⟩, by decide⟩,
    fun _ => snapshotsAbove_zero.ge⟩

theorem checkRepositoryConsistency_sound_cut :
    Sound (someSnapshots "fix" [] 1) (someDocuments "fix" [] 1001) someRepository
      (checkRepositoryConsistency (someSnapshots "fix" [] 1) (someDocuments "fix" [] 1001) true
        someRepository) :=
  checkRepositoryConsistency_sound _ _ someRepository true rfl

/-- Of twenty-one numbers that drift the least is not named. -/
theorem zero_drifts : Drifts (someSnapshots "old" [] 21) (someDocuments "new" [] 21) someRepository 0 ∧
    ¬ (checkRepositoryConsistency (someSnapshots "old" [] 21) (someDocuments "new" [] 21) true
      someRepository).Names .content 0 := by
  rw [(names_iff _ _ true (rfl : someRepository.bootstrapped = true) 0).2.1, ← mem_drifted]
  decide

/-- Team 1 and team "1" are the same text. -/
theorem zero_alike : ¬ (checkRepositoryConsistency (someSnapshots "fix" [] 1)
    (someDocuments "fix" [.string "1"] 1) true teamed).Names .content 0 := by
  rw [(names_iff _ _ true (rfl : teamed.bootstrapped = true) 0).2.1]
  decide

/-- Each of the four parts fails without its amendment: of what is missing, of what is surplus, of
the numbers named for their content, and of elements that are not compared as texts. -/
theorem not_sound :
    (¬ ∀ snapshots index repository n, repository.bootstrapped = true →
      n ∈ (checkRepositoryConsistency snapshots index true repository).reprojected →
        ∀ document, ¬ IsDocument index repository n document) ∧
    (¬ ∀ snapshots index repository n, repository.bootstrapped = true →
      (checkRepositoryConsistency snapshots index true repository).Names .extraInEs n →
        ∀ row, ¬ IsSnapshot snapshots repository n row) ∧
    (¬ ∀ snapshots index repository n, repository.bootstrapped = true →
      Drifts snapshots index repository n →
        (checkRepositoryConsistency snapshots index true repository).Names .content n) ∧
    ¬ ∀ snapshots index repository n row document, repository.bootstrapped = true →
      IsSnapshot snapshots repository n row → IsDocument index repository n document →
      snapshotsAbove snapshots repository n < consistencySampleSize →
      documentsAbove index repository n < consistencySampleSize →
      ¬ (checkRepositoryConsistency snapshots index true repository).Names .content n →
        ∀ field ∈ fingerprintFields,
          SameElements ((expected repository row).lookup field) (document.source.lookup field) := by
  refine ⟨fun all => ?_, fun all => ?_, fun all => ?_, fun all => ?_⟩
  · exact all _ _ _ 0 rfl zero_reprojected _ (isDocument_zero "fix" [] (by decide))
  · exact all _ _ _ 0 rfl zero_extra _ (isSnapshot_zero "fix" [] (by decide))
  · exact zero_drifts.2 (all _ _ _ 0 rfl zero_drifts.1)
  · have same := all (someSnapshots "fix" [] 1) (someDocuments "fix" [.string "1"] 1) teamed 0
      (numberedSnapshot "fix" [] 0) (numberedDocument "fix" [.string "1"] 0) rfl
      (isSnapshot_zero "fix" [] Nat.one_pos) (isDocument_zero "fix" [.string "1"] Nat.one_pos)
      (by decide) (by decide) zero_alike "allowed_team_ids" (by decide)
    have these : (expected teamed (numberedSnapshot "fix" [] 0)).lookup "allowed_team_ids" =
        some (.array [.number 1]) := rfl
    have those : (numberedDocument "fix" [.string "1"] 0).source.lookup "allowed_team_ids" =
        some (.array [.string "1"]) := rfl
    rw [these, those] at same
    exact absurd (List.singleton_perm_singleton.mp same) (by decide)

end Cut

end PrSearch.Documents
