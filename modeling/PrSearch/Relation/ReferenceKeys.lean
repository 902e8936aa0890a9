import PrSearch.Relation.Reference

/-! # The keys of references

A key is a scope, a kind and a value, none of which has a colon inside, and the scope is empty or ends
with one. So a key tells its target from all others, in whatever repository they are. It is read again
as its target when the number in it is written with digits only.
-/
namespace PrSearch.Relation.Reference

open Query (Text isDigits isHexDigit isHexText fullShaLength minShaPrefixLength)
open Lib.Double

/-! ### Well-formed targets -/

/-- `[a-z0-9][a-z0-9._-]*` -/
def KeySegment (text : Text) : Prop :=
  ∃ first rest, text = first :: rest ∧ isKeyFirst first = true ∧ ∀ c ∈ rest, isKeyMore c = true

structure RepoSlug.WellFormed (slug : RepoSlug) : Prop where
  owner : KeySegment slug.owner
  name : KeySegment slug.name

namespace ReferenceTarget

def repo : ReferenceTarget → Option RepoSlug
  | .pullRequest repo _ => repo
  | .commit repo _ => repo
  | .commitPrefix repo _ => repo

def kind : ReferenceTarget → Text
  | .pullRequest .. => "pr".toList
  | .commit .. => "commit".toList
  | .commitPrefix .. => "commit-prefix".toList

def value : ReferenceTarget → Text
  | .pullRequest _ number => number.toText
  | .commit _ sha => sha
  | .commitPrefix _ start => start

/-- The names of commits have their lengths. -/
def Sized : ReferenceTarget → Prop
  | .pullRequest .. => True
  | .commit _ sha => isHexText sha = true ∧ sha.length = fullShaLength
  | .commitPrefix _ start => isHexText start = true ∧ minShaPrefixLength ≤ start.length ∧
      start.length ≤ maxReferenceShaPrefixLength

/-- A target as it is extracted -/
structure WellFormed (target : ReferenceTarget) : Prop where
  slug : ∀ slug ∈ target.repo, slug.WellFormed
  sized : target.Sized

/-- The number, if there is one, is written with digits only. -/
def Plain : ReferenceTarget → Prop
  | .pullRequest _ number => number.Plain
  | .commit .. => True
  | .commitPrefix .. => True

instance (target : ReferenceTarget) : Decidable target.Plain := by
  unfold Plain
  split <;> infer_instance

end ReferenceTarget

theorem referenceKey_eq (target : ReferenceTarget) :
    referenceKey target = scopeText target.repo ++ (target.kind ++ ':' :: target.value) := by
  cases target with
  | pullRequest repo number => exact congrArg (scopeText repo ++ ·) rfl
  | commit repo sha => exact congrArg (scopeText repo ++ ·) rfl
  | commitPrefix repo start => exact congrArg (scopeText repo ++ ·) rfl

/-! ### Different targets have different keys -/

-- The last colon of a text is found from its end.
theorem last_colon {front front' back back' : Text} (none : ':' ∉ back) (none' : ':' ∉ back')
    (same : front ++ ':' :: back = front' ++ ':' :: back') : front = front' ∧ back = back' := by
  have ending (front back : Text) (none : ':' ∉ back) :
      (front ++ ':' :: back).rtakeWhile (· != ':') = back := by
    have kept : ∀ c ∈ back.reverse, (c != ':') = true := by
      intro c inside
      refine bne_iff_ne.mpr ?_
      rintro rfl
      exact none (List.mem_reverse.mp inside)
    rw [List.rtakeWhile, List.reverse_append, List.reverse_cons, List.append_assoc,
      List.takeWhile_append_of_pos kept]
    simp
  obtain rfl : back = back' := by
    rw [← ending front back none, same, ending front' back' none']
  exact ⟨List.append_cancel_right same, rfl⟩

variable {text : Text} {target : ReferenceTarget}

variable {mark : Char} {repo : Option RepoSlug} {sha : Text}

theorem ne_of_keySegment (segment : KeySegment text) (first : isKeyFirst mark = false)
    (more : isKeyMore mark = false) : mark ∉ text := by
  obtain ⟨head, rest, rfl, isFirst, areMore⟩ := segment
  intro inside
  rcases List.mem_cons.mp inside with rfl | later
  · simp [first] at isFirst
  · exact absurd (areMore mark later) (by simp [more])

-- Two names of repositories with one slash in them each.
theorem slash_inj {owner name owner' name' : Text} (none : '/' ∉ owner') (none' : '/' ∉ name')
    (same : owner ++ '/' :: name = owner' ++ '/' :: name') : owner = owner' ∧ name = name' := by
  have count := congrArg (List.count '/') same
  simp only [List.count_append, List.count_cons_self, List.count_eq_zero.mpr none,
    List.count_eq_zero.mpr none'] at count
  have absent : '/' ∉ owner := List.count_eq_zero.mp (by omega)
  have beginning (front back : Text) (none : '/' ∉ front) :
      (front ++ '/' :: back).takeWhile (· != '/') = front := by
    rw [List.takeWhile_append_of_pos]
    · simp
    · intro c inside
      refine bne_iff_ne.mpr ?_
      rintro rfl
      exact none inside
  obtain rfl : owner = owner' := by
    rw [← beginning owner name absent, same, beginning owner' name' none]
  exact ⟨rfl, (List.cons.inj (List.append_cancel_left same)).2⟩

theorem scoped_inj {repo' : Option RepoSlug} {kind kind' value value' : Text}
    (slug : ∀ slug ∈ repo', slug.WellFormed) (kinds : ':' ∉ kind) (kinds' : ':' ∉ kind')
    (values : ':' ∉ value) (values' : ':' ∉ value')
    (same : scopeText repo ++ (kind ++ ':' :: value) = scopeText repo' ++ (kind' ++ ':' :: value')) :
    repo = repo' ∧ kind = kind' ∧ value = value' := by
  rw [← List.append_assoc, ← List.append_assoc] at same
  obtain ⟨fronts, rfl⟩ := last_colon values values' same
  cases repo with
  | none =>
    cases repo' with
    | none => exact ⟨rfl, fronts, rfl⟩
    | some there =>
      have inside : ':' ∈ scopeText none ++ kind := fronts ▸ by simp [scopeText]
      exact absurd inside kinds
  | some slug' =>
    cases repo' with
    | none =>
      have inside : ':' ∈ scopeText none ++ kind' := fronts ▸ by simp [scopeText]
      exact absurd inside kinds'
    | some there =>
      have ends (slug : RepoSlug) (kind : Text) : scopeText (some slug) ++ kind =
          ('x' :: ':' :: (slug.owner ++ '/' :: slug.name)) ++ ':' :: kind := by
        simp [scopeText]
      rw [ends, ends] at fronts
      obtain ⟨names, rfl⟩ := last_colon kinds kinds' fronts
      simp only [List.cons.injEq, true_and] at names
      obtain ⟨ownerForm, nameForm⟩ := slug there rfl
      obtain ⟨owners, names⟩ := slash_inj (ne_of_keySegment ownerForm (by decide) (by decide))
        (ne_of_keySegment nameForm (by decide) (by decide)) names
      refine ⟨congrArg some ?_, rfl, rfl⟩
      cases slug'
      cases there
      exact (RepoSlug.mk.injEq ..).mpr ⟨owners, names⟩

theorem noColon_kind (target : ReferenceTarget) : ':' ∉ target.kind := by
  cases target with
  | pullRequest => exact (by decide : ':' ∉ "pr".toList)
  | commit => exact (by decide : ':' ∉ "commit".toList)
  | commitPrefix => exact (by decide : ':' ∉ "commit-prefix".toList)

theorem pr_ne_commit : "pr".toList ≠ "commit".toList := by decide

theorem pr_ne_commitPrefix : "pr".toList ≠ "commit-prefix".toList := by decide

theorem commit_ne_commitPrefix : "commit".toList ≠ "commit-prefix".toList := by decide

theorem noColon_of_isHexText (hex : isHexText text = true) : ':' ∉ text := by
  intro inside
  simp only [isHexText, Bool.and_eq_true, List.all_eq_true] at hex
  exact absurd (hex.2 ':' inside) (by decide)

theorem noColon_toText (number : Number) : ':' ∉ number.toText := by
  intro inside
  rcases mem_toText inside with digit | other
  · exact absurd digit (by decide)
  · exact absurd other (by decide)

theorem noColon_value (form : target.WellFormed) : ':' ∉ target.value := by
  cases target with
  | pullRequest repo number => exact noColon_toText number
  | commit repo sha => exact noColon_of_isHexText form.sized.1
  | commitPrefix repo start => exact noColon_of_isHexText form.sized.1

/-- A key is told from that of any entity in any repository. -/
theorem referenceKey_eq_iff {entity : ReferenceTarget} (form : target.WellFormed)
    (value : ':' ∉ entity.value) : referenceKey target = referenceKey entity ↔ target = entity := by
  refine ⟨fun same => ?_, fun is => is ▸ rfl⟩
  rw [referenceKey_eq, referenceKey_eq] at same
  obtain ⟨repos, kinds, values⟩ := scoped_inj form.slug (noColon_kind entity)
    (noColon_kind target) value (noColon_value form) same.symm
  cases target with
  | pullRequest repo number =>
    cases entity with
    | pullRequest repo' number' => exact congrArg₂ _ repos.symm (toText_inj values.symm)
    | commit => exact absurd kinds pr_ne_commit.symm
    | commitPrefix => exact absurd kinds pr_ne_commitPrefix.symm
  | commit repo sha =>
    cases entity with
    | pullRequest => exact absurd kinds pr_ne_commit
    | commit repo' sha' => exact congrArg₂ _ repos.symm values.symm
    | commitPrefix => exact absurd kinds commit_ne_commitPrefix.symm
  | commitPrefix repo start =>
    cases entity with
    | pullRequest => exact absurd kinds pr_ne_commitPrefix
    | commit => exact absurd kinds commit_ne_commitPrefix
    | commitPrefix repo' start' => exact congrArg₂ _ repos.symm values.symm

/-! ### Reading a key -/

theorem after_append (front rest : Text) : after front (front ++ rest) = some rest := by
  rw [after, if_pos (List.prefix_append front rest), List.drop_left]

theorem segment_append {first more : Char → Bool} {rest : Text}
    (form : ∃ head tail, text = head :: tail ∧ first head = true ∧ ∀ c ∈ tail, more c = true)
    (stop : more mark = false) :
    segment first more (text ++ mark :: rest) = some (text, mark :: rest) := by
  obtain ⟨head, tail, rfl, isFirst, areMore⟩ := form
  rw [List.cons_append, segment, if_pos isFirst, List.takeWhile_append_of_pos areMore,
    List.dropWhile_append_of_pos areMore]
  simp [stop]

theorem parseScope_scopeText {slug : RepoSlug} (form : slug.WellFormed) (rest : Text) :
    parseScope (scopeText (some slug) ++ rest) = some (slug, rest) := by
  have whole : scopeText (some slug) ++ rest =
      ['x', ':'] ++ (slug.owner ++ '/' :: (slug.name ++ ':' :: rest)) := by
    simp [scopeText]
  have slash : '/' :: (slug.name ++ ':' :: rest) = ['/'] ++ (slug.name ++ ':' :: rest) := rfl
  have colon : ':' :: rest = [':'] ++ rest := rfl
  rw [parseScope, whole, after_append]
  simp only [Option.bind_eq_bind, Option.bind_some]
  rw [segment_append form.owner (by decide)]
  simp only [Option.bind_some]
  rw [slash, after_append]
  simp only [Option.bind_some]
  rw [segment_append form.name (by decide)]
  simp only [Option.bind_some]
  rw [colon, after_append]
  rfl

/-- What does not begin with an `x` has no scope. -/
theorem parseScope_none (head : text.head? ≠ some 'x') : parseScope text = none := by
  have fails : after ['x', ':'] text = none := by
    rw [after, if_neg]
    rintro ⟨rest, rfl⟩
    exact head rfl
  rw [parseScope, fails]
  rfl

theorem parseReferenceKey_scopeText (form : ∀ slug ∈ repo, slug.WellFormed)
    (head : text.head? ≠ some 'x') :
    parseReferenceKey (scopeText repo ++ text) = parseLocator repo text := by
  cases repo with
  | none =>
    change parseReferenceKey text = _
    rw [parseReferenceKey, parseScope_none head]
  | some slug => rw [parseReferenceKey, parseScope_scopeText (form slug rfl)]

theorem parseLocator_pr (repo : Option RepoSlug) (digits : Text) :
    parseLocator repo ("pr".toList ++ ':' :: digits) =
      if isDigits digits then some (.pullRequest repo (ofDigits digits)) else none := by
  have pr : after "pr:".toList ("pr".toList ++ ':' :: digits) = some digits :=
    after_append "pr:".toList digits
  have sha : after "commit:".toList ("pr".toList ++ ':' :: digits) = none := rfl
  have start : after "commit-prefix:".toList ("pr".toList ++ ':' :: digits) = none := rfl
  simp only [parseLocator, pr, sha, start, Option.filter_none, Option.map_none]
  cases digit : isDigits digits <;> simp [Option.filter, digit]

theorem parseLocator_commit (repo : Option RepoSlug) (hex : isHexText sha = true) :
    parseLocator repo ("commit".toList ++ ':' :: sha) = some (.commit repo sha) := by
  have pr : after "pr:".toList ("commit".toList ++ ':' :: sha) = none := rfl
  have whole : after "commit:".toList ("commit".toList ++ ':' :: sha) = some sha :=
    after_append "commit:".toList sha
  have start : after "commit-prefix:".toList ("commit".toList ++ ':' :: sha) = none := rfl
  simp only [parseLocator, pr, whole, start, Option.filter_none, Option.map_none]
  simp [Option.filter, hex]

theorem parseLocator_commitPrefix (repo : Option RepoSlug) {start : Text}
    (hex : isHexText start = true) :
    parseLocator repo ("commit-prefix".toList ++ ':' :: start) =
      some (.commitPrefix repo start) := by
  have pr : after "pr:".toList ("commit-prefix".toList ++ ':' :: start) = none := rfl
  have sha : after "commit:".toList ("commit-prefix".toList ++ ':' :: start) = none := rfl
  have whole : after "commit-prefix:".toList ("commit-prefix".toList ++ ':' :: start) = some start :=
    after_append "commit-prefix:".toList start
  simp only [parseLocator, pr, sha, whole, Option.filter_none, Option.map_none]
  simp [Option.filter, hex]

theorem isDigits_toText {number : Number} : isDigits number.toText = true ↔ number.Plain := by
  constructor
  · intro digits
    by_contra fancy
    obtain ⟨c, inside, letter⟩ := letter_of_not_plain fancy
    simp only [isDigits, Bool.and_eq_true, List.all_eq_true] at digits
    exact absurd (digits.2 c inside) (by simp [letter])
  · intro plain
    simp only [isDigits, Bool.and_eq_true, List.all_eq_true, decide_eq_true_eq]
    exact ⟨toText_ne_nil plain, isDigit_toText plain⟩

theorem head_kind (target : ReferenceTarget) (rest : Text) :
    (target.kind ++ rest).head? ≠ some 'x' := by
  cases target with
  | pullRequest => exact (by decide : some 'p' ≠ some 'x')
  | commit => exact (by decide : some 'c' ≠ some 'x')
  | commitPrefix => exact (by decide : some 'c' ≠ some 'x')

theorem parseReferenceKey_referenceKey (form : target.WellFormed) :
    parseReferenceKey (referenceKey target) =
      parseLocator target.repo (target.kind ++ ':' :: target.value) := by
  rw [referenceKey_eq, parseReferenceKey_scopeText form.slug (head_kind target _)]

/-- The key of a target is read as the target, unless its number is written with an exponent. -/
theorem parseReferenceKey_iff (form : target.WellFormed) :
    parseReferenceKey (referenceKey target) = some target ↔ target.Plain := by
  rw [parseReferenceKey_referenceKey form]
  cases target with
  | pullRequest repo number =>
    change parseLocator repo ("pr".toList ++ ':' :: number.toText) = _ ↔ number.Plain
    rw [parseLocator_pr, ← isDigits_toText]
    constructor
    · intro read
      by_contra fancy
      rw [if_neg fancy] at read
      exact absurd read.symm (Option.some_ne_none _)
    · intro digits
      rw [if_pos digits, ofDigits_toText (isDigits_toText.mp digits)]
  | commit repo sha => exact iff_of_true (parseLocator_commit repo form.sized.1) trivial
  | commitPrefix repo start => exact iff_of_true (parseLocator_commitPrefix repo form.sized.1) trivial

/-! ### The keys of an entity -/

/-- Forty hexadecimal digits, in lower case or not -/
def IsSha (sha : Text) : Prop := isHexText (sha.map Char.toLower) = true ∧ sha.length = fullShaLength

/-- The target may be the commit. -/
def ReferenceTarget.DenotesCommit (sha : Text) : ReferenceTarget → Prop
  | .pullRequest .. => False
  | .commit _ name => name = sha.map Char.toLower
  | .commitPrefix _ start => start <+: sha.map Char.toLower

/-- The target is the pull request. -/
def ReferenceTarget.DenotesPullRequest (prNumber : Number) : ReferenceTarget → Prop
  | .pullRequest _ number => number = prNumber
  | .commit .. => False
  | .commitPrefix .. => False

theorem mem_lengths {n : Nat} :
    n ∈ List.range' minShaPrefixLength (maxReferenceShaPrefixLength + 1 - minShaPrefixLength) ↔
      minShaPrefixLength ≤ n ∧ n ≤ maxReferenceShaPrefixLength := by
  rw [List.mem_range'_1]
  simp only [minShaPrefixLength, maxReferenceShaPrefixLength]
  omega

theorem noColon_take (is : IsSha sha) (n : Nat) : ':' ∉ (sha.map Char.toLower).take n :=
  fun inside => noColon_of_isHexText is.1 (List.mem_of_mem_take inside)

/-- The keys of a commit are those of the targets that may mean it, in its repository. -/
theorem mem_commitReferenceKeys (form : target.WellFormed) (is : IsSha sha) (repo : Option RepoSlug) :
    referenceKey target ∈ commitReferenceKeys sha repo ↔
      target.repo = repo ∧ target.DenotesCommit sha := by
  have whole : referenceKey target = referenceKey (.commit repo (sha.map Char.toLower)) ↔
      target = .commit repo (sha.map Char.toLower) :=
    referenceKey_eq_iff form (noColon_of_isHexText is.1)
  have part (n : Nat) :
      referenceKey target = referenceKey (.commitPrefix repo ((sha.map Char.toLower).take n)) ↔
        target = .commitPrefix repo ((sha.map Char.toLower).take n) :=
    referenceKey_eq_iff form (noColon_take is n)
  rw [commitReferenceKeys, List.mem_cons, whole, List.mem_map]
  constructor
  · rintro (rfl | ⟨n, _, same⟩)
    · exact ⟨rfl, rfl⟩
    · obtain rfl := (part n).mp same.symm
      exact ⟨rfl, List.take_prefix n _⟩
  · rintro ⟨rfl, denotes⟩
    cases target with
    | pullRequest repo number => exact denotes.elim
    | commit repo name =>
      obtain rfl : name = sha.map Char.toLower := denotes
      exact .inl rfl
    | commitPrefix repo start =>
      have taken : (sha.map Char.toLower).take start.length = start :=
        (List.prefix_iff_eq_take.mp denotes).symm
      have lengths := form.sized.2
      exact .inr ⟨start.length, mem_lengths.mpr lengths, ((part start.length).mpr (by rw [taken]; rfl)).symm⟩

theorem mem_pullRequestReferenceKeys (form : target.WellFormed) (prNumber : Number)
    (repo : Option RepoSlug) :
    referenceKey target ∈ pullRequestReferenceKeys prNumber repo ↔
      target.repo = repo ∧ target.DenotesPullRequest prNumber := by
  have key : referenceKey target = referenceKey (.pullRequest repo prNumber) ↔
      target = .pullRequest repo prNumber := referenceKey_eq_iff form (noColon_toText prNumber)
  rw [pullRequestReferenceKeys, List.mem_singleton, key]
  cases target with
  | pullRequest repo' number =>
    rw [ReferenceTarget.pullRequest.injEq]
    exact Iff.rfl
  | commit => exact iff_of_false (fun is => ReferenceTarget.noConfusion is) fun holds => holds.2.elim
  | commitPrefix =>
    exact iff_of_false (fun is => ReferenceTarget.noConfusion is) fun holds => holds.2.elim

end PrSearch.Relation.Reference
