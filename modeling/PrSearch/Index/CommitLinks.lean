import Mathlib.Data.List.Dedup
import Mathlib.Data.List.Sort
import PrSearch.Lib.GuardedUpdate

/-! # The links of a commit document

The pull requests of a commit are counted in the database and written into its document as a whole
set, under a generation of their own. A writer reads the document, refuses a generation that has
passed and reports another set of its own generation as a conflict. The script that writes looks at
the generation again, but not at the set: what another writer of the same generation has written in
between, it overwrites.
-/
namespace PrSearch.Index.CommitLinks

inductive CommitLinkState
  | verified
  | partial_
  deriving DecidableEq, Repr

structure CommitLinkUpdate where
  repositoryId : Int
  commitSha : String
  numbers : List Int
  generation : Int
  state : CommitLinkState

inductive CommitLinkOutcome
  | updated
  | noop
  | stale
  | conflict
  | documentMissing
  deriving DecidableEq, Repr

/-- The fields of a commit document that belong to its links. -/
structure LinkSource where
  numbers : Option (List Int) := none
  generation : Option Int := none
  state : Option CommitLinkState := none
  deriving DecidableEq, Repr

def maxSafeInteger : Int := 9007199254740991

/-- The positive numbers, each once, in ascending order. -/
def normalizeLinkNumbers (numbers : List Int) : List Int :=
  (numbers.filter fun value => -maxSafeInteger ≤ value ∧ value ≤ maxSafeInteger ∧ 0 < value).dedup
    |>.insertionSort (· ≤ ·)

def sameNumbers : Option (List Int) → List Int → Bool
  | none, _ => false
  | some left, right => left.length = right.length ∧ left.insertionSort (· ≤ ·) = right

/-- What the reading concludes, or `none` when it goes on to write. -/
def readLinks (update : CommitLinkUpdate) : Option LinkSource → Option CommitLinkOutcome
  | none => some .documentMissing
  | some source =>
      if source.generation.any (update.generation < ·) then some .stale
      else if source.generation = some update.generation ∧
          !sameNumbers source.numbers (normalizeLinkNumbers update.numbers) then some .conflict
      else none

/-- The script: `none` where it ends as a noop. -/
def linkScript (update : CommitLinkUpdate) (source : LinkSource) : Option LinkSource :=
  let numbers := normalizeLinkNumbers update.numbers
  if source.generation.any (update.generation < ·) then none
  else if source.generation = some update.generation ∧ source.state = some update.state ∧
      source.numbers.any fun stored =>
        stored.length = numbers.length ∧ ∀ number ∈ numbers, number ∈ stored then none
  else some ⟨some numbers, some update.generation, some update.state⟩

/-- `applyCommitLinks`, on the document of the commit or on none. -/
def applyCommitLinks : GuardedUpdate (Option LinkSource) CommitLinkUpdate CommitLinkOutcome where
  read := readLinks
  update update stored := stored.bind fun source => (linkScript update source).map some
  settle wrote := if wrote then .updated else .noop

/-! ### From the earlier to the later document -/

/-- Two lists of the same numbers. -/
def SameSet (left right : List Int) : Prop := ∀ number, number ∈ left ↔ number ∈ right

/-- The generation does not decrease, and a set stays the same within its generation. -/
structure Keeps (earlier later : LinkSource) : Prop where
  generation : ∀ g, earlier.generation = some g → ∃ g', g ≤ g' ∧ later.generation = some g'
  numbers : ∀ g set, earlier.generation = some g → earlier.numbers = some set →
    later.generation = some g → ∃ set', later.numbers = some set' ∧ SameSet set set'

theorem Keeps.refl (source : LinkSource) : Keeps source source where
  generation g is := ⟨g, Int.le_refl g, is⟩
  numbers _ set _ holds _ := ⟨set, holds, fun _ => Iff.rfl⟩

theorem Keeps.trans {a b c : LinkSource} (first : Keeps a b) (second : Keeps b c) : Keeps a c where
  generation g is := by
    obtain ⟨g', passed, is'⟩ := first.generation g is
    obtain ⟨g'', passed', is''⟩ := second.generation g' is'
    exact ⟨g'', Int.le_trans passed passed', is''⟩
  numbers g set is holds last := by
    -- the generation in between is the same one, since it does not decrease
    obtain ⟨g', passed, is'⟩ := first.generation g is
    obtain ⟨g'', passed', is''⟩ := second.generation g' is'
    obtain rfl : g'' = g := by simpa [last] using is''.symm
    obtain rfl : g' = g'' := Int.le_antisymm passed' passed
    obtain ⟨set', holds', same⟩ := first.numbers g' set is holds is'
    obtain ⟨set'', holds'', same'⟩ := second.numbers g' set' is' holds' last
    exact ⟨set'', holds'', fun number => (same number).trans (same' number)⟩

/-- A document that is there stays there, with its links kept. -/
def KeepsDocument (earlier later : Option LinkSource) : Prop :=
  ∀ source ∈ earlier, ∃ source' ∈ later, Keeps source source'

theorem KeepsDocument.refl (document : Option LinkSource) : KeepsDocument document document :=
  fun source is => ⟨source, is, Keeps.refl source⟩

theorem KeepsDocument.trans {a b c : Option LinkSource} (first : KeepsDocument a b)
    (second : KeepsDocument b c) : KeepsDocument a c := by
  intro source is
  obtain ⟨source', is', kept⟩ := first source is
  obtain ⟨source'', is'', kept'⟩ := second source' is'
  exact ⟨source'', is'', kept.trans kept'⟩

/-- The document holds another set at the generation of the update. -/
def Clashes (update : CommitLinkUpdate) (document : Option LinkSource) : Prop :=
  ∃ source ∈ document, source.generation = some update.generation ∧
    ∃ set ∈ source.numbers, ¬ SameSet set (normalizeLinkNumbers update.numbers)

section Writing

variable {update : CommitLinkUpdate} {source written : LinkSource}

theorem script_some_iff : linkScript update source = some written ↔
    (∀ g ∈ source.generation, g ≤ update.generation) ∧
      ¬ (source.generation = some update.generation ∧ source.state = some update.state ∧
        ∃ stored ∈ source.numbers, stored.length = (normalizeLinkNumbers update.numbers).length ∧
          ∀ number ∈ normalizeLinkNumbers update.numbers, number ∈ stored) ∧
      written = ⟨some (normalizeLinkNumbers update.numbers), some update.generation,
        some update.state⟩ := by
  have passed : source.generation.any (update.generation < ·) = true ↔
      ¬ ∀ g ∈ source.generation, g ≤ update.generation := by
    cases source.generation <;> simp
  unfold linkScript
  simp only [passed, Option.any_eq_true, decide_eq_true_eq]
  split
  next stale => exact iff_of_false (by rintro ⟨⟩) fun admitted => stale admitted.1
  next current =>
    split
    next same => exact iff_of_false (by rintro ⟨⟩) fun admitted => admitted.2.1 same
    next other =>
      constructor
      · rintro ⟨⟩
        exact ⟨not_not.mp current, other, rfl⟩
      · rintro ⟨-, -, rfl⟩
        rfl

/-- A write keeps the links exactly where the document does not clash with it. -/
theorem keeps_iff (changed : linkScript update source = some written) :
    Keeps source written ↔ ¬ Clashes update (some source) := by
  obtain ⟨current, -, rfl⟩ := script_some_iff.mp changed
  constructor
  · rintro keeps ⟨_, ⟨⟩, generation, set, holds, differs⟩
    obtain ⟨set', holds', same⟩ := keeps.numbers _ set generation holds rfl
    cases holds'
    exact differs same
  · intro apart
    refine ⟨fun g is => ⟨update.generation, current g is, rfl⟩, ?_⟩
    rintro g set is holds ⟨⟩
    refine ⟨_, rfl, ?_⟩
    by_contra differs
    exact apart ⟨source, rfl, is, set, holds, differs⟩

theorem update_some_iff {document document' : Option LinkSource} :
    applyCommitLinks.update update document = some document' ↔
      ∃ source written, document = some source ∧ linkScript update source = some written ∧
        document' = some written := by
  cases document with
  | none => simp [applyCommitLinks]
  | some source =>
    simp only [applyCommitLinks, Option.bind_some, Option.map_eq_some_iff, Option.some.injEq]
    constructor
    · rintro ⟨written, changed, rfl⟩
      exact ⟨source, written, rfl, changed, rfl⟩
    · rintro ⟨_, written, rfl, changed, rfl⟩
      exact ⟨written, changed, rfl⟩

/-- The generation does not decrease across a write, whatever the document holds. -/
theorem generation_of_script (changed : linkScript update source = some written) :
    ∀ g ∈ source.generation, ∃ g' ∈ written.generation, g ≤ g' := by
  obtain ⟨current, -, rfl⟩ := script_some_iff.mp changed
  exact fun g is => ⟨update.generation, rfl, current g is⟩

theorem sameSet_of_sameNumbers {stored : Option (List Int)} {numbers : List Int}
    (same : sameNumbers stored numbers = true) : ∀ set ∈ stored, SameSet set numbers := by
  rintro set ⟨⟩ number
  have sorted : set.insertionSort (· ≤ ·) = numbers := by
    have both := of_decide_eq_true same
    exact both.2
  rw [← sorted, List.mem_insertionSort]

/-- A writer that reads another set of its own generation reports a conflict. -/
theorem conflict_of_clashes (clashes : Clashes update (some source)) :
    readLinks update (some source) = some .conflict := by
  obtain ⟨_, ⟨⟩, generation, set, holds, differs⟩ := clashes
  have other : sameNumbers source.numbers (normalizeLinkNumbers update.numbers) = false := by
    rw [Bool.eq_false_iff]
    exact fun same => differs (sameSet_of_sameNumbers same set holds)
  simp [readLinks, generation, other]

theorem sorted_normalizeLinkNumbers (numbers : List Int) :
    (normalizeLinkNumbers numbers).insertionSort (· ≤ ·) = normalizeLinkNumbers numbers :=
  (List.pairwise_insertionSort _ _).insertionSort_eq

/-- The document that a writer has written is left as it is by the same update once more. -/
theorem redelivery_noop (changed : linkScript update source = some written) :
    readLinks update (some written) = none ∧ linkScript update written = none := by
  obtain ⟨-, -, rfl⟩ := script_some_iff.mp changed
  have same : sameNumbers (some (normalizeLinkNumbers update.numbers))
      (normalizeLinkNumbers update.numbers) = true :=
    decide_eq_true ⟨rfl, sorted_normalizeLinkNumbers update.numbers⟩
  constructor
  · simp [readLinks, same]
  · simp [linkScript]

end Writing

/-! ### Many writers -/

/-- The generation of the document does not decrease, whoever writes. -/
def GenerationKept (earlier later : Option LinkSource) : Prop :=
  ∀ source ∈ earlier, ∃ source' ∈ later,
    ∀ g ∈ source.generation, ∃ g' ∈ source'.generation, g ≤ g'

section Runs

variable {W : Type} [DecidableEq W] (updates : W → CommitLinkUpdate) (document : Option LinkSource)
  (actions : List W)

theorem generations_of_run :
    ((applyCommitLinks.automaton updates).visited actions (GuardedUpdate.start document)).Pairwise
      fun earlier later => GenerationKept earlier.document later.document := by
  have refl : ∀ d, GenerationKept d d := fun d source is =>
    ⟨source, is, fun g at_ => ⟨g, at_, Int.le_refl g⟩⟩
  have trans : ∀ a b c, GenerationKept a b → GenerationKept b c → GenerationKept a c := by
    intro a b c first second source is
    obtain ⟨source', is', along⟩ := first source is
    obtain ⟨source'', is'', along'⟩ := second source' is'
    refine ⟨source'', is'', fun g at_ => ?_⟩
    obtain ⟨g', at', passed⟩ := along g at_
    obtain ⟨g'', at'', passed'⟩ := along' g' at'
    exact ⟨g'', at'', Int.le_trans passed passed'⟩
  refine GuardedUpdate.pairwise_of_update refl trans ?_ actions (GuardedUpdate.start document)
  intro w d d' changed
  obtain ⟨source, written, rfl, ran, rfl⟩ := update_some_iff.mp changed
  rintro _ ⟨⟩
  exact ⟨written, rfl, generation_of_script ran⟩

theorem keeps_iff_of_run :
    (((applyCommitLinks.automaton updates).visited actions (GuardedUpdate.start document)).Pairwise
        fun earlier later => KeepsDocument earlier.document later.document) ↔
      ∀ turn ∈ (applyCommitLinks.automaton updates).taken actions (GuardedUpdate.start document),
        ∀ written, applyCommitLinks.Writes updates turn.1 turn.2 written →
          ¬ Clashes (updates turn.2) turn.1.document := by
  have across : ∀ w d d', applyCommitLinks.update (updates w) d = some d' →
      (KeepsDocument d d' ↔ ¬ Clashes (updates w) d) := by
    intro w d d' changed
    obtain ⟨source, written, rfl, ran, rfl⟩ := update_some_iff.mp changed
    rw [← keeps_iff ran]
    simp [KeepsDocument]
  exact GuardedUpdate.pairwise_iff_writes KeepsDocument.refl (fun _ _ _ => KeepsDocument.trans)
    (fun update d => ¬ Clashes update d) across actions _

end Runs

/-- In every run of writers on one commit document the generation does not decrease, a writer that
reads another set of its own generation reports a conflict, and an update that has been written is
written only once. A generation keeps its set exactly when no script runs on a document that by then
holds another set of its own generation. -/
theorem applyCommitLinks_keeps_iff (W : Type) [DecidableEq W] (updates : W → CommitLinkUpdate)
    (document : Option LinkSource) (actions : List W) :
    let run := (applyCommitLinks.automaton updates).visited actions (GuardedUpdate.start document)
    (run.Pairwise fun earlier later => GenerationKept earlier.document later.document) ∧
    (∀ update source, Clashes update (some source) →
      readLinks update (some source) = some .conflict) ∧
    (∀ update source written, linkScript update source = some written →
      readLinks update (some written) = none ∧ linkScript update written = none) ∧
    ((run.Pairwise fun earlier later => KeepsDocument earlier.document later.document) ↔
      ∀ turn ∈ (applyCommitLinks.automaton updates).taken actions (GuardedUpdate.start document),
        ∀ written, applyCommitLinks.Writes updates turn.1 turn.2 written →
          ¬ Clashes (updates turn.2) turn.1.document) :=
  ⟨generations_of_run updates document actions, fun _ _ => conflict_of_clashes,
    fun _ _ _ => redelivery_noop, keeps_iff_of_run updates document actions⟩

/-- Two turns of one writer, on a document without links. -/
theorem applyCommitLinks_keeps_first :
    ((applyCommitLinks.automaton fun _ : Unit => ⟨7, "ab12", [1], 1, .verified⟩).visited [(), ()]
      (GuardedUpdate.start (some {}))).Pairwise
        fun earlier later => KeepsDocument earlier.document later.document := by
  refine (applyCommitLinks_keeps_iff Unit _ (some {}) [(), ()]).2.2.2.mpr ?_
  rintro turn made written - ⟨source, is, generation, -⟩
  -- both turns are taken in the document without links
  have none_ : turn.1.document = some {} := by
    rcases List.mem_cons.mp made with rfl | made
    · rfl
    · obtain rfl := List.mem_singleton.mp made
      rfl
  rw [none_] at is
  cases is
  cases generation

/-- Two writers read a document without links; both then write a set of the generation 1. -/
theorem second_writer_overwrites :
    ¬ ∀ (updates : Bool → CommitLinkUpdate) (document : Option LinkSource) (actions : List Bool),
      ((applyCommitLinks.automaton updates).visited actions (GuardedUpdate.start document)).Pairwise
        fun earlier later => KeepsDocument earlier.document later.document := by
  intro all
  have kept := all (fun w => ⟨7, "ab12", if w then [1] else [2], 1, .verified⟩) (some {})
    [true, false, true, false]
  have after : KeepsDocument (some ⟨some [1], some 1, some .verified⟩)
      (some ⟨some [2], some 1, some .verified⟩) := by
    have rest := ((kept.of_cons).of_cons).of_cons
    exact (List.pairwise_cons.mp rest).1 _ List.mem_cons_self
  obtain ⟨source, is, keeps⟩ := after _ rfl
  cases is
  obtain ⟨set, holds, same⟩ := keeps.numbers 1 [1] rfl rfl rfl
  cases holds
  exact absurd ((same 1).mp List.mem_cons_self) (by decide)

end PrSearch.Index.CommitLinks
