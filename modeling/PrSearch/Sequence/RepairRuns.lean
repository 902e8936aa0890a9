import PrSearch.Sequence.Canonical
import PrSearch.Sequence.Comparison

/-! # Soundness of a repair

What a repair compares and what it keeps are not the same: the comparison looks at the rows there
are, from one on, up to letter case; the copy takes every row below the first mismatch. The two
agree exactly when those rows are the beginning of the chain.
-/
namespace PrSearch.Sequence

theorem listStoredSequence_frozen {d d' : Store} (frozen : Frozen d d') (seqEpoch fromSeq : Int) :
    d'.listStoredSequence seqEpoch fromSeq = d.listStoredSequence seqEpoch fromSeq := by
  simp only [Store.listStoredSequence, frozen.rows]

/-! ### The conditions -/

/-- The rows below the mismatch are exactly the beginning of the chain; below one nothing is kept. -/
def VerifiedBelow (rows : List MergeSequenceRow) (seqEpoch : Int) (chain : List Sha)
    (divergedAtSeq : Int) : Prop :=
  1 < divergedAtSeq → divergedAtSeq - 1 ≤ chain.length ∧ ∀ seq sha, seq < divergedAtSeq →
    (BindsIn rows seqEpoch seq sha ↔ elementAt chain (seq - 1) = some sha)

/-- The numbers of the epoch run from one without a gap. -/
def GapFree (rows : List MergeSequenceRow) (seqEpoch : Int) : Prop :=
  ∃ m : Nat, ∀ seq, (∃ sha, BindsIn rows seqEpoch seq sha) ↔ 1 ≤ seq ∧ seq ≤ m

/-- No stored commit differs from the one at its place in letter case only. -/
def SpelledAlike (rows : List MergeSequenceRow) (seqEpoch : Int) (chain : List Sha) : Prop :=
  ∀ seq sha sha', BindsIn rows seqEpoch seq sha → elementAt chain (seq - 1) = some sha' →
    toLowerCase sha' = toLowerCase sha → sha' = sha

/-! ### Runs -/

/-- The mirror of `g`, with the branch at `head` throughout. -/
def MirrorAt (g : Dag Sha) (head : Sha) (c : Choice) : Prop :=
  Mirror g c ∧ ∀ answer, c.resolveHead = .ok answer → answer = some head

variable {plan : RepairPlan} {seen db : Store}

section

variable {g : Dag Sha} {head : Sha}

/-- What the tail of a repair numbers: the chain above the last verified commit, or all of it. -/
theorem range_of_walkFrom (chain : plan.actual = g.firstParents head)
    (above : 1 < plan.divergedAtSeq)
    (within : plan.divergedAtSeq - 1 ≤ (g.firstParents head).length) :
    ∃ base, plan.walkFrom = some base ∧
      g.firstParents base ++ g.range (some base) head = g.firstParents head ∧
      ((g.firstParents base).length : Int) = plan.divergedAtSeq - 1 := by
  obtain ⟨base, here⟩ : ∃ base, elementAt (g.firstParents head) (plan.divergedAtSeq - 2) =
      some base := elementAt_isSome (by omega) (by omega)
  have place := firstParents_place here
  refine ⟨base, ?_, g.firstParents_append_range (mem_of_elementAt here), by omega⟩
  rw [RepairPlan.walkFrom, if_neg (by omega), chain, here]

theorem Planned.divergedAtSeq_pos {E : Setting} (planned : Planned E plan seen) :
    1 ≤ plan.divergedAtSeq := by
  obtain ⟨mismatch, found, diverged⟩ := planned.analysed
  obtain ⟨⟨⟨seq, sha⟩, member, same⟩, -⟩ := firstSequenceMismatch_some found
  rw [diverged, ← same]
  exact (mem_listStoredSequence.mp member).1

theorem Rebuilt.numbers_iff {allow : Choice → Prop} (at_head : ∀ c, allow c → MirrorAt g head c)
    {done : Reassigned} {ws : List Write} {db' : Store}
    (rebuilt : Rebuilt (alone allow) plan done ws seen db db')
    (unopened : Unopened db.rows db.core.seqEpoch) :
    Numbers db'.rows db'.core.seqEpoch (g.firstParents head) ↔
      VerifiedBelow db.rows db.core.seqEpoch (g.firstParents head) plan.divergedAtSeq := by
  obtain ⟨commits, entries, requests, ⟨c, allowed, walked⟩, fills, rfl, -⟩ := rebuilt.shape
  obtain ⟨c', allowed', resolved⟩ := rebuilt.planned.head
  obtain ⟨c'', allowed'', listed⟩ := rebuilt.planned.chain
  have head_eq : plan.head = head := Option.some.inj ((at_head c' allowed').2 _ resolved)
  have chain := (at_head c'' allowed'').1.firstParentRevList listed
  have tail := (at_head c allowed).1.firstParentCommits walked
  rw [head_eq] at chain tail
  rw [Dag.range_none] at chain
  have least := rebuilt.planned.divergedAtSeq_pos
  obtain ⟨core, here, -⟩ := rebuilt_binds unopened rfl fills rebuilt.replayed
  rw [tail] at here
  have epoch : db'.core.seqEpoch = db.core.seqEpoch + 1 := by rw [core]
  rw [epoch]
  constructor
  · intro numbers above
    constructor
    · -- A walk that starts behind the chain numbers the root again, past the end.
      by_contra beyond
      have nowhere : elementAt (g.firstParents head) (plan.divergedAtSeq - 2) = none := by
        cases there : elementAt (g.firstParents head) (plan.divergedAtSeq - 2) with
        | none => rfl
        | some sha =>
          have bounds := elementAt_bounds there
          omega
      have whole : plan.walkFrom = none := by
        rw [RepairPlan.walkFrom, if_neg (by omega), chain, nowhere]
      have known : head ∈ g := by
        have isHead := (at_head c' allowed').1.resolveHead resolved
        rwa [head_eq] at isHead
      have nonempty : 0 < (g.firstParents head).length :=
        List.length_pos_of_ne_nil (g.firstParents_ne_nil known)
      obtain ⟨root, first⟩ : ∃ root, elementAt (g.firstParents head) 0 = some root :=
        elementAt_isSome (by omega) (by omega)
      have again := (numbers plan.divergedAtSeq root).mp ((here plan.divergedAtSeq root).mpr
        (Or.inr (by
          have zero : plan.divergedAtSeq - 1 - (plan.divergedAtSeq - 1) = 0 := by omega
          rw [whole, Dag.range_none, zero, first])))
      have bounds := elementAt_bounds again
      omega
    · intro seq sha before
      rw [← numbers, here]
      constructor
      · intro bound
        exact Or.inl ⟨by omega, by omega, bound⟩
      · rintro (⟨-, -, bound⟩ | there)
        · exact bound
        · have bounds := elementAt_bounds there
          omega
  · intro verified seq sha
    rw [here]
    by_cases above : 1 < plan.divergedAtSeq
    · obtain ⟨within, below⟩ := verified above
      obtain ⟨base, from_base, joined, length⟩ := range_of_walkFrom chain above within
      rw [from_base, ← joined, elementAt_append, length]
      split
      next inside =>
        have none : elementAt (g.range (some base) head) (seq - 1 - (plan.divergedAtSeq - 1)) =
            none := elementAt_of_neg _ (by omega)
        have prefix_eq := below seq sha (by omega)
        rw [← joined, elementAt_append, if_pos (by omega)] at prefix_eq
        rw [none, prefix_eq]
        simp only [reduceCtorEq, or_false]
        constructor
        · exact fun ⟨_, _, there⟩ => there
        · exact fun there => ⟨by omega, by omega, there⟩
      next outside =>
        constructor
        · rintro (⟨-, kept, -⟩ | there)
          · omega
          · exact there
        · exact Or.inr
    · have one : plan.divergedAtSeq = 1 := by omega
      have whole : plan.walkFrom = none := by rw [RepairPlan.walkFrom, if_pos one]
      rw [whole, Dag.range_none, one]
      have shift : seq - 1 - (1 - 1) = seq - 1 := by omega
      rw [shift]
      constructor
      · rintro (⟨kept, -⟩ | there)
        · omega
        · exact there
      · exact Or.inr

/-- Rows that match the chain are a prefix of it when nothing is missing and nothing is respelled. -/
theorem consistent_iff {seqEpoch : Int} {actual : List Sha}
    (consistent : firstSequenceMismatch (db.listStoredSequence seqEpoch 1) actual = none) :
    (∃ m, m ≤ actual.length ∧ Numbers db.rows seqEpoch (actual.take m)) ↔
      GapFree db.rows seqEpoch ∧ SpelledAlike db.rows seqEpoch actual := by
  constructor
  · rintro ⟨m, within, numbers⟩
    constructor
    · refine ⟨m, fun seq => ?_⟩
      constructor
      · rintro ⟨sha, bound⟩
        have bounds := elementAt_bounds ((numbers seq sha).mp bound)
        rw [List.length_take] at bounds
        omega
      · rintro ⟨least, most⟩
        obtain ⟨sha, here⟩ : ∃ sha, elementAt (actual.take m) (seq - 1) = some sha := by
          apply elementAt_isSome (by omega)
          rw [List.length_take]
          omega
        exact ⟨sha, (numbers seq sha).mpr here⟩
    · intro seq sha sha' bound here _
      have there := (numbers seq sha).mp bound
      have bounds := elementAt_bounds there
      rw [List.length_take] at bounds
      rw [elementAt_take, if_pos (by omega), here] at there
      exact Option.some.inj there
  · rintro ⟨⟨m, dense⟩, alike⟩
    have place : ∀ seq sha, BindsIn db.rows seqEpoch seq sha →
        elementAt actual (seq - 1) = some sha := by
      intro seq sha bound
      have least := ((dense seq).mp ⟨sha, bound⟩).1
      have entry := mem_listStoredSequence.mpr ⟨least, bound⟩
      obtain ⟨sha', here, same⟩ := firstSequenceMismatch_none consistent _ entry
      rw [here, alike seq sha sha' bound here same]
    have within : m ≤ actual.length := by
      by_cases none : m = 0
      · omega
      · obtain ⟨sha, bound⟩ := (dense m).mpr ⟨by omega, le_refl _⟩
        have bounds := elementAt_bounds (place m sha bound)
        omega
    refine ⟨m, within, fun seq sha => ?_⟩
    rw [elementAt_take]
    constructor
    · intro bound
      have inside := (dense seq).mp ⟨sha, bound⟩
      rw [if_pos (by omega)]
      exact place seq sha bound
    · intro here
      split at here
      next below =>
        have bounds := elementAt_bounds here
        obtain ⟨sha', bound⟩ := (dense seq).mpr ⟨by omega, by omega⟩
        have same := place seq sha' bound
        rw [here, Option.some.injEq] at same
        rwa [same]
      next => cases here

/-- A repair leaves the chain exactly when the rows below the first mismatch are its beginning, and
calls a prefix of the chain consistent exactly when nothing is missing from it or respelled. -/
theorem repairSequence_sound_iff {db : Store} {outcome : RepairOutcome} {s : World Unit}
    (unopened : Unopened db.rows db.core.seqEpoch)
    (ran : (machine Unit (MirrorAt g head)).Runs () repairSequence (World.initial db)
      (.ok outcome) s) :
    (∀ oldEpoch newEpoch divergedAtSeq toSeq headSha affectedCount,
      outcome = .repaired oldEpoch newEpoch divergedAtSeq toSeq headSha affectedCount →
      (Numbers s.db.rows s.db.core.seqEpoch (g.firstParents head) ↔
        ∀ mismatch, firstSequenceMismatch (db.listStoredSequence db.core.seqEpoch 1)
            (g.firstParents head) = some mismatch →
          VerifiedBelow db.rows db.core.seqEpoch (g.firstParents head) mismatch.mergeSeq)) ∧
    ∀ checked seqEpoch, outcome = .consistent checked seqEpoch →
      ((∃ m, m ≤ (g.firstParents head).length ∧
          Numbers db.rows db.core.seqEpoch ((g.firstParents head).take m)) ↔
        GapFree db.rows db.core.seqEpoch ∧
          SpelledAlike db.rows db.core.seqEpoch (g.firstParents head)) := by
  have ended := Does.runs (repairSequence_does fun _ _ _ _ _ _ _ => trivial) (initial_idle db) ran
  constructor
  · rintro oldEpoch newEpoch divergedAtSeq toSeq headSha affectedCount rfl
    obtain ⟨plan, ws, seen, before, after, ⟨idle, start⟩, rebuilt⟩ := ended
    have moved : Frozen db before := start.trans rebuilt.since
    have iff := rebuilt.numbers_iff (fun _ allowed => allowed)
      (by rw [moved.core, moved.rows]; exact unopened)
    rw [← idle.since.core, ← idle.since.rows, moved.core, moved.rows] at iff
    rw [iff]
    obtain ⟨mismatch, found, diverged⟩ := rebuilt.planned.analysed
    obtain ⟨c, allowed, listed⟩ := rebuilt.planned.chain
    obtain ⟨c', allowed', resolved⟩ := rebuilt.planned.head
    have head_eq : plan.head = head := Option.some.inj (allowed'.2 _ resolved)
    have chain := allowed.1.firstParentRevList listed
    rw [head_eq, Dag.range_none] at chain
    rw [listStoredSequence_frozen start, chain, ← rebuilt.epoch, moved.core] at found
    rw [diverged]
    constructor
    · intro verified mismatch' found'
      rw [found, Option.some.injEq] at found'
      rwa [← found']
    · exact fun verified => verified mismatch found
  · rintro checked seqEpoch rfl
    obtain ⟨first, seen, head', space, actual, intent, ⟨idle, origin, later⟩, found, rfl,
      ⟨c, allowed, resolved⟩, ⟨c', allowed', listed⟩, consistent⟩ := ended
    have head_eq : head' = head := Option.some.inj (allowed.2 _ resolved)
    have chain := allowed'.1.firstParentRevList listed
    rw [head_eq, Dag.range_none] at chain
    have epoch : space.seqEpoch = db.core.seqEpoch := by
      rw [← origin.core, (SequenceSpace.core_of_space found).1]
    rw [listStoredSequence_frozen (origin.trans later), chain, epoch] at consistent
    exact consistent_iff consistent

/-- Three commits in a row. -/
def line : Dag Sha where
  nodes := [("c", ["a"]), ("a", ["r"]), ("r", [])]
  closed := by decide

/-- The second number holds a commit that is not on the branch. -/
def damagedStore : Store where
  toTables := numberedTables ["r", "z"]
  lawful := by decide

theorem repairSequence_rebuilds_line :
    ∃ s : World Unit, Numbers s.db.rows s.db.core.seqEpoch (line.firstParents "c") := by
  have allowed : MirrorAt line "c" (mirrorChoice line [] (some "c")) := by
    constructor
    · exact mirrorChoice_mirrors (by decide)
    · rintro answer ⟨⟩
      rfl
  obtain ⟨out, s, ran, rfl⟩ := runs_of_choice _ allowed repairSequence damagedStore
    (fun out _ => out = .ok (.repaired 1 2 2 3 "c" 1)) (by decide)
  obtain ⟨repaired, -⟩ := repairSequence_sound_iff (by decide) ran
  refine ⟨s, (repaired 1 2 2 3 "c" 1 rfl).mpr ?_⟩
  have compared : firstSequenceMismatch
      (damagedStore.listStoredSequence damagedStore.core.seqEpoch 1) (line.firstParents "c") =
      some ⟨2, "z", some "a"⟩ := by decide
  have numbers : Numbers damagedStore.rows damagedStore.core.seqEpoch (["r"] ++ ["z"]) := by decide
  have chain : line.firstParents "c" = ["r"] ++ ["a", "c"] := by decide
  intro mismatch found
  rw [compared, Option.some.injEq] at found
  subst found
  intro _
  refine ⟨by decide, fun seq sha before => ?_⟩
  dsimp only at before
  rw [numbers, chain, elementAt_append, elementAt_append, if_pos (by simp; omega),
    if_pos (by simp; omega)]

/-- The second number is missing and the third holds `third`. -/
def holedTables (third : Sha) : Tables where
  space := some ⟨1, some third, 3, .ok, none, 0, 0, none⟩
  rows := [⟨1, 1, "r", none, 0, none⟩, ⟨1, 3, third, none, 0, none⟩]
  evidence := []
  intents := []

def holedStore : Store where
  toTables := holedTables "z"
  lawful := by decide

def sparseStore : Store where
  toTables := holedTables "c"
  lawful := by decide

/-- A hole below the first mismatch survives the repair, and a hole alone is called consistent. -/
theorem repairSequence_keeps_holes :
    (∃ s, (machine Unit (MirrorAt line "c")).Runs () repairSequence (World.initial holedStore)
        (.ok (.repaired 1 2 3 3 "c" 1)) s ∧
      ¬ Numbers s.db.rows s.db.core.seqEpoch (line.firstParents "c")) ∧
    ∃ s, (machine Unit (MirrorAt line "c")).Runs () repairSequence (World.initial sparseStore)
        (.ok (.consistent 2 1)) s ∧
      ∀ m, ¬ Numbers s.db.rows s.db.core.seqEpoch ((line.firstParents "c").take m) := by
  have allowed : MirrorAt line "c" (mirrorChoice line [] (some "c")) := by
    constructor
    · exact mirrorChoice_mirrors (by decide)
    · rintro answer ⟨⟩
      rfl
  constructor
  · obtain ⟨out, s, ran, rfl, broken⟩ := runs_of_choice _ allowed repairSequence holedStore
      (fun out db => out = .ok (.repaired 1 2 3 3 "c" 1) ∧
        ¬ Numbers db.rows db.core.seqEpoch (line.firstParents "c")) (by decide)
    exact ⟨s, ran, broken⟩
  · obtain ⟨out, s, ran, rfl, third, hole⟩ := runs_of_choice _ allowed repairSequence sparseStore
      (fun out db => out = .ok (.consistent 2 1) ∧ BindsIn db.rows db.core.seqEpoch 3 "c" ∧
        ∀ row ∈ db.rows, row.mergeSeq ≠ 2) (by decide)
    refine ⟨s, ran, fun m numbers => ?_⟩
    have bounds := elementAt_bounds ((numbers 3 "c").mp third)
    obtain ⟨sha, here⟩ : ∃ sha, elementAt ((line.firstParents "c").take m) (2 - 1) = some sha :=
      elementAt_isSome (by omega) (by omega)
    obtain ⟨row, member, -, seq, -⟩ := (numbers 2 sha).mpr here
    exact hole row member seq

end

end PrSearch.Sequence
