import PrSearch.Sequence.Mirror

/-! # The current epoch is the first-parent chain of the head

The gate of an assignment asks for ancestry along all parents, and a reassignment takes its base
from a general merge base; the numbers follow first parents only. Both keep the epoch canonical as
long as no merge base of the two heads leaves the first-parent chain of the new head.
-/
namespace PrSearch.Sequence

/-! ### The condition -/

/-- Every merge base on the first-parent chain of the old head is on that of the new head. -/
def Straight (g : Dag Sha) (stored new : Sha) : Prop :=
  ∀ base, g.IsMergeBase base stored new → base ∈ g.firstParents stored → base ∈ g.firstParents new

/-- The heads that the graph may give are straight continuations of the stored one. -/
def Aligned (g : Dag Sha) (db : Store) (c : Choice) : Prop :=
  ∀ head, c.resolveHead = .ok (some head) → ∀ stored ∈ db.core.headSha, Straight g stored head

/-- An ancestor is the only merge base with its descendant. -/
theorem isMergeBase_of_ancestor {g : Dag Sha} {a b : Sha} (path : g.Ancestor a b) :
    g.IsMergeBase a a b := by
  constructor
  · exact ⟨Dag.Ancestor.refl g a, path⟩
  · intro d common above
    exact common.1.antisymm above

variable {stored new : Sha} {done : Reassigned}

theorem Straight.onChain {g : Dag Sha} (straight : Straight g stored new) (known : stored ∈ g)
    (path : g.Ancestor stored new) : stored ∈ g.firstParents new :=
  straight stored (isMergeBase_of_ancestor path) (g.self_mem_firstParents known)

/-- Excluding what the head already numbers leaves exactly the rest of the new chain. -/
theorem headChain_append_range {g : Dag Sha} {stored : Option Sha}
    (onChain : ∀ head ∈ stored, head ∈ g.firstParents new) :
    headChain g stored ++ g.range stored new = g.firstParents new := by
  cases stored with
  | none => rfl
  | some head => exact g.firstParents_append_range (onChain head rfl)

/-! ### Assignments -/

section

variable {g : Dag Sha} {allow : Choice → Prop} {db db' : Store} {ws : List Write}

theorem Appended.canonical (mirrors : ∀ c, allow c → Mirror g c) {newHead : Sha}
    {fromSeq toSeq : Int} (appended : Appended (alone allow) newHead fromSeq toSeq ws db db')
    (canonical : Canonical g db)
    (onChain : ∀ stored ∈ db.core.headSha, stored ∈ g.firstParents newHead) :
    Canonical g db' ∧ db'.core.headSha = some newHead ∧
      db'.core.seqEpoch = db.core.seqEpoch := by
  obtain ⟨commits, ⟨c, allowed, said⟩, core, here, elsewhere⟩ :=
    appended.binds canonical.below_head
  have tail := (mirrors c allowed).firstParentCommits said
  have joined := headChain_append_range onChain
  rw [← tail] at joined
  have chain : headChain g db'.core.headSha = g.firstParents newHead := by
    rw [core]
    rfl
  have epoch : db'.core.seqEpoch = db.core.seqEpoch := by rw [core]
  refine ⟨⟨?_, ?_, ?_, ?_⟩, by rw [core], epoch⟩
  · rw [core]
    rintro head ⟨⟩
    obtain ⟨c, allowed, resolved⟩ := appended.head
    exact (mirrors c allowed).resolveHead resolved
  · intro seq sha
    rw [chain, epoch, here, canonical.chain, ← joined, elementAt_append, canonical.headSeq]
    split
    next inside =>
      have none : elementAt (commits.map FirstParentCommit.sha)
          (seq - 1 - (headChain g db.core.headSha).length) = none := elementAt_of_neg _ (by omega)
      simp only [none, reduceCtorEq, or_false]
    next outside =>
      have none : ∀ sha, elementAt (headChain g db.core.headSha) (seq - 1) ≠ some sha := by
        intro sha there
        have bounds := elementAt_bounds there
        omega
      simp only [none, false_or]
  · rw [chain, core, ← joined, List.length_append, List.length_map, canonical.headSeq]
    simp
  · rw [epoch, unopened_iff]
    intro later seq sha after
    rw [elsewhere later seq sha (by omega)]
    exact unopened_iff.mp canonical.unopened later seq sha after

/-! ### Reassignments -/

/-- A commit of a chain stands at the length of its own chain. -/
theorem firstParents_place {base : Sha} {i : Int}
    (here : elementAt (g.firstParents stored) i = some base) :
    i + 1 = (g.firstParents base).length := by
  have member := mem_of_elementAt here
  have nonempty : 0 < (g.firstParents base).length :=
    List.length_pos_of_ne_nil (g.firstParents_ne_nil (g.mem_of_mem_firstParents member))
  have there : elementAt (g.firstParents stored) (((g.firstParents base).length : Int) - 1) =
      some base := by
    have index : (((g.firstParents base).length : Int) - 1).toNat =
        (g.firstParents base).length - 1 := by omega
    rw [elementAt_of_nonneg _ (by omega), index]
    exact g.getElem?_firstParents member
  have same := elementAt_injective (g.nodup_firstParents stored) here there
  omega

/-- The base that counts is one of the old chain, at its place there. -/
theorem locatedBase_cases {seqEpoch : Int}
    (chain : Numbers db.rows seqEpoch (g.firstParents stored)) (base : Option Sha) :
    (locatedBase seqEpoch base db).2 = (headChain g (locatedBase seqEpoch base db).1).length ∧
      ∀ sha, sha ∈ (locatedBase seqEpoch base db).1 ↔
        base = some sha ∧ sha ∈ g.firstParents stored := by
  cases base with
  | none => simp [locatedBase, headChain]
  | some base =>
    cases found : db.findSeqByCommit seqEpoch base with
    | none =>
      have absent : base ∉ g.firstParents stored := by
        intro member
        obtain ⟨i, here⟩ := elementAt_of_mem member
        have shift : i + 1 - 1 = i := by omega
        have bound := (chain (i + 1) base).mpr (by rw [shift]; exact here)
        exact findSeqByCommit_eq_none.mp found (i + 1) bound
      constructor
      · simp [locatedBase, found, headChain]
      · intro sha
        simp only [locatedBase, found, Option.mem_def, reduceCtorEq, Option.some.injEq, false_iff]
        rintro ⟨rfl, member⟩
        exact absent member
    | some seq =>
      have here := (chain seq base).mp (findSeqByCommit_eq_some.mp found)
      have member := mem_of_elementAt here
      have place : seq = (g.firstParents base).length := by
        rw [← firstParents_place here]
        omega
      constructor
      · simpa only [locatedBase, found, headChain] using place
      · intro sha
        simp only [locatedBase, found, Option.mem_def, Option.some.injEq]
        constructor
        · rintro rfl
          exact ⟨rfl, member⟩
        · exact And.left

/-- What a reassignment should have made of the tables: the new epoch is the chain of the new head,
below the divergence it agrees with the old epoch, and only that part was copied. -/
structure Rebuilds (g : Dag Sha) (newHead : Sha) (divergedAtSeq : Int) (ws : List Write)
    (db db' : Store) : Prop where
  epoch : db'.core.seqEpoch = db.core.seqEpoch + 1
  chain : Numbers db'.rows db'.core.seqEpoch (g.firstParents newHead)
  kept : ∀ seq sha, seq < divergedAtSeq →
    (BindsIn db'.rows db'.core.seqEpoch seq sha ↔ BindsIn db.rows db.core.seqEpoch seq sha)
  copied : ∀ fromEpoch toEpoch upto, Write.copySequencesUpTo fromEpoch toEpoch upto ∈ ws →
    upto < divergedAtSeq

/-- The base of the merge, when the old chain has it, must be on the new chain. -/
def BaseOnChain (g : Dag Sha) (stored new : Sha) (base : Option Sha) : Prop :=
  ∀ sha ∈ base, sha ∈ g.firstParents stored → sha ∈ g.firstParents new

instance (g : Dag Sha) (stored new : Sha) (base : Option Sha) :
    Decidable (BaseOnChain g stored new base) :=
  inferInstanceAs (Decidable (∀ sha ∈ base, _))

theorem numbers_unique {rows : List MergeSequenceRow} {seqEpoch : Int} {xs ys : List Sha}
    (first : Numbers rows seqEpoch xs) (second : Numbers rows seqEpoch ys) : xs = ys := by
  apply List.ext_getElem?
  intro i
  have same : ∀ sha, xs[i]? = some sha ↔ ys[i]? = some sha := by
    intro sha
    have here := (first (i + 1) sha).symm.trans (second (i + 1) sha)
    have shift : (i : Int) + 1 - 1 = i := by omega
    rw [shift, elementAt_of_nonneg _ (by omega), elementAt_of_nonneg _ (by omega)] at here
    simpa using here
  exact Option.ext same

/-- A rebuild numbers the chain of its base and then the range above it, whatever the two are. -/
theorem Rewound.numbers (mirrors : ∀ c, allow c → Mirror g c)
    (rewound : Rewound (alone allow) stored new done ws db db')
    (chain : Numbers db.rows db.core.seqEpoch (g.firstParents stored))
    (unopened : Unopened db.rows db.core.seqEpoch) :
    ∃ base located, (alone allow).MergeBase stored new base ∧
      (∀ sha, sha ∈ located ↔ base = some sha ∧ sha ∈ g.firstParents stored) ∧
      done.divergedAtSeq = (headChain g located).length + 1 ∧
      db'.core.seqEpoch = db.core.seqEpoch + 1 ∧ db'.core.headSha = some new ∧
      db'.core.headSeq = (headChain g located ++ g.range located new).length ∧
      Numbers db'.rows db'.core.seqEpoch (headChain g located ++ g.range located new) ∧
      (∀ seq sha, seq < done.divergedAtSeq →
        (BindsIn db'.rows db'.core.seqEpoch seq sha ↔ BindsIn db.rows db.core.seqEpoch seq sha)) ∧
      (∀ fromEpoch toEpoch upto, Write.copySequencesUpTo fromEpoch toEpoch upto ∈ ws →
        upto < done.divergedAtSeq) ∧
      Unopened db'.rows db'.core.seqEpoch := by
  obtain ⟨base, commits, entries, requests, answered, ⟨c, allowed, said⟩, fills, rfl, diverged, -⟩ :=
    rewound.shape
  obtain ⟨place, counts⟩ := locatedBase_cases chain base
  generalize located_eq : locatedBase db.core.seqEpoch base db = located at *
  obtain ⟨baseSha, keepSeq⟩ := located
  dsimp only at place counts fills diverged said
  have tail := (mirrors c allowed).firstParentCommits said
  obtain ⟨core, here, elsewhere⟩ := rebuilt_binds unopened rfl fills rewound.replayed
  rw [tail] at here
  have epoch : db'.core.seqEpoch = db.core.seqEpoch + 1 := by rw [core]
  -- The copied part of the old chain is the chain of the base.
  have copied : ∀ seq sha, (0 < keepSeq ∧ seq ≤ keepSeq ∧
      BindsIn db.rows db.core.seqEpoch seq sha) ↔
      elementAt (headChain g baseSha) (seq - 1) = some sha := by
    intro seq sha
    rw [chain]
    cases baseSha with
    | none =>
      have zero : keepSeq = 0 := by simpa [headChain] using place
      simp [headChain, zero, elementAt]
    | some kept =>
      have onChain := ((counts kept).mp rfl).2
      obtain ⟨rest, split⟩ := g.firstParents_prefix onChain
      simp only [headChain] at place ⊢
      rw [← split, elementAt_append]
      constructor
      · rintro ⟨-, below, there⟩
        rwa [if_pos (by omega)] at there
      · intro there
        have bounds := elementAt_bounds there
        refine ⟨by omega, by omega, ?_⟩
        rwa [if_pos (by omega)]
  have numbers : Numbers db'.rows db'.core.seqEpoch (headChain g baseSha ++ g.range baseSha new) := by
    intro seq sha
    rw [epoch, here, copied, elementAt_append, place]
    split
    next inside =>
      have none : elementAt (g.range baseSha new) (seq - 1 - (headChain g baseSha).length) = none :=
        elementAt_of_neg _ (by omega)
      simp only [none, reduceCtorEq, or_false]
    next outside =>
      have none : elementAt (headChain g baseSha) (seq - 1) ≠ some sha := by
        intro there
        have bounds := elementAt_bounds there
        omega
      simp only [none, false_or]
  refine ⟨base, baseSha, answered, counts, by rw [diverged, place], epoch, by rw [core], ?_, numbers,
    ?_, ?_, ?_⟩
  · rw [core, List.length_append, ← tail, List.length_map, place]
    simp
  · intro seq sha before
    rw [numbers, elementAt_append, if_pos (by omega), ← copied]
    constructor
    · exact fun ends => ends.2.2
    · intro bound
      have bounds := elementAt_bounds ((chain seq sha).mp bound)
      exact ⟨by omega, by omega, bound⟩
  · intro fromEpoch toEpoch upto member
    simp only [rebuildWrites] at member
    split at member
    next positive =>
      simp only [List.mem_append, List.mem_cons, List.mem_map, reduceCtorEq, and_false,
        exists_false, List.not_mem_nil, or_false, false_or,
        Write.copySequencesUpTo.injEq] at member
      omega
    next none =>
      simp at member
  · rw [epoch, unopened_iff]
    intro later seq sha after
    rw [elsewhere later seq sha (by omega)]
    exact unopened_iff.mp unopened later seq sha (by omega)

/-- Prefix and range make the new chain exactly when the base counts on both sides. -/
theorem Rewound.rebuilds_iff (mirrors : ∀ c, allow c → Mirror g c)
    (rewound : Rewound (alone allow) stored new done ws db db')
    (chain : Numbers db.rows db.core.seqEpoch (g.firstParents stored))
    (unopened : Unopened db.rows db.core.seqEpoch) :
    ∃ base, (alone allow).MergeBase stored new base ∧
      (Rebuilds g new done.divergedAtSeq ws db db' ↔ BaseOnChain g stored new base) := by
  obtain ⟨base, located, answered, counts, -, epoch, -, -, numbers, kept, copied, -⟩ :=
    rewound.numbers mirrors chain unopened
  refine ⟨base, answered, ?_⟩
  constructor
  · rintro ⟨-, rebuilt, -, -⟩ sha isBase onOld
    have joined := numbers_unique numbers rebuilt
    have isLocated := (counts sha).mpr ⟨isBase, onOld⟩
    rw [Option.mem_def] at isLocated
    subst isLocated
    rw [← joined]
    apply List.mem_append_left
    exact g.self_mem_firstParents (g.mem_of_mem_firstParents onOld)
  · intro onChain
    refine ⟨epoch, ?_, kept, copied⟩
    rw [headChain_append_range] at numbers
    · exact numbers
    · intro sha isLocated
      obtain ⟨isBase, onOld⟩ := (counts sha).mp isLocated
      exact onChain sha isBase onOld

theorem Rewound.canonical (mirrors : ∀ c, allow c → Mirror g c)
    (rewound : Rewound (alone allow) stored new done ws db db') (known : new ∈ g)
    (straight : Straight g stored new) (canonical : Canonical g db) :
    Canonical g db' ∧ db'.core.headSha = some new ∧
      db'.core.seqEpoch = db.core.seqEpoch + 1 := by
  have chain := canonical.chain
  rw [rewound.stored] at chain
  obtain ⟨base, located, ⟨c, allowed, said⟩, counts, -, epoch, head, headSeq, numbers, -, -,
    unopened⟩ := rewound.numbers mirrors chain canonical.unopened
  have onChain : ∀ sha ∈ located, sha ∈ g.firstParents new := by
    intro sha isLocated
    obtain ⟨rfl, onOld⟩ := (counts sha).mp isLocated
    exact straight sha ((mirrors c allowed).mergeBase said) onOld
  rw [headChain_append_range onChain] at numbers headSeq
  refine ⟨⟨?_, ?_, ?_, unopened⟩, head, epoch⟩
  · rw [head]
    rintro sha ⟨⟩
    exact known
  · rw [head]
    exact numbers
  · rw [head]
    exact headSeq

theorem Rebuilds.frozen {divergedAtSeq : Int} {db₀ db₁ : Store} (before : Frozen db₀ db)
    (after : Frozen db' db₁) :
    Rebuilds g new divergedAtSeq ws db db' ↔ Rebuilds g new divergedAtSeq ws db₀ db₁ := by
  constructor
  · rintro ⟨epoch, chain, kept, copied⟩
    constructor
    · rw [after.core, ← before.core, epoch]
    · rw [after.core, after.rows]
      exact chain
    · rw [after.core, after.rows, ← before.core, ← before.rows]
      exact kept
    · exact copied
  · rintro ⟨epoch, chain, kept, copied⟩
    constructor
    · rw [← after.core, before.core, epoch]
    · rw [← after.core, ← after.rows]
      exact chain
    · rw [← after.core, ← after.rows, before.core, before.rows]
      exact kept
    · exact copied

end

end PrSearch.Sequence
