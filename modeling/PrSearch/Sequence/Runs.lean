import PrSearch.Sequence.Canonical

/-! # Runs of assignment and reassignment over a growing graph

The sequential theorems: what a history of assignments leaves, and what one reassignment makes of a
canonical epoch.
-/
namespace PrSearch.Sequence

/-! ### Reassignment -/

/-- The mirror of `g`, with `base` as its answer for the merge base of the two heads. -/
def MirrorWithBase (g : Dag Sha) (stored new : Sha) (base : Option Sha) (c : Choice) : Prop :=
  Mirror g c ∧ ∀ answer, c.mergeBase stored new = .ok answer → answer = base

/-- A committed reassignment rebuilds the true chain exactly when its merge base, if the old chain
has it, is on the new chain as well. -/
theorem reassignSequence_rebuilds_iff {g : Dag Sha} {stored new : Sha} {base : Option Sha}
    {db : Store} {oldEpoch newEpoch divergedAtSeq toSeq affectedCount : Int} {headSha : Sha}
    {s : World Unit} (chain : Numbers db.rows db.core.seqEpoch (g.firstParents stored))
    (unopened : Unopened db.rows db.core.seqEpoch)
    (ran : (machine Unit (MirrorWithBase g stored new base)).Runs () (reassignSequence stored new)
      (World.initial db)
      (.ok (.reassigned oldEpoch newEpoch divergedAtSeq toSeq headSha affectedCount)) s) :
    Rebuilds g new divergedAtSeq (s.own ()) db s.db ↔ BaseOnChain g stored new base := by
  have ended := Does.runs (reassignSequence_does fun _ _ _ _ _ => trivial) (initial_idle db) ran
  obtain ⟨ws, before, after, ⟨idle, start⟩, rewound⟩ := ended
  obtain ⟨answer, ⟨c, allowed, said⟩, iff⟩ := rewound.rebuilds_iff
    (fun c allowed => allowed.1) (by rw [start.core, start.rows]; exact chain)
    (by rw [start.core, start.rows]; exact unopened)
  rw [allowed.2 answer said] at iff
  rw [← Rebuilds.frozen start idle.since, idle.own, ← iff]
  constructor
  · rintro ⟨epoch, chain, kept, copied⟩
    exact ⟨epoch, chain, kept, fun a b upto member => copied a b upto (List.mem_cons_of_mem _ member)⟩
  · rintro ⟨epoch, chain, kept, copied⟩
    refine ⟨epoch, chain, kept, fun a b upto member => copied a b upto ?_⟩
    rcases List.mem_cons.mp member with mark | own
    · cases mark
    · exact own

/-- Two branches from one root. -/
def forked : Dag Sha where
  nodes := [("b", ["r"]), ("a", ["r"]), ("r", [])]
  closed := by decide

def forkedStore : Store where
  toTables := numberedTables ["r", "a"]
  lawful := by decide

theorem reassignSequence_rebuilds_forked :
    ∃ s : World Unit, Rebuilds forked "b" 2 (s.own ()) forkedStore s.db := by
  have allowed : MirrorWithBase forked "a" "b" (some "r") (mirrorChoice forked [] (some "b")) := by
    constructor
    · exact mirrorChoice_mirrors (by decide)
    · rintro answer ⟨⟩
      decide
  obtain ⟨out, s, ran, rfl⟩ := runs_of_choice _ allowed (reassignSequence "a" "b") forkedStore
    (fun out _ => out = .ok (.reassigned 1 2 2 2 "b" 1)) (by decide)
  exact ⟨s, (reassignSequence_rebuilds_iff (by decide) (by decide) ran).mpr (by decide)⟩

/-- The new head `n` reaches `b`, the last commit it shares with the old head `s`, only through its
second parent. -/
def merged : Dag Sha where
  nodes := [("n", ["x", "b"]), ("x", ["r"]), ("s", ["b"]), ("b", ["r"]), ("r", [])]
  closed := by decide

def mergedStore : Store where
  toTables := numberedTables ["r", "b", "s"]
  lawful := by decide

/-- The new epoch then keeps `b`, which is not on the new chain. -/
theorem reassignSequence_base_off_chain :
    Numbers mergedStore.rows mergedStore.core.seqEpoch (merged.firstParents "s") ∧
      ¬ merged.Ancestor "s" "n" ∧
      ∃ s, (machine Unit (Mirror merged)).Runs () (reassignSequence "s" "n")
          (World.initial mergedStore) (.ok (.reassigned 1 2 3 4 "n" 1)) s ∧
        BindsIn s.db.rows s.db.core.seqEpoch 2 "b" ∧
        ¬ Numbers s.db.rows s.db.core.seqEpoch (merged.firstParents "n") := by
  refine ⟨by decide, by decide, ?_⟩
  obtain ⟨out, s, ran, rfl, kept, broken⟩ := runs_of_choice
    (mirrorChoice merged [] (some "n")) (mirrorChoice_mirrors (by decide))
    (reassignSequence "s" "n") mergedStore
    (fun out db => out = .ok (.reassigned 1 2 3 4 "n" 1) ∧
      BindsIn db.rows db.core.seqEpoch 2 "b" ∧
      ¬ Numbers db.rows db.core.seqEpoch (merged.firstParents "n")) (by decide)
  exact ⟨s, ran, kept, broken⟩

/-! ### Assignment -/

/-- The mirror of `g`, giving heads that continue the stored one straight. -/
def AlignedMirror (g : Dag Sha) (db : Store) (c : Choice) : Prop :=
  Mirror g c ∧ Aligned g db c

/-- The tables after any runs of `assignSequence`, over a graph that grows between them, each given
a head that continues the stored one straight. -/
inductive History (baseBranch : String) : Dag Sha → Store → Prop
  | start (g : Dag Sha) : History baseBranch g Store.empty
  | grow {g g' : Dag Sha} {db : Store} (before : History baseBranch g db) (grown : g.Extends g') :
      History baseBranch g' db
  | run {g : Dag Sha} {db : Store} {out : Except Fault AssignOutcome} {s : World Unit}
      (before : History baseBranch g db)
      (ran : (machine Unit (AlignedMirror g db)).Runs ()
        (assignSequence baseBranch) (World.initial db) out s) :
      History baseBranch g s.db

variable {db' db₁ db₂ : Store} {ws : List Write} {newHead : Sha} {fromSeq toSeq : Int}
  {baseBranch : String}

section

variable {g : Dag Sha} {db : Store}

/-- What one run may do to canonical tables: within an epoch the chain is only extended. -/
structure Continues (g : Dag Sha) (db db' : Store) : Prop where
  canonical : Canonical g db'
  extends_chain : db'.core.seqEpoch = db.core.seqEpoch → ∀ stored ∈ db.core.headSha,
    ∃ head ∈ db'.core.headSha, stored ∈ g.firstParents head

theorem Continues.of_frozen (canonical : Canonical g db) (frozen : Frozen db db') :
    Continues g db db' := by
  constructor
  · exact canonical.frozen frozen
  · intro _ stored here
    rw [frozen.core]
    exact ⟨stored, here, g.self_mem_firstParents (canonical.known stored here)⟩

/-- The gate of an assignment, under the condition, lets only straight continuations through. -/
theorem Appended.onChain (canonical : Canonical g db) (start : Frozen db db₁)
    (appended : Appended (alone (AlignedMirror g db)) newHead fromSeq toSeq ws db₁ db₂) :
    ∀ stored ∈ db₁.core.headSha, stored ∈ g.firstParents newHead := by
  intro stored here
  have here' : stored ∈ db.core.headSha := by rwa [← start.core]
  by_cases same : stored = newHead
  · subst same
    exact g.self_mem_firstParents (canonical.known stored here')
  · obtain ⟨c, ⟨mirror, -⟩, said⟩ := appended.gate stored here same
    obtain ⟨c', ⟨-, aligned⟩, resolved⟩ := appended.head
    exact (aligned newHead resolved stored here').onChain (canonical.known stored here')
      (mirror.isAncestor said |>.mp rfl)

theorem Appended.continues (canonical : Canonical g db) (start : Frozen db db₁)
    (appended : Appended (alone (AlignedMirror g db)) newHead fromSeq toSeq ws db₁ db₂)
    (later : Frozen db₂ db') :
    Continues g db db' ∧ db'.core.headSha = some newHead ∧
      db'.core.seqEpoch = db.core.seqEpoch := by
  have onChain := appended.onChain canonical start
  obtain ⟨following, head, epoch⟩ := appended.canonical (fun c allowed => allowed.1)
    (canonical.frozen start) onChain
  have headSha : db'.core.headSha = some newHead := by rw [later.core, head]
  refine ⟨⟨following.frozen later, ?_⟩, headSha, by rw [later.core, epoch, start.core]⟩
  intro _ stored here
  rw [headSha]
  exact ⟨newHead, rfl, onChain stored (by rwa [start.core])⟩

theorem Rewound.continues {stored new : Sha} {done : Reassigned} (canonical : Canonical g db)
    (start : Frozen db db₁)
    (rewound : Rewound (alone (AlignedMirror g db)) stored new done ws db₁ db₂)
    (head : (alone (AlignedMirror g db)).Head (some new)) (later : Frozen db₂ db') :
    Continues g db db' := by
  obtain ⟨c, ⟨mirror, aligned⟩, resolved⟩ := head
  have stored_here : stored ∈ db.core.headSha := by
    rw [← start.core]
    exact rewound.stored
  obtain ⟨following, -, epoch⟩ := rewound.canonical (fun c allowed => allowed.1)
    (mirror.resolveHead resolved) (aligned new resolved stored stored_here)
    (canonical.frozen start)
  constructor
  · exact following.frozen later
  · intro same
    rw [later.core, epoch, start.core] at same
    omega

/-- One run, in any of its outcomes. -/
theorem assignSequence_continues {out : Except Fault AssignOutcome} {s : World Unit}
    (canonical : Canonical g db)
    (ran : (machine Unit (AlignedMirror g db)).Runs ()
      (assignSequence baseBranch) (World.initial db) out s) :
    Continues g db s.db ∧ ∀ fromSeq toSeq head, out = .ok (.assigned fromSeq toSeq head) →
      s.db.core.headSha = some head ∧ s.db.core.seqEpoch = db.core.seqEpoch := by
  have ended := Does.runs (assignSequence_does baseBranch (fun _ _ _ _ _ _ _ => trivial)
    fun _ _ _ _ _ _ _ => trivial) (initial_idle db) ran
  have idle : ∀ history, Idle (alone (AlignedMirror g db)) () history db s → Continues g db s.db :=
    fun history idle => Continues.of_frozen canonical idle.since
  cases out with
  | error fault =>
    refine ⟨?_, fun _ _ _ => nofun⟩
    rcases ended with (rest | rest) | ⟨headSha, fromSeq, toSeq, ws, db₁, db₂, ⟨rest, start⟩, appended⟩
    · exact idle _ rest
    · exact idle _ rest
    · exact (appended.continues canonical start rest.since).1
  | ok outcome =>
    rcases ended with ended | ⟨seen, stored, new, origin, rewritten, ended⟩
    · cases outcome with
      | assigned fromSeq toSeq head =>
        obtain ⟨ws, db₁, db₂, ⟨rest, start⟩, appended⟩ := ended
        obtain ⟨continues, headSha, epoch⟩ := appended.continues canonical start rest.since
        refine ⟨continues, ?_⟩
        rintro fromSeq' toSeq' head' ⟨⟩
        exact ⟨headSha, epoch⟩
      | skipped reason => exact ⟨idle _ ended.1, fun _ _ _ => nofun⟩
      | noBranch => exact ⟨idle _ ended, fun _ _ _ => nofun⟩
      | locked => exact ⟨idle _ ended, fun _ _ _ => nofun⟩
      | stale reason => exact ⟨ended.elim (idle _) (idle _), fun _ _ _ => nofun⟩
      | reassigned => exact ended.elim
      | rewritten => exact ended.elim
    · cases outcome with
      | assigned => exact ended.elim
      | skipped reason => exact ⟨idle _ (ended.1.rebase origin), fun _ _ _ => nofun⟩
      | noBranch => exact ended.elim
      | locked => exact ended.elim
      | stale reason => exact ⟨idle _ (ended.rebase origin), fun _ _ _ => nofun⟩
      | reassigned =>
        obtain ⟨ws, db₁, db₂, ⟨rest, start⟩, rewound⟩ := ended
        exact ⟨rewound.continues canonical (origin.trans start) rewritten.head rest.since,
          fun _ _ _ => nofun⟩
      | rewritten => exact ⟨idle _ (ended.1.rebase origin), fun _ _ _ => nofun⟩

/-- The step lemma above, over a whole history. -/
theorem History.canonical (history : History baseBranch g db) : Canonical g db := by
  induction history with
  | start g => exact canonical_empty g
  | grow _ grown ih => exact ih.grow grown
  | run _ ran ih => exact (assignSequence_continues ih ran).1.canonical

/-- After every history of straight heads, a run that assigns `head` leaves the epoch as the
first-parent chain of `head`, numbered from one; and no run appends a head that does not continue
the stored chain. -/
theorem assignSequence_numbers_first_parents {baseBranch : String}
    {out : Except Fault AssignOutcome} {s : World Unit} (history : History baseBranch g db)
    (ran : (machine Unit (AlignedMirror g db)).Runs ()
      (assignSequence baseBranch) (World.initial db) out s) :
    (∀ fromSeq toSeq head, out = .ok (.assigned fromSeq toSeq head) →
      s.db.core.headSha = some head ∧
      s.db.core.headSeq = (g.firstParents head).length ∧
      Numbers s.db.rows s.db.core.seqEpoch (g.firstParents head) ∧
      ∀ stored ∈ db.core.headSha, g.firstParents stored <+: g.firstParents head) ∧
    (s.db.core.seqEpoch = db.core.seqEpoch → ∀ stored ∈ db.core.headSha,
      ∃ head ∈ s.db.core.headSha, g.firstParents stored <+: g.firstParents head) := by
  obtain ⟨continues, assigned⟩ := assignSequence_continues history.canonical ran
  have extended : s.db.core.seqEpoch = db.core.seqEpoch → ∀ stored ∈ db.core.headSha,
      ∃ head ∈ s.db.core.headSha, g.firstParents stored <+: g.firstParents head := by
    intro same stored here
    obtain ⟨head, isHead, onChain⟩ := continues.extends_chain same stored here
    exact ⟨head, isHead, g.firstParents_prefix onChain⟩
  refine ⟨?_, extended⟩
  intro fromSeq toSeq head ended
  obtain ⟨isHead, same⟩ := assigned fromSeq toSeq head ended
  have chain := continues.canonical.chain
  have headSeq := continues.canonical.headSeq
  rw [isHead] at chain headSeq
  refine ⟨isHead, headSeq, chain, ?_⟩
  intro stored here
  obtain ⟨head', isHead', above⟩ := extended same stored here
  rw [isHead, Option.mem_def, Option.some.injEq] at isHead'
  rwa [isHead']

/-- The first run of a branch. -/
theorem assignSequence_numbers_forked :
    ∃ s : World Unit, s.db.core.headSha = some "a" ∧
      Numbers s.db.rows s.db.core.seqEpoch (forked.firstParents "a") := by
  have allowed : AlignedMirror forked Store.empty (mirrorChoice forked ["main"] (some "a")) := by
    constructor
    · exact mirrorChoice_mirrors (by decide)
    · rintro head - stored ⟨⟩
  obtain ⟨out, s, ran, rfl⟩ := runs_of_choice _ allowed (assignSequence "main") Store.empty
    (fun out _ => out = .ok (.assigned 0 2 "a")) (by decide)
  obtain ⟨assigned, -⟩ := assignSequence_numbers_first_parents (.start forked) ran
  obtain ⟨head, -, chain, -⟩ := assigned 0 2 "a" rfl
  exact ⟨s, head, chain⟩

/-- The new head `n` reaches the stored head `s` only through its second parent. -/
def foxtrot : Dag Sha where
  nodes := [("n", ["x", "s"]), ("x", ["r"]), ("s", ["r"]), ("r", [])]
  closed := by decide

/-- `n` passes the gate and is appended to a chain it does not continue. -/
theorem assignSequence_appends_foxtrot :
    ∃ s s', (machine Unit (Mirror foxtrot)).Runs () (assignSequence "main")
        (World.initial Store.empty) (.ok (.assigned 0 2 "s")) s ∧
      (machine Unit (Mirror foxtrot)).Runs () (assignSequence "main")
        (World.initial s.db) (.ok (.assigned 2 4 "n")) s' ∧
      ¬ Numbers s'.db.rows s'.db.core.seqEpoch (foxtrot.firstParents "n") := by
  have first : Mirror foxtrot (mirrorChoice foxtrot ["main"] (some "s")) :=
    mirrorChoice_mirrors (by decide)
  have second : Mirror foxtrot (mirrorChoice foxtrot ["main"] (some "n")) :=
    mirrorChoice_mirrors (by decide)
  obtain ⟨out, s, ran, rfl, later⟩ := runs_of_choice _ first (assignSequence "main") Store.empty
    (fun out db => out = .ok (.assigned 0 2 "s") ∧
      ((machine Unit (Mirror foxtrot)).eval () (mirrorChoice foxtrot ["main"] (some "n"))
        (assignSequence "main") (World.initial db)).any (fun ended =>
          decide (ended.1 = .ok (.assigned 2 4 "n") ∧ ¬ Numbers ended.2.db.rows
            ended.2.db.core.seqEpoch (foxtrot.firstParents "n"))) = true) (by decide)
  obtain ⟨out, s', ran', rfl, broken⟩ := runs_of_choice _ second (assignSequence "main") s.db
    (fun out db => out = .ok (.assigned 2 4 "n") ∧ ¬ Numbers db.rows db.core.seqEpoch
      (foxtrot.firstParents "n")) later
  exact ⟨s, s', ran, ran', broken⟩

end

end PrSearch.Sequence
