import PrSearch.Graph.Agreement
import PrSearch.Sequence.Runs

/-! # Assignments over a fallback

Where the mirror fails, the API answers for it. A worker cannot tell the two apart, call by call, so
a history of assignments over the fallback is one over the mirror, whichever of the calls have failed.
-/
namespace PrSearch.Graph

open Sequence (Sha Fault FirstParentCommit Choice Mirror AlignedMirror History Canonical
  mirrorChoice mirrorChoice_mirrors Store World AssignOutcome machine assignSequence)

variable {g : Dag Sha} {graph : ApiCommitGraph} {range : RevRange} {fuel : Nat}

/-- `fallback` where no walk is left unfinished. -/
def answered {α : Type} (primary : Except Fault α) (secondary : Option (Except Fault α)) :
    Except Fault α :=
  (fallback primary secondary).getD (.error (.error "still walking"))

/-- The environment of a worker whose graph falls back to the API: `api` has what the server says of
heads and of two commits, `graph` is what it lists. -/
def withFallback (c api : Choice) (graph : ApiCommitGraph) (fuel : Nat) : Choice :=
  { c with
    resolveHead := answered c.resolveHead (some api.resolveHead)
    isAncestor := fun a b => answered (c.isAncestor a b) (some (api.isAncestor a b))
    mergeBase := fun a b => answered (c.mergeBase a b) (some (api.mergeBase a b))
    firstParentRevList := fun fromSha toSha => answered (c.firstParentRevList fromSha toSha)
      (graph.firstParentRevList fuel ⟨fromSha, toSha⟩)
    firstParentCommits := fun fromSha toSha => answered (c.firstParentCommits fromSha toSha)
      (graph.firstParentCommits fuel ⟨fromSha, toSha⟩) }

/-- The API serves `g`: a listing for each of its commits, an error for any other. -/
structure ServesAll (g : Dag Sha) (graph : ApiCommitGraph) : Prop where
  serves : ∀ toSha ∈ g, ∃ listing, Serves g graph toSha listing
  absent : ∀ toSha, toSha ∉ g → ∃ fault, graph.listCommits toSha graph.perPage 1 = .error fault

/-- What the API graph loads is the range of the mirror. -/
theorem loadChain_range (serves : ServesAll g graph) (enough : g.ids.length < fuel)
    {items : List CommitSummary} {chain : List Sha}
    (loaded : graph.loadChain fuel range = some (.ok (items, chain))) :
    chain = g.range range.fromSha range.toSha := by
  cases checked : range.check (.graph "api") with
  | error fault =>
    rw [ApiCommitGraph.loadChain, checked] at loaded
    cases loaded
  | ok _ =>
    by_cases known : range.toSha ∈ g
    · obtain ⟨listing, listed⟩ := serves.serves range.toSha known
      have within : listing.map CommitSummary.sha ⊆ g.ids := fun sha member =>
        ((listed.reachable sha).mp member).mem known
      have shorter := List.Nodup.length_le_of_subset listed.distinct within
      rw [List.length_map] at shorter
      have answers := loadChain_answers checked known listed (Nat.lt_of_le_of_lt shorter enough)
      exact congrArg Prod.snd (answers.good loaded)
    · obtain ⟨fault, thrown⟩ := serves.absent range.toSha known
      have failed : getAllPaged graph.perPage graph.max
          (graph.listCommits range.toSha graph.perPage) = .error fault := by
        rw [getAllPaged, getPages]
        simp [thrown]
      rw [ApiCommitGraph.loadChain, checked, failed] at loaded
      cases loaded

variable {c : Choice} {db : Store}

theorem of_answered {α : Type} {primary : Except Fault α} {secondary : Option (Except Fault α)}
    {a : α} (said : answered primary secondary = .ok a) :
    primary = .ok a ∨ secondary = some (.ok a) := by
  cases primary with
  | ok answer => exact .inl said
  | error fault =>
    rcases Option.getD_eq_iff.mp said with given | ⟨-, thrown⟩
    · exact .inr given
    · cases thrown

/-- Each call over the fallback is answered as by the mirror. -/
theorem mirror_withFallback {c api : Choice} (mirror : Mirror g c) (same : Mirror g api)
    (serves : ServesAll g graph) (enough : g.ids.length < fuel) :
    Mirror g (withFallback c api graph fuel) where
  resolveHead said := (of_answered said).elim mirror.resolveHead fun given =>
    same.resolveHead (Option.some.inj given)
  isAncestor said := (of_answered said).elim mirror.isAncestor fun given =>
    same.isAncestor (Option.some.inj given)
  mergeBase said := (of_answered said).elim mirror.mergeBase fun given =>
    same.mergeBase (Option.some.inj given)
  firstParentRevList said := by
    rcases of_answered said with given | given
    · exact mirror.firstParentRevList given
    obtain ⟨result, loaded, isAnswer⟩ := Option.map_eq_some_iff.mp given
    cases result with
    | error fault => cases isAnswer
    | ok pair =>
      cases isAnswer
      exact loadChain_range serves enough loaded
  firstParentCommits said := by
    rcases of_answered said with given | given
    · exact mirror.firstParentCommits given
    obtain ⟨result, loaded, isAnswer⟩ := Option.map_eq_some_iff.mp given
    cases result with
    | error fault => cases isAnswer
    | ok pair =>
      have chain := loadChain_range serves enough loaded
      have dated := (mapM_withDate pair.1 pair.2).good (congrArg some isAnswer)
      rw [dated.1, chain]

/-! ### Histories -/

/-- A mirror of `g` that gives straight heads, and an API of `g` behind it that gives such heads too. -/
def Fallback (g : Dag Sha) (db : Store) (c : Choice) : Prop :=
  ∃ primary api graph fuel, AlignedMirror g db primary ∧ AlignedMirror g db api ∧
    ServesAll g graph ∧ g.ids.length < fuel ∧ c = withFallback primary api graph fuel

/-- The tables after any runs of `assignSequence` over the fallback, while the graph grows. -/
inductive FallbackHistory (baseBranch : String) : Dag Sha → Store → Prop
  | start (g : Dag Sha) : FallbackHistory baseBranch g Store.empty
  | grow {g g' : Dag Sha} {db : Store} (before : FallbackHistory baseBranch g db)
      (grown : g.Extends g') : FallbackHistory baseBranch g' db
  | run {g : Dag Sha} {db : Store} {out : Except Fault AssignOutcome} {s : World Unit}
      (before : FallbackHistory baseBranch g db)
      (ran : (machine Unit (Fallback g db)).Runs () (assignSequence baseBranch) (World.initial db)
        out s) : FallbackHistory baseBranch g s.db

theorem Fallback.aligned (falls : Fallback g db c) : AlignedMirror g db c := by
  obtain ⟨primary, api, graph, fuel, ⟨mirror, first⟩, ⟨same, second⟩, serves, enough, rfl⟩ := falls
  exact ⟨mirror_withFallback mirror same serves enough, fun head said =>
    (of_answered said).elim (first head) fun given => second head (Option.some.inj given)⟩

/-- A history over the fallback is one over the mirror, and it leaves the current epoch as the
first-parent chain of its head. -/
theorem fallbackHistory_mirrored {baseBranch : String} (history : FallbackHistory baseBranch g db) :
    History baseBranch g db ∧ Canonical g db := by
  have mirrored : History baseBranch g db := by
    induction history with
    | start g => exact .start g
    | grow _ grown ih => exact ih.grow grown
    | run _ ran ih =>
      refine ih.run (ran.mono ?_)
      rintro β op s r s' ⟨c, falls, stepped⟩
      exact ⟨c, falls.aligned, stepped⟩
  exact ⟨mirrored, mirrored.canonical⟩

/-! ### A server -/

/-- What is reached from `toSha`, newest first. -/
def listingOf (g : Dag Sha) (toSha : Sha) : List CommitSummary :=
  (g.ids.filter fun sha => g.Ancestor sha toSha).map fun sha => ⟨sha, g.parents sha, some 0⟩

/-- A server of `g` with two commits a page. -/
def serverOf (g : Dag Sha) : ApiCommitGraph where
  listCommits toSha perPage page :=
    if toSha ∈ g then .ok (((listingOf g toSha).drop ((page - 1) * perPage)).take perPage)
    else .error (.error "Not Found")
  perPage := 2

theorem serverOf_servesAll (g : Dag Sha) : ServesAll g (serverOf g) where
  serves toSha known := by
    refine ⟨listingOf g toSha, Nat.two_pos, fun page => if_pos known, ?_, ?_, ?_⟩
    · have shas : (listingOf g toSha).map CommitSummary.sha =
          g.ids.filter fun sha => g.Ancestor sha toSha := by
        simp [listingOf, Function.comp_def]
      rw [shas]
      exact g.nodup_ids.filter _
    · intro sha
      simp only [listingOf, List.map_map, List.mem_map, List.mem_filter, decide_eq_true_eq]
      constructor
      · rintro ⟨_, ⟨-, reached⟩, rfl⟩
        exact reached
      · exact fun reached => ⟨sha, ⟨reached.mem known, reached⟩, rfl⟩
    · intro commit listed
      obtain ⟨sha, -, rfl⟩ := List.mem_map.mp listed
      rfl
  absent toSha unknown := ⟨_, if_neg unknown⟩

/-- The mirror of the merge above, when `git` cannot list commits. -/
def brokenMirror : Choice :=
  { mirrorChoice merged ["main"] (some "dddddddddddddddddddddddddddddddddddddddd") with
    firstParentCommits := fun _ _ => .error (.error "git") }

/-- The merge is numbered all the same. -/
theorem fallbackHistory_mirrored_merged :
    ∃ s : World Unit, s.db.core.headSeq = 3 ∧ Canonical merged s.db := by
  have whole : Mirror merged
      (mirrorChoice merged ["main"] (some "dddddddddddddddddddddddddddddddddddddddd")) :=
    mirrorChoice_mirrors (by decide)
  have broken : Mirror merged brokenMirror :=
    ⟨whole.resolveHead, whole.isAncestor, whole.mergeBase, whole.firstParentRevList,
      by rintro _ _ _ ⟨⟩⟩
  have falls : Fallback merged Store.empty
      (withFallback brokenMirror brokenMirror (serverOf merged) 5) :=
    ⟨_, _, _, 5, ⟨broken, by rintro _ _ _ ⟨⟩⟩, ⟨broken, by rintro _ _ _ ⟨⟩⟩,
      serverOf_servesAll merged, by decide, rfl⟩
  obtain ⟨out, s, ran, numbered⟩ := Sequence.runs_of_choice _ falls
    (assignSequence "main") Store.empty (fun _ db => db.core.headSeq = 3) (by decide)
  exact ⟨s, numbered, (fallbackHistory_mirrored (.run (.start merged) ran)).2⟩

end PrSearch.Graph
