import Mathlib.Tactic.Linarith
import PrSearch.Lib.Automaton

/-! # The cap on concurrent refreshes

A refresh acquires a place before it fetches and releases it afterwards. The release takes one off
the counter and wakes the first that waits, but the woken one adds itself to the counter only when it
resumes, so that a newcomer can take the place that was freed for it. Nobody who waits is lost and
the counter ends at zero in every run; the cap holds exactly in the runs in which no woken refresh
finds the counter full.
-/
namespace PrSearch.Authz.RefreshCap

/-- The counter and the queue of the resolver, and where each refresh is that ever arrived. -/
structure Resolver where
  running : Int
  /-- `#waiting`, the first to be woken first. -/
  waiting : List Nat
  /-- Woken, but not resumed yet. -/
  woken : List Nat
  /-- Past `#acquire`, before the fetch. -/
  acquired : List Nat
  fetching : List Nat
  ended : List Nat
  arrived : List Nat
  deriving DecidableEq, Repr

def start : Resolver := ⟨0, [], [], [], [], [], []⟩

inductive Action
  /-- Calls `#acquire`. -/
  | arrive (refresh : Nat)
  /-- Goes on after the promise it waited for. -/
  | resume (refresh : Nat)
  | fetch (refresh : Nat)
  /-- The fetch succeeds or fails; `finally` releases. -/
  | settle (refresh : Nat)
  deriving DecidableEq, Repr

/-- `#acquire`, up to its first suspension. -/
def acquire (maxConcurrent : Nat) (s : Resolver) (refresh : Nat) : Resolver :=
  if s.running < maxConcurrent then
    { s with running := s.running + 1, acquired := s.acquired ++ [refresh] }
  else { s with waiting := s.waiting ++ [refresh] }

/-- `#release` -/
def release (s : Resolver) : Resolver :=
  match s.waiting with
  | [] => { s with running := s.running - 1 }
  | next :: rest => { s with running := s.running - 1, waiting := rest, woken := s.woken ++ [next] }

def step (maxConcurrent : Nat) (s : Resolver) : Action → Option Resolver
  | .arrive refresh =>
      if refresh ∈ s.arrived then none
      else some (acquire maxConcurrent { s with arrived := s.arrived ++ [refresh] } refresh)
  | .resume refresh =>
      if refresh ∈ s.woken then
        some { s with
          running := s.running + 1
          woken := s.woken.erase refresh
          acquired := s.acquired ++ [refresh] }
      else none
  | .fetch refresh =>
      if refresh ∈ s.acquired then
        some { s with
          acquired := s.acquired.erase refresh
          fetching := s.fetching ++ [refresh] }
      else none
  | .settle refresh =>
      if refresh ∈ s.fetching then
        some (release { s with
          fetching := s.fetching.erase refresh
          ended := s.ended ++ [refresh] })
      else none

def refreshes (maxConcurrent : Nat) : Automaton Resolver Action := ⟨step maxConcurrent⟩

/-- The refreshes that have a place: from the acquisition to the release. -/
def Resolver.inProgress (s : Resolver) : Nat := s.acquired.length + s.fetching.length

def Resolver.Capped (maxConcurrent : Nat) (s : Resolver) : Prop := s.inProgress ≤ maxConcurrent

/-- In how many places a refresh is. -/
def Resolver.places (s : Resolver) (refresh : Nat) : Nat :=
  s.waiting.count refresh + s.woken.count refresh + s.acquired.count refresh +
    s.fetching.count refresh + s.ended.count refresh

structure Lawful (maxConcurrent : Nat) (s : Resolver) : Prop where
  capped : s.Capped maxConcurrent
  /-- A refresh that arrived waits, is woken, has a place or has ended. -/
  everyone : ∀ refresh, s.places refresh = if refresh ∈ s.arrived then 1 else 0
  /-- While one waits there is another that will release a place. -/
  noneLost : 0 < maxConcurrent → s.waiting ≠ [] → s.woken ≠ [] ∨ 0 < s.inProgress
  zero : (∀ refresh ∈ s.arrived, refresh ∈ s.ended) → s.running = 0

/-- A woken refresh resumes only into a free place. -/
def FreePlace (maxConcurrent : Nat) (s : Resolver) : Action → Prop
  | .resume _ => s.running < maxConcurrent
  | _ => True

/-! ### What holds in every run -/

/-- The counter counts the places taken, and those who wait are as many as found them taken. -/
structure Kept (maxConcurrent : Nat) (s : Resolver) : Prop where
  counter : s.running = s.inProgress
  everyone : ∀ refresh, s.places refresh = if refresh ∈ s.arrived then 1 else 0
  busy : s.waiting ≠ [] → (maxConcurrent : Int) ≤ s.running + s.woken.length

theorem kept_start (maxConcurrent : Nat) : Kept maxConcurrent start :=
  ⟨rfl, fun _ => rfl, fun some => absurd rfl some⟩

variable {items : List Nat} {action : Action} {next : Resolver}

section Steps

variable {maxConcurrent : Nat} {s : Resolver} {refresh : Nat}

theorem length_erase_add (inside : refresh ∈ items) :
    (items.erase refresh).length + 1 = items.length := by
  have some : 0 < items.length := List.length_pos_of_mem inside
  rw [List.length_erase_of_mem inside]
  omega

theorem count_erase_add (inside : refresh ∈ items) (other : Nat) :
    (items.erase refresh).count other + (if refresh = other then 1 else 0) = items.count other := by
  have some : 0 < items.count refresh := List.count_pos_iff.mpr inside
  rw [List.count_erase]
  by_cases same : refresh = other
  · subst same
    simp only [beq_self_eq_true, if_true]
    omega
  · have apart : (refresh == other) = false := by simpa using same
    simp [same, apart]

theorem Kept.arrive (kept : Kept maxConcurrent s) (new : refresh ∉ s.arrived) :
    Kept maxConcurrent
      (acquire maxConcurrent { s with arrived := s.arrived ++ [refresh] } refresh) := by
  have nowhere : s.places refresh = 0 := by rw [kept.everyone, if_neg new]
  -- one more place for the newcomer, and the same for the others
  have everyone (other : Nat) : s.places other + (if refresh = other then 1 else 0) =
      if other ∈ s.arrived ++ [refresh] then 1 else 0 := by
    by_cases same : refresh = other
    · subst same
      simp [nowhere]
    · rw [kept.everyone]
      simp [same, Ne.symm same]
  rw [acquire]
  split
  · case isTrue free =>
    constructor
    · have counted := kept.counter
      simp only [Resolver.inProgress, List.length_append, List.length_singleton] at counted ⊢
      push_cast at counted ⊢
      linarith
    · intro other
      rw [← everyone other]
      simp only [Resolver.places, List.count_append, List.count_singleton, beq_iff_eq]
      omega
    · intro some
      have busy := kept.busy some
      dsimp only at busy ⊢
      linarith
  · case isFalse full =>
    constructor
    · exact kept.counter
    · intro other
      rw [← everyone other]
      simp only [Resolver.places, List.count_append, List.count_singleton, beq_iff_eq]
      omega
    · intro _
      dsimp only at full ⊢
      have woken : (0 : Int) ≤ s.woken.length := Int.natCast_nonneg _
      linarith

theorem Kept.resume (kept : Kept maxConcurrent s) (woken : refresh ∈ s.woken) :
    Kept maxConcurrent { s with
      running := s.running + 1
      woken := s.woken.erase refresh
      acquired := s.acquired ++ [refresh] } := by
  have fewer := length_erase_add woken
  constructor
  · have counted := kept.counter
    simp only [Resolver.inProgress, List.length_append, List.length_singleton] at counted ⊢
    push_cast at counted ⊢
    linarith
  · intro other
    rw [← kept.everyone other]
    have moved := count_erase_add woken other
    simp only [Resolver.places, List.count_append, List.count_singleton, beq_iff_eq]
    omega
  · intro some
    have busy := kept.busy some
    dsimp only at busy ⊢
    omega

theorem Kept.fetch (kept : Kept maxConcurrent s) (acquired : refresh ∈ s.acquired) :
    Kept maxConcurrent { s with
      acquired := s.acquired.erase refresh
      fetching := s.fetching ++ [refresh] } := by
  have fewer := length_erase_add acquired
  constructor
  · have counted := kept.counter
    simp only [Resolver.inProgress, List.length_append, List.length_singleton] at counted ⊢
    omega
  · intro other
    rw [← kept.everyone other]
    have moved := count_erase_add acquired other
    simp only [Resolver.places, List.count_append, List.count_singleton, beq_iff_eq]
    omega
  · exact kept.busy

theorem Kept.settle (kept : Kept maxConcurrent s) (fetching : refresh ∈ s.fetching) :
    Kept maxConcurrent (release { s with
      fetching := s.fetching.erase refresh
      ended := s.ended ++ [refresh] }) := by
  have fewer := length_erase_add fetching
  have counted := kept.counter
  simp only [Resolver.inProgress] at counted
  rw [release]
  split
  · case h_1 none =>
    constructor
    · simp only [Resolver.inProgress]
      omega
    · intro other
      rw [← kept.everyone other]
      have moved := count_erase_add fetching other
      simp only [Resolver.places, List.count_append, List.count_singleton, beq_iff_eq]
      omega
    · exact fun some => absurd none some
  · case h_2 next rest first =>
    have waits : s.waiting = next :: rest := first
    constructor
    · simp only [Resolver.inProgress]
      omega
    · intro other
      rw [← kept.everyone other]
      have moved := count_erase_add fetching other
      simp only [Resolver.places, List.count_append, waits, List.count_cons, List.count_nil, beq_iff_eq]
      omega
    · -- the place taken off the counter is the one the woken refresh will take
      intro _
      have busy := kept.busy (by rw [waits]; exact List.cons_ne_nil next rest)
      simp only [List.length_append, List.length_singleton]
      push_cast
      linarith

theorem Kept.step (kept : Kept maxConcurrent s) (stepped : step maxConcurrent s action = some next) :
    Kept maxConcurrent next := by
  cases action with
  | arrive refresh =>
    by_cases known : refresh ∈ s.arrived
    · simp [RefreshCap.step, known] at stepped
    · rw [RefreshCap.step, if_neg known] at stepped
      exact Option.some.inj stepped ▸ kept.arrive known
  | resume refresh =>
    by_cases woken : refresh ∈ s.woken
    · rw [RefreshCap.step, if_pos woken] at stepped
      exact Option.some.inj stepped ▸ kept.resume woken
    · simp [RefreshCap.step, woken] at stepped
  | fetch refresh =>
    by_cases acquired : refresh ∈ s.acquired
    · rw [RefreshCap.step, if_pos acquired] at stepped
      exact Option.some.inj stepped ▸ kept.fetch acquired
    · simp [RefreshCap.step, acquired] at stepped
  | settle refresh =>
    by_cases fetching : refresh ∈ s.fetching
    · rw [RefreshCap.step, if_pos fetching] at stepped
      exact Option.some.inj stepped ▸ kept.settle fetching
    · simp [RefreshCap.step, fetching] at stepped

/-- Besides the cap, the law holds whatever happens. -/
theorem Kept.capped_of_lawful (kept : Kept maxConcurrent s) :
    Lawful maxConcurrent s ↔ s.Capped maxConcurrent := by
  refine ⟨Lawful.capped, fun capped => ⟨capped, kept.everyone, ?_, ?_⟩⟩
  · intro positive some
    have busy := kept.busy some
    have counted := kept.counter
    by_contra nobody
    rw [not_or, not_not] at nobody
    rw [nobody.1, List.length_nil] at busy
    omega
  · intro allEnded
    rw [kept.counter]
    -- one that has a place would be in two
    have noPlace (refresh : Nat) : s.acquired.count refresh + s.fetching.count refresh = 0 := by
      have places := kept.everyone refresh
      rw [Resolver.places] at places
      by_cases here : refresh ∈ s.arrived
      · have ended : 0 < s.ended.count refresh := List.count_pos_iff.mpr (allEnded refresh here)
        rw [if_pos here] at places
        omega
      · rw [if_neg here] at places
        omega
    have acquiredNone : s.acquired = [] := List.eq_nil_iff_forall_not_mem.mpr fun refresh inside => by
      have some := List.count_pos_iff.mpr inside
      have none := noPlace refresh
      omega
    have fetchingNone : s.fetching = [] := List.eq_nil_iff_forall_not_mem.mpr fun refresh inside => by
      have some := List.count_pos_iff.mpr inside
      have none := noPlace refresh
      omega
    rw [Resolver.inProgress, acquiredNone, fetchingNone]
    rfl

theorem Kept.capped_iff (kept : Kept maxConcurrent s) :
    s.Capped maxConcurrent ↔ s.running ≤ maxConcurrent := by
  rw [kept.counter, Resolver.Capped, Int.ofNat_le]

theorem release_running (s : Resolver) : (release s).running = s.running - 1 := by
  rw [release]
  split <;> rfl

/-- A newcomer is let in below the cap only. -/
theorem acquire_running_le (below : s.running ≤ maxConcurrent) :
    (acquire maxConcurrent s refresh).running ≤ maxConcurrent := by
  rw [acquire]
  split
  · case isTrue free => exact free
  · case isFalse full => exact below

/-- A step keeps the cap exactly when it resumes into a free place, if it resumes. -/
theorem capped_step_iff (kept : Kept maxConcurrent s) (capped : s.Capped maxConcurrent)
    (stepped : step maxConcurrent s action = some next) :
    next.Capped maxConcurrent ↔ FreePlace maxConcurrent s action := by
  rw [(kept.step stepped).capped_iff]
  have below := kept.capped_iff.mp capped
  cases action with
  | arrive refresh =>
    change _ ↔ True
    rw [iff_true]
    by_cases known : refresh ∈ s.arrived
    · simp [step, known] at stepped
    · rw [step, if_neg known] at stepped
      obtain rfl := Option.some.inj stepped
      exact acquire_running_le below
  | resume refresh =>
    by_cases woken : refresh ∈ s.woken
    · rw [step, if_pos woken] at stepped
      obtain rfl := Option.some.inj stepped
      exact Int.add_one_le_iff
    · simp [step, woken] at stepped
  | fetch refresh =>
    change _ ↔ True
    rw [iff_true]
    by_cases acquired : refresh ∈ s.acquired
    · rw [step, if_pos acquired] at stepped
      exact Option.some.inj stepped ▸ below
    · simp [step, acquired] at stepped
  | settle refresh =>
    change _ ↔ True
    rw [iff_true]
    by_cases fetching : refresh ∈ s.fetching
    · rw [step, if_pos fetching] at stepped
      obtain rfl := Option.some.inj stepped
      rw [release_running]
      dsimp only
      omega
    · simp [step, fetching] at stepped

end Steps

/-- The law of the cap holds in every state of a run exactly when each refresh that was woken
resumes into a free place. -/
theorem lawful_iff (maxConcurrent : Nat) (actions : List Action) :
    (∀ s ∈ (refreshes maxConcurrent).visited actions start, Lawful maxConcurrent s) ↔
      ∀ turn ∈ (refreshes maxConcurrent).taken actions start,
        FreePlace maxConcurrent turn.1 turn.2 := by
  have kept : ∀ s action next, Kept maxConcurrent s →
      (refreshes maxConcurrent).step s action = some next → Kept maxConcurrent next :=
    fun _ _ _ kept stepped => kept.step stepped
  have exactly : ∀ s action next, Kept maxConcurrent s → Lawful maxConcurrent s →
      (refreshes maxConcurrent).step s action = some next →
        (Lawful maxConcurrent next ↔ FreePlace maxConcurrent s action) :=
    fun _ _ _ kept lawful stepped =>
      (kept.step stepped).capped_of_lawful.trans (capped_step_iff kept lawful.capped stepped)
  have lawful_start : Lawful maxConcurrent start :=
    (kept_start maxConcurrent).capped_of_lawful.mpr (Nat.zero_le _)
  exact Automaton.visited_iff_taken kept exactly (kept_start maxConcurrent) lawful_start

/-- The third arrives between the wake-up of the second and its resumption. -/
def overtaking : List Action :=
  [.arrive 1, .fetch 1, .arrive 2, .settle 1, .arrive 3, .fetch 3, .resume 2, .fetch 2]

theorem not_lawful : ¬ ∀ (maxConcurrent : Nat) (actions : List Action),
    ∀ s ∈ (refreshes maxConcurrent).visited actions start, s.fetching.length ≤ maxConcurrent := by
  intro all
  have two : ⟨2, [], [], [], [3, 2], [1], [1, 2, 3]⟩ ∈ (refreshes 1).visited overtaking start := by
    decide
  exact absurd (all 1 overtaking _ two) (by decide)

end PrSearch.Authz.RefreshCap
