import PrSearch.Annotate.Passes

/-! # Turns and distances

A pass has the slot only when all before it have ended, so at most one has it; and when all before it
have ended, the chain of promises brings it its turn. Because only the pass that has the slot touches
the gate, no change request goes out before a limit that was told. Two calls of `markSent` are apart by
the distance. The requests themselves are when the token is at hand: else the request goes out later
than it was marked, and the next one may follow too soon.
-/
namespace PrSearch.Annotate

open GitHub

variable {stage : Stage}

theorem Stage.turned_of_holds (holds : stage.holds = true) : stage.turned = true := by
  simp [Stage.turned, holds]

/-- The pass relies on what the gate says. -/
def Stage.gated : Stage → Bool
  | .sleeping _ _ | .due | .marked _ => true
  | _ => false

theorem Stage.holds_of_gated (gated : stage.gated = true) : stage.holds = true := by
  cases stage <;> first | rfl | cases gated

variable {pass : Pass} {action : Action} {gate : WriteGate} {log : List Event}

namespace Passes

/-- The line of passes. -/
structure Queued (s : Passes) : Prop where
  settled_le : s.settled ≤ s.calls
  settled : ∀ i < s.settled, (s.pass i).stage = .ended
  turned : ∀ i, (s.pass i).stage.turned = true → i ≤ s.settled
  absent : ∀ i, s.calls ≤ i → (s.pass i).stage = .absent

/-- A limit that was told before a request is over when it goes out. -/
def PausedBefore : Event → Event → Prop
  | .pause until_, .patch at_ => until_ ≤ at_
  | _, _ => True

/-- Two requests are apart by the distance. -/
def SpacedBefore (spacingMs : Nat) : Event → Event → Prop
  | .patch earlier, .patch later => earlier + spacingMs ≤ later
  | _, _ => True

/-- What the pass at the gate knows of it. -/
structure Gated (s : Passes) : Prop where
  pauses : ∀ until_, .pause until_ ∈ s.log → until_ ≤ s.gate.nextAllowedAt
  sleeping : ∀ i until_ wait, (s.pass i).stage = .sleeping until_ wait →
    s.gate.nextAllowedAt ≤ until_
  due : ∀ i, (s.pass i).stage = .due → s.gate.nextAllowedAt ≤ s.now
  marked : ∀ i at_, (s.pass i).stage = .marked at_ → at_ ≤ s.now ∧
    at_ + s.gate.spacingMs ≤ s.gate.nextAllowedAt ∧ ∀ until_, .pause until_ ∈ s.log → until_ ≤ at_
  paused : s.log.Pairwise PausedBefore

/-- The requests are apart, from each other and from the one that is marked. -/
structure Spaced (s : Passes) : Prop where
  patches : ∀ at_, .patch at_ ∈ s.log → at_ + s.gate.spacingMs ≤ s.gate.nextAllowedAt
  marked : ∀ i mark, (s.pass i).stage = .marked mark →
    ∀ at_, .patch at_ ∈ s.log → at_ + s.gate.spacingMs ≤ mark
  spaced : s.log.Pairwise (SpacedBefore s.gate.spacingMs)

/-- The token is at hand: a request goes out when it is marked. -/
def TokenAtHand (s : Passes) : Action → Prop
  | .act i .send => (s.pass i).stage = .marked s.now
  | _ => True

/-- What a pass that has the slot does to itself, the gate and the log. -/
inductive Effect (s : Passes) (i : Nat) (action : PassAction) :
    Stage → WriteGate → List Event → Prop
  | ends : Effect s i action .ended s.gate s.log
  | between : Effect s i action .between s.gate s.log
  | sleeps (until_ wait : Int) (late : s.gate.nextAllowedAt ≤ until_) :
      Effect s i action (.sleeping until_ wait) s.gate s.log
  | due (free : s.gate.nextAllowedAt ≤ s.now ∨
      ∃ until_ wait, (s.pass i).stage = .sleeping until_ wait ∧ until_ ≤ s.now) :
      Effect s i action .due s.gate s.log
  | marks (due : (s.pass i).stage = .due) :
      Effect s i action (.marked s.now) (s.gate.markSent s.now) s.log
  | sends (sending : action = .send) (at_ : Int) (marked : (s.pass i).stage = .marked at_) :
      Effect s i action .sent s.gate (s.log ++ [.patch s.now])
  | limited (until_ : Int) :
      Effect s i action .ended (s.gate.pauseUntil until_) (s.log ++ [.pause until_])

section

variable {s next : Passes} {i j : Nat}

@[simp] theorem put_pass (pass : Pass) (j : Nat) :
    (s.put i pass).pass j = if j = i then pass else s.pass j := by
  simp [put, Function.update_apply]

/-- Only a pass that has the slot acts, and an action is one of the effects. -/
theorem act_cases {action : PassAction} (acted : s.act i action = some next) :
    (s.pass i).stage.holds = true ∧ ∃ pass gate log,
      next = { s.put i pass with gate := gate, log := log } ∧
        Effect s i action pass.stage gate log := by
  unfold act at acted
  split at acted
  next isRunner stage =>
    refine ⟨by rw [stage]; rfl, ?_⟩
    split at acted
    · cases acted
      exact ⟨_, _, _, rfl, .ends⟩
    · split at acted <;> cases acted
      · exact ⟨_, _, _, rfl, .ends⟩
      · exact ⟨_, _, _, rfl, .between⟩
  next stage =>
    refine ⟨by rw [stage]; rfl, ?_⟩
    dsimp only at acted
    split at acted
    · split at acted <;> cases acted
      · exact ⟨_, _, _, rfl, .sleeps _ _ WriteGate.nextAllowedAt_le_add_waitMs⟩
      · exact ⟨_, _, _, rfl, .ends⟩
    next noWait =>
      cases acted
      refine ⟨_, _, _, rfl, .due (.inl ?_)⟩
      have enough : s.gate.nextAllowedAt ≤ s.now + s.gate.waitMs s.now :=
        WriteGate.nextAllowedAt_le_add_waitMs
      omega
  next until_ wait stage =>
    refine ⟨by rw [stage]; rfl, ?_⟩
    split at acted
    · cases acted
    next late =>
      split at acted
      · cases acted
        exact ⟨_, _, _, rfl, .ends⟩
      · split at acted <;> cases acted
        · exact ⟨_, _, _, rfl, .between⟩
        · exact ⟨_, _, _, rfl, .due (.inr ⟨until_, wait, stage, not_lt.mp late⟩)⟩
  next stage =>
    refine ⟨by rw [stage]; rfl, ?_⟩
    split at acted <;> cases acted
    · exact ⟨_, _, _, rfl, .ends⟩
    · exact ⟨_, _, _, rfl, .marks stage⟩
  next at_ stage =>
    refine ⟨by rw [stage]; rfl, ?_⟩
    split at acted <;> cases acted
    exact ⟨_, _, _, rfl, .sends rfl at_ stage⟩
  all_goals
    first
      | cases acted
        next stage =>
          refine ⟨by rw [stage]; rfl, ?_⟩
          first
            | exact ⟨_, _, _, rfl, .between⟩
            | exact ⟨_, _, _, rfl, .limited _⟩
            | exact ⟨_, _, _, rfl, .ends⟩
      | cases acted

/-! ### The line -/

theorem queued_start (gate : WriteGate) (now : Int) : Queued (start gate now) where
  settled_le := le_rfl
  settled := nofun
  turned := fun _ turned => by cases turned
  absent := fun _ _ => rfl

/-- The passes before one whose turn has come have ended. -/
theorem Queued.ended_before (queued : Queued s) (turned : (s.pass j).stage.turned = true)
    (before : i < j) : (s.pass i).stage = .ended :=
  queued.settled i (before.trans_le (queued.turned j turned))

/-- At most one pass has the slot. -/
theorem Queued.alone (queued : Queued s) (first : (s.pass i).stage.holds = true)
    (second : (s.pass j).stage.holds = true) : i = j := by
  rcases lt_trichotomy i j with before | same | after
  · have ended := queued.ended_before (Stage.turned_of_holds second) before
    rw [ended] at first
    cases first
  · exact same
  · have ended := queued.ended_before (Stage.turned_of_holds first) after
    rw [ended] at second
    cases second

theorem Queued.lt_calls (queued : Queued s) (present : (s.pass i).stage ≠ .absent) : i < s.calls := by
  by_contra beyond
  exact present (queued.absent i (not_lt.mp beyond))

/-- A pass that has been called changes, and not before its turn to one whose turn has come. -/
theorem Queued.put (queued : Queued s) (called : i < s.calls)
    (ended : (s.pass i).stage = .ended → pass.stage = .ended)
    (turned : pass.stage.turned = true → i ≤ s.settled) :
    Queued (s.put i pass) where
  settled_le := queued.settled_le
  settled := by
    intro j before
    rw [put_pass]
    split
    next same => exact ended (same ▸ queued.settled j before)
    next => exact queued.settled j before
  turned := by
    intro j its
    rw [put_pass] at its
    split at its
    next same => exact same ▸ turned its
    next => exact queued.turned j its
  absent := by
    intro j beyond
    rw [put_pass, if_neg (called.trans_le beyond).ne']
    exact queued.absent j beyond

/-- The line does not depend on the time, the gate and the log. -/
theorem Queued.congr (queued : Queued s) (now : Int) (gate : WriteGate) (log : List Event) :
    Queued { s with now := now, gate := gate, log := log } :=
  ⟨queued.settled_le, queued.settled, queued.turned, queued.absent⟩

theorem Queued.onAbort (queued : Queued s) (called : i < s.calls) : Queued (s.onAbort i) := by
  refine queued.put called (fun ended => by simp [ended]) fun turned => queued.turned i ?_
  dsimp only at turned
  split at turned
  · cases turned
  · exact turned

theorem Queued.step (queued : Queued s) (stepped : s.step action = some next) : Queued next := by
  cases action <;> simp only [Passes.step] at stepped
  case tick ms =>
    cases stepped
    exact queued.congr _ _ _
  case arrive budgetMs external =>
    cases stepped
    have fresh := queued.absent s.calls le_rfl
    constructor
    · exact queued.settled_le.trans (Nat.le_succ _)
    · intro j before
      have earlier : j ≠ s.calls := (before.trans_le queued.settled_le).ne
      simpa [earlier] using queued.settled j before
    · intro j turned
      by_cases same : j = s.calls
      · -- a pass that arrives has no turn yet
        simp only [put_pass, same, if_true] at turned
        split at turned <;> cases turned
      · simp only [put_pass, same, if_false] at turned
        exact queued.turned j turned
    · intro j beyond
      have later : j ≠ s.calls := (Nat.lt_of_succ_le beyond).ne'
      simpa [later] using queued.absent j (Nat.le_of_succ_le beyond)
  case settle =>
    split at stepped
    next can =>
      cases stepped
      refine ⟨Nat.succ_le_of_lt can.1, ?_, ?_, queued.absent⟩
      · intro j before
        rcases Nat.lt_succ_iff_lt_or_eq.mp before with earlier | rfl
        · exact queued.settled j earlier
        · exact can.2
      · exact fun j turned => (queued.turned j turned).trans (Nat.le_succ _)
    next => cases stepped
  case turn i =>
    split at stepped
    next can =>
      cases stepped
      exact queued.put (queued.lt_calls (by rw [can.1]; nofun)) (fun ended => by
        rw [can.1] at ended
        cases ended) fun _ => can.2
    next => cases stepped
  case abort i =>
    split at stepped
    next can =>
      cases stepped
      exact queued.onAbort can.1
    next => cases stepped
  case timer i =>
    split at stepped
    next can =>
      cases stepped
      exact queued.onAbort can.1
    next => cases stepped
  case resume i =>
    split at stepped
    next gotTurn stage =>
      have called := queued.lt_calls (i := i) (by rw [stage]; nofun)
      have running : (s.pass i).stage ≠ .ended := by rw [stage]; nofun
      split at stepped
      · cases stepped
        exact queued.put called (fun _ => rfl) nofun
      next won =>
        cases stepped
        refine queued.put called (fun ended => absurd ended running) fun _ => queued.turned i ?_
        have got : gotTurn = true := by
          cases gotTurn
          · exact absurd rfl won
          · rfl
        rw [stage, got]
        rfl
    next => cases stepped
  case act i action =>
    obtain ⟨holds, pass, gate, log, rfl, -⟩ := act_cases stepped
    have turned := queued.turned i (Stage.turned_of_holds holds)
    refine (queued.put (queued.lt_calls ?_) (fun ended => ?_) fun _ => turned).congr _ _ _
    · intro absent
      rw [absent] at holds
      cases holds
    · rw [ended] at holds
      cases holds

/-! ### The gate -/

/-- The steps that do not touch the gate: time may pass, and no pass comes to rely on the gate. -/
structure Quiet (s next : Passes) : Prop where
  gate : next.gate = s.gate
  log : next.log = s.log
  now : s.now ≤ next.now
  stage : ∀ i, (next.pass i).stage.gated = true → (s.pass i).stage = (next.pass i).stage

theorem Quiet.put (out : pass.stage.gated = true → (s.pass i).stage = pass.stage) :
    Quiet s (s.put i pass) where
  gate := rfl
  log := rfl
  now := le_rfl
  stage := by
    intro j gated
    rw [put_pass] at gated ⊢
    split at gated
    next same =>
      rw [if_pos same, same]
      exact out gated
    next other => rw [if_neg other]

theorem Gated.quiet (gated : Gated s) (quiet : Quiet s next) : Gated next where
  pauses := by simpa [quiet.gate, quiet.log] using gated.pauses
  sleeping := by
    intro i until_ wait stage
    rw [quiet.gate]
    exact gated.sleeping i until_ wait ((quiet.stage i (by rw [stage]; rfl)).trans stage)
  due := by
    intro i stage
    rw [quiet.gate]
    exact (gated.due i ((quiet.stage i (by rw [stage]; rfl)).trans stage)).trans quiet.now
  marked := by
    intro i at_ stage
    have before := gated.marked i at_ ((quiet.stage i (by rw [stage]; rfl)).trans stage)
    rw [quiet.gate, quiet.log]
    exact ⟨before.1.trans quiet.now, before.2⟩
  paused := by
    rw [quiet.log]
    exact gated.paused

theorem Spaced.quiet (spaced : Spaced s) (quiet : Quiet s next) : Spaced next where
  patches := by simpa [quiet.gate, quiet.log] using spaced.patches
  marked := by
    intro i mark stage
    rw [quiet.gate, quiet.log]
    exact spaced.marked i mark ((quiet.stage i (by rw [stage]; rfl)).trans stage)
  spaced := by
    rw [quiet.gate, quiet.log]
    exact spaced.spaced

theorem quiet_onAbort (i : Nat) : Quiet s (s.onAbort i) :=
  Quiet.put fun gated => by
    dsimp only at gated ⊢
    split at gated
    · cases gated
    next other => rw [if_neg other]

/-- What is no action of the pass that has the slot does not touch the gate. -/
theorem quiet_of_step (other : ∀ i what, action ≠ .act i what) (stepped : s.step action = some next) :
    Quiet s next := by
  cases action <;> simp only [Passes.step] at stepped
  case tick ms =>
    cases stepped
    exact ⟨rfl, rfl, Int.le_add_of_nonneg_right (Int.natCast_nonneg ms), fun _ _ => rfl⟩
  case arrive budgetMs external =>
    cases stepped
    refine ⟨rfl, rfl, le_rfl, fun j gated => ?_⟩
    dsimp only at gated ⊢
    rw [put_pass] at gated ⊢
    split at gated
    · dsimp only at gated
      split at gated <;> cases gated
    next other => rw [if_neg other]
  case settle =>
    split at stepped <;> cases stepped
    exact ⟨rfl, rfl, le_rfl, fun _ _ => rfl⟩
  case turn i =>
    split at stepped <;> cases stepped
    exact Quiet.put fun gated => by cases gated
  case abort i =>
    split at stepped <;> cases stepped
    exact quiet_onAbort i
  case timer i =>
    split at stepped <;> cases stepped
    exact quiet_onAbort i
  case resume i =>
    split at stepped
    · split at stepped <;> cases stepped <;> exact Quiet.put fun gated => by cases gated
    · cases stepped
  case act i what => exact absurd rfl (other i what)

/-- When a pass acts that has the slot, no other one relies on the gate. -/
theorem Queued.others (queued : Queued s) (holds : (s.pass i).stage.holds = true) {j : Nat}
    (its : (({ s.put i pass with gate := gate, log := log } : Passes).pass j).stage = stage)
    (gated : stage.gated = true) : j = i ∧ pass.stage = stage := by
  change ((s.put i pass).pass j).stage = stage at its
  rw [put_pass] at its
  split at its
  next same => exact ⟨same, its⟩
  next other =>
    rw [← its] at gated
    exact absurd (queued.alone (Stage.holds_of_gated gated) holds) other

/-- When a pass acts that has the slot, it is the only one to look at. -/
theorem Gated.of_holder (queued : Queued s) (holds : (s.pass i).stage.holds = true)
    (pauses : ∀ until_, .pause until_ ∈ log → until_ ≤ gate.nextAllowedAt)
    (sleeping : ∀ until_ wait, pass.stage = .sleeping until_ wait → gate.nextAllowedAt ≤ until_)
    (due : pass.stage = .due → gate.nextAllowedAt ≤ s.now)
    (marked : ∀ at_, pass.stage = .marked at_ → at_ ≤ s.now ∧
      at_ + gate.spacingMs ≤ gate.nextAllowedAt ∧ ∀ until_, .pause until_ ∈ log → until_ ≤ at_)
    (paused : log.Pairwise PausedBefore) :
    Gated { s.put i pass with gate := gate, log := log } where
  pauses := pauses
  sleeping := fun _ until_ wait its => sleeping until_ wait (queued.others holds its rfl).2
  due := fun _ its => due (queued.others holds its rfl).2
  marked := fun _ at_ its => marked at_ (queued.others holds its rfl).2
  paused := paused

theorem Gated.effect (gated : Gated s) (queued : Queued s) (holds : (s.pass i).stage.holds = true)
    {action : PassAction} (effect : Effect s i action pass.stage gate log) :
    Gated { s.put i pass with gate := gate, log := log } := by
  generalize reached : pass.stage = stage at effect
  cases effect with
  | ends | between =>
    exact .of_holder queued holds gated.pauses (by simp [reached]) (by simp [reached])
      (by simp [reached]) gated.paused
  | sleeps until_ wait late =>
    refine .of_holder queued holds gated.pauses ?_ (by simp [reached]) (by simp [reached])
      gated.paused
    intro until' wait' same
    rw [reached] at same
    cases same
    exact late
  | due free =>
    refine .of_holder queued holds gated.pauses (by simp [reached]) (fun _ => ?_) (by simp [reached])
      gated.paused
    rcases free with now | ⟨until_, wait, stage, past⟩
    · exact now
    · exact (gated.sleeping i until_ wait stage).trans past
  | marks due =>
    -- all limits that were told are over
    have free := gated.due i due
    refine .of_holder queued holds ?_ (by simp [reached]) (by simp [reached]) ?_ gated.paused
    · exact fun until_ told => (gated.pauses until_ told).trans WriteGate.nextAllowedAt_le_markSent
    · intro at_ same
      rw [reached] at same
      cases same
      exact ⟨le_rfl, WriteGate.add_spacing_le_markSent,
        fun until_ told => (gated.pauses until_ told).trans free⟩
  | sends sending at_ marked =>
    obtain ⟨passed, -, past⟩ := gated.marked i at_ marked
    refine .of_holder queued holds ?_ (by simp [reached]) (by simp [reached]) (by simp [reached]) ?_
    · intro until_ told
      exact gated.pauses until_ (by simpa using told)
    · rw [List.pairwise_append]
      refine ⟨gated.paused, List.pairwise_singleton _ _, ?_⟩
      intro earlier before later last
      rw [List.mem_singleton.mp last]
      cases earlier with
      | patch => trivial
      | pause until_ => exact (past until_ before).trans passed
  | limited until_ =>
    refine .of_holder queued holds ?_ (by simp [reached]) (by simp [reached]) (by simp [reached]) ?_
    · intro until' told
      rcases List.mem_append.mp told with before | last
      · exact (gated.pauses until' before).trans WriteGate.nextAllowedAt_le_pauseUntil
      · cases List.mem_singleton.mp last
        exact WriteGate.le_pauseUntil
    · rw [List.pairwise_append]
      refine ⟨gated.paused, List.pairwise_singleton _ _, ?_⟩
      intro earlier _ later last
      rw [List.mem_singleton.mp last]
      cases earlier <;> trivial

theorem Gated.step (gated : Gated s) (queued : Queued s) (stepped : s.step action = some next) :
    Gated next := by
  cases action with
  | act i what =>
    obtain ⟨holds, pass, gate, log, rfl, effect⟩ := act_cases stepped
    exact gated.effect queued holds effect
  | _ => exact gated.quiet (quiet_of_step (by nofun) stepped)

/-- The distance of the gate is never changed. -/
theorem spacingMs_step (stepped : s.step action = some next) :
    next.gate.spacingMs = s.gate.spacingMs := by
  cases action with
  | act i what =>
    obtain ⟨-, pass, gate, log, rfl, effect⟩ := act_cases stepped
    generalize pass.stage = stage at effect
    cases effect <;> rfl
  | _ => rw [(quiet_of_step (by nofun) stepped).gate]

theorem Spaced.of_holder (queued : Queued s) (holds : (s.pass i).stage.holds = true)
    (patches : ∀ at_, .patch at_ ∈ log → at_ + gate.spacingMs ≤ gate.nextAllowedAt)
    (marked : ∀ mark, pass.stage = .marked mark →
      ∀ at_, .patch at_ ∈ log → at_ + gate.spacingMs ≤ mark)
    (spaced : log.Pairwise (SpacedBefore gate.spacingMs)) :
    Spaced { s.put i pass with gate := gate, log := log } where
  patches := patches
  marked := fun _ mark its => marked mark (queued.others holds its rfl).2
  spaced := spaced

theorem Spaced.step (spaced : Spaced s) (gated : Gated s) (queued : Queued s)
    (atHand : TokenAtHand s action) (stepped : s.step action = some next) : Spaced next := by
  cases action with
  | act i what =>
    obtain ⟨holds, pass, gate, log, rfl, effect⟩ := act_cases stepped
    generalize reached : pass.stage = stage at effect
    cases effect with
    | ends | between | sleeps | due =>
      exact .of_holder queued holds spaced.patches (by simp [reached]) spaced.spaced
    | marks due =>
      have free := gated.due i due
      refine .of_holder queued holds ?_ ?_ spaced.spaced
      · exact fun at_ gone => (spaced.patches at_ gone).trans WriteGate.nextAllowedAt_le_markSent
      · intro mark same
        rw [reached] at same
        cases same
        exact fun at_ gone => (spaced.patches at_ gone).trans free
    | sends sending at_ marked =>
      -- the request goes out at the time of its mark
      subst sending
      have now : (s.pass i).stage = .marked s.now := atHand
      obtain ⟨-, later, -⟩ := gated.marked i s.now now
      refine .of_holder queued holds ?_ (by simp [reached]) ?_
      · intro at' gone
        rcases List.mem_append.mp gone with before | last
        · exact spaced.patches at' before
        · cases List.mem_singleton.mp last
          exact later
      · rw [List.pairwise_append]
        refine ⟨spaced.spaced, List.pairwise_singleton _ _, ?_⟩
        intro earlier before later last
        rw [List.mem_singleton.mp last]
        cases earlier with
        | patch at' => exact spaced.marked i s.now now at' before
        | pause => trivial
    | limited until_ =>
      refine .of_holder queued holds ?_ (by simp [reached]) ?_
      · intro at_ gone
        exact (spaced.patches at_ (by simpa using gone)).trans
          WriteGate.nextAllowedAt_le_pauseUntil
      · rw [List.pairwise_append]
        refine ⟨spaced.spaced, List.pairwise_singleton _ _, ?_⟩
        intro earlier _ later last
        rw [List.mem_singleton.mp last]
        cases earlier <;> trivial
  | _ => exact spaced.quiet (quiet_of_step (by nofun) stepped)

/-! ### Whole runs -/

/-- When all passes before a waiting one have ended, the chain of promises comes to its turn without
anybody else. -/
theorem Queued.comes (queued : Queued s) (waiting : (s.pass j).stage = .waiting)
    (ended : ∀ i < j, (s.pass i).stage = .ended) :
    ∃ state ∈ automaton.visited (List.replicate (j - s.settled) .settle) s,
      (automaton.step state (.turn j)).isSome = true := by
  have called : j < s.calls := queued.lt_calls (by rw [waiting]; nofun)
  generalize left : j - s.settled = steps
  induction steps generalizing s with
  | zero =>
    refine ⟨s, Automaton.mem_visited_self _ _ _, ?_⟩
    have reached : j ≤ s.settled := by omega
    simp [automaton, Passes.step, waiting, reached]
  | succ steps ih =>
    have before : s.settled < j := by omega
    have settles : s.step .settle = some { s with settled := s.settled + 1 } :=
      if_pos ⟨before.trans called, ended s.settled before⟩
    obtain ⟨state, visits, turns⟩ := ih (queued.step settles) waiting ended called
      (by dsimp only; omega)
    exact ⟨state, Automaton.mem_visited_cons settles visits, turns⟩

end

/-- What holds of the passes and of the gate. -/
structure Orderly (s : Passes) : Prop where
  alone : ∀ i j, (s.pass i).stage.holds = true → (s.pass j).stage.holds = true → i = j
  inTurn : ∀ i j, i < j → (s.pass j).stage.turned = true → (s.pass i).stage = .ended
  comes : ∀ j, (s.pass j).stage = .waiting → (∀ i < j, (s.pass i).stage = .ended) →
    ∃ state ∈ automaton.visited (List.replicate (j - s.settled) .settle) s,
      (automaton.step state (.turn j)).isSome = true
  paused : s.log.Pairwise PausedBefore

theorem Queued.orderly {s : Passes} (queued : Queued s) (gated : Gated s) : Orderly s where
  alone := fun _ _ => queued.alone
  inTurn := fun _ _ before turned => queued.ended_before turned before
  comes := fun _ => queued.comes
  paused := gated.paused

theorem gated_start (gate : WriteGate) (now : Int) : Gated (start gate now) where
  pauses := nofun
  sleeping := fun _ _ _ stage => by cases stage
  due := fun _ stage => by cases stage
  marked := fun _ _ stage => by cases stage
  paused := List.Pairwise.nil

theorem spaced_start (gate : WriteGate) (now : Int) : Spaced (start gate now) where
  patches := nofun
  marked := fun _ _ stage => by cases stage
  spaced := List.Pairwise.nil

/-- In every run the passes exclude each other, have their turns in the order of their calls, and send
nothing before a limit is over; when the token of each request is at hand, the requests are apart. -/
theorem passes_run (gate : WriteGate) (now : Int) (actions : List Action) :
    (∀ state ∈ automaton.visited actions (start gate now), Orderly state) ∧
    ((∀ taken ∈ automaton.taken actions (start gate now), TokenAtHand taken.1 taken.2) →
      ∀ state ∈ automaton.visited actions (start gate now),
        Orderly state ∧ state.log.Pairwise (SpacedBefore gate.spacingMs)) := by
  have kept : ∀ state ∈ automaton.visited actions (start gate now), Queued state ∧ Gated state :=
    Automaton.visited_of_step
      (fun _ _ _ held stepped => ⟨held.1.step stepped, held.2.step held.1 stepped⟩)
      ⟨queued_start gate now, gated_start gate now⟩
  have orderly := fun state reached => (kept state reached).1.orderly (kept state reached).2
  refine ⟨orderly, fun atHand state reached => ⟨orderly state reached, ?_⟩⟩
  have spaced : ∀ state ∈ automaton.visited actions (start gate now),
      (Queued state ∧ Gated state) ∧ Spaced state ∧ state.gate.spacingMs = gate.spacingMs := by
    refine Automaton.visited_of_taken (fun s action next held met stepped => ?_)
      ⟨⟨queued_start gate now, gated_start gate now⟩, spaced_start gate now, rfl⟩ atHand
    obtain ⟨⟨queued, gated⟩, spaced, same⟩ := held
    exact ⟨⟨queued.step stepped, gated.step queued stepped⟩, spaced.step gated queued met stepped,
      (spacingMs_step stepped).trans same⟩
  obtain ⟨-, apart, same⟩ := spaced state reached
  rw [← same]
  exact apart.spaced

/-- The token of the first request takes almost as long as the distance: the second request follows it
too soon. -/
theorem patches_too_close :
    ¬ ∀ (gate : WriteGate) (now : Int) (actions : List Action),
      ∀ state ∈ automaton.visited actions (start gate now),
        state.log.Pairwise (SpacedBefore gate.spacingMs) := by
  intro claimed
  have logs : [.patch 5900, .patch 6000] ∈ (automaton.visited [.arrive none none, .turn 0, .resume 0,
      .act 0 (.lock true), .act 0 .attempt, .act 0 .markSent, .tick 900, .act 0 .send, .act 0 .proceed,
      .act 0 .attempt, .tick 100, .act 0 .wake, .act 0 .markSent, .act 0 .send]
      (start (.start 1000 false 5000) 5000)).map Passes.log := by decide
  obtain ⟨state, reached, same⟩ := List.mem_map.mp logs
  have spaced := claimed _ _ _ state reached
  rw [same, List.pairwise_pair] at spaced
  have apart : (5900 : Int) + 1000 ≤ 6000 := spaced
  omega

end Passes

end PrSearch.Annotate
