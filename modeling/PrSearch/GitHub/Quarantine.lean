import Mathlib.Data.Int.Order.Basic
import Mathlib.Data.Rat.Defs
import Mathlib.Logic.Function.Basic
import PrSearch.Lib.Automaton

/-! # Quarantine of a token

The answers to the requests of an organisation tell when its token may be used again. One time and one
reason stand for both kinds of limits. A request asks for the time when it begins, and goes out after it
has waited for its token and for a slot: what the answers of others say meanwhile it does not hear.
-/
namespace PrSearch.GitHub

/-- The `x-ratelimit-*` headers of an answer. -/
structure RateLimitSnapshot where
  limit : Rat
  remaining : Rat
  resetAt : Int
  deriving DecidableEq, Repr

inductive QuarantineReason
  | primaryExhausted
  | secondaryLimit
  deriving DecidableEq, Repr

structure TokenRateLimitState where
  snapshot : Option RateLimitSnapshot
  quarantinedUntil : Option Int
  quarantineReason : Option QuarantineReason
  deriving DecidableEq, Repr

/-- `INITIAL_STATE` -/
def TokenRateLimitState.initial : TokenRateLimitState := ⟨none, none, none⟩

/-- Less is left than the threshold says. -/
def RateLimitSnapshot.low (snapshot : RateLimitSnapshot) (threshold : Rat) : Bool :=
  0 < snapshot.limit ∧ snapshot.remaining / snapshot.limit < threshold

def applyResponse (state : TokenRateLimitState) (snapshot : Option RateLimitSnapshot)
    (threshold : Rat) : TokenRateLimitState :=
  match snapshot with
  | none => state
  | some snapshot =>
      if snapshot.low threshold then ⟨some snapshot, some snapshot.resetAt, some .primaryExhausted⟩
      else if state.quarantineReason = some .secondaryLimit then { state with snapshot := some snapshot }
      else ⟨some snapshot, none, none⟩

def applySecondaryLimit (state : TokenRateLimitState) (retryAt : Int) : TokenRateLimitState :=
  { state with
    quarantinedUntil := some (match state.quarantinedUntil with
      | some current => if retryAt < current then current else retryAt
      | none => retryAt)
    quarantineReason := some .secondaryLimit }

/-- `availableAt`: when the quarantine ends that is on. -/
def availableAt (state : TokenRateLimitState) (now : Int) : Option Int :=
  state.quarantinedUntil.filter (now < ·)

inductive RequestStage
  | absent
  /-- It waits for its token. -/
  | leasing
  /-- It waits for a slot. -/
  | queued
  | sent
  | ended
  deriving DecidableEq, Repr

/-- A request that went out, and what had been observed before. -/
structure Sending where
  at_ : Int
  retries : List Int
  last : Option RateLimitSnapshot
  deriving DecidableEq, Repr

/-- When the request went out, no limit was on that had been observed. -/
structure Sending.Free (threshold : Rat) (sending : Sending) : Prop where
  retries : ∀ retryAt ∈ sending.retries, retryAt ≤ sending.at_
  last : ∀ snapshot, sending.last = some snapshot → snapshot.low threshold = true →
    snapshot.resetAt ≤ sending.at_

/-- The requests of an organisation, and the state of its token. -/
structure Transport where
  now : Int
  token : TokenRateLimitState
  request : Nat → RequestStage
  calls : Nat
  /-- The retry times of the answers 429. -/
  retries : List Int
  /-- The headers of the answer observed last. -/
  last : Option RateLimitSnapshot
  sendings : List Sending

/-- An answer: its headers, and for a 429 the time that `retry-after` gives. -/
structure Answer where
  snapshot : Option RateLimitSnapshot
  tooMany : Bool
  retryAfter : Option Int
  deriving DecidableEq, Repr

/-- A 429 without `retry-after` is taken for a minute. -/
def Answer.retryAt (answer : Answer) (now : Int) : Int := answer.retryAfter.getD (now + 60000)

inductive TransportAction
  | tick (ms : Nat)
  | arrive
  | leased (i : Nat)
  | send (i : Nat)
  | answered (i : Nat) (answer : Answer)
  /-- The request fails or is aborted. -/
  | fail (i : Nat)
  deriving DecidableEq, Repr

variable {time : Int} {action : TransportAction}

variable {state : TokenRateLimitState}

namespace Transport

def start (now : Int) : Transport := ⟨now, .initial, fun _ => .absent, 0, [], none, []⟩

def moveTo (s : Transport) (i : Nat) (stage : RequestStage) : Transport :=
  { s with request := Function.update s.request i stage }

/-- `#send` after the answer has come. -/
def observe (threshold : Rat) (s : Transport) (answer : Answer) : Transport :=
  let token := applyResponse s.token answer.snapshot threshold
  if answer.tooMany then
    { s with
      token := applySecondaryLimit token (answer.retryAt s.now)
      retries := s.retries ++ [answer.retryAt s.now]
      last := answer.snapshot }
  else { s with token := token, last := answer.snapshot }

def step (threshold : Rat) (s : Transport) : TransportAction → Option Transport
  | .tick ms => some { s with now := s.now + ms }
  | .arrive =>
      some { s.moveTo s.calls (if (availableAt s.token s.now).isSome then .ended else .leasing) with
        calls := s.calls + 1 }
  | .leased i => if s.request i = .leasing then some (s.moveTo i .queued) else none
  | .send i =>
      if s.request i = .queued then
        some { s.moveTo i .sent with sendings := s.sendings ++ [⟨s.now, s.retries, s.last⟩] }
      else none
  | .answered i answer =>
      if s.request i = .sent then some ((s.moveTo i .ended).observe threshold answer) else none
  | .fail i =>
      if s.request i ≠ .absent ∧ s.request i ≠ .ended then some (s.moveTo i .ended) else none

/-- The transport with a threshold, and every order of what its requests do. -/
def automaton (threshold : Rat) : Automaton Transport TransportAction := ⟨step threshold⟩

/-! ### What the quarantine is for -/

/-- The quarantine lasts until a time, or that time is over. -/
def LastsUntil (s : Transport) (time : Int) : Prop :=
  s.now < time → ∃ until_, s.token.quarantinedUntil = some until_ ∧ time ≤ until_

/-- No observation has shortened the wait that a 429 imposed. -/
def WaitsKept (s : Transport) : Prop := ∀ retryAt ∈ s.retries, s.LastsUntil retryAt

/-- An answer does not end the wait that an earlier 429 imposed: what remains of it is within the new
quarantine, or a healthy answer finds that the reason is a secondary limit. -/
def LeavesWaits (threshold : Rat) (s : Transport) (answer : Answer) : Prop :=
  ∀ retryAt ∈ s.retries, s.now < retryAt →
    (answer.tooMany = true ∧ retryAt ≤ answer.retryAt s.now) ∨
      match answer.snapshot with
      | none => True
      | some snapshot =>
          if snapshot.low threshold then retryAt ≤ snapshot.resetAt
          else s.token.quarantineReason = some .secondaryLimit

/-- The condition on the answers. -/
def AnswersLeaveWaits (threshold : Rat) (s : Transport) : TransportAction → Prop
  | .answered _ answer => s.LeavesWaits threshold answer
  | _ => True

/-- The condition on the requests: the quarantine is over when they go out. -/
def SendsAvailable (s : Transport) : TransportAction → Prop
  | .send _ => availableAt s.token s.now = none
  | _ => True

section

variable {threshold : Rat} {s next : Transport}

/-- A 429 is waited for, and nothing that was waited for before is cut. -/
theorem applySecondaryLimit_until {retryAt : Int} :
    (∃ until_, (applySecondaryLimit state retryAt).quarantinedUntil = some until_ ∧ time ≤ until_) ↔
      time ≤ retryAt ∨ ∃ until_, state.quarantinedUntil = some until_ ∧ time ≤ until_ := by
  unfold applySecondaryLimit
  dsimp only
  cases state.quarantinedUntil with
  | none => simp
  | some current =>
    simp only [Option.some.injEq, exists_eq_left']
    split <;> omega

/-- How long the quarantine lasts after an answer that is no 429. -/
theorem applyResponse_until {snapshot : Option RateLimitSnapshot}
    (lasted : ∃ until_, state.quarantinedUntil = some until_ ∧ time ≤ until_) :
    (∃ until_, (applyResponse state snapshot threshold).quarantinedUntil = some until_ ∧
        time ≤ until_) ↔
      match snapshot with
      | none => True
      | some snapshot =>
          if snapshot.low threshold then time ≤ snapshot.resetAt
          else state.quarantineReason = some .secondaryLimit := by
  unfold applyResponse
  cases snapshot with
  | none => simpa using lasted
  | some snapshot =>
    dsimp only
    split
    · simp
    · split
      next secondary => simpa [secondary] using lasted
      next other => simp [other]

/-- An answer keeps the waits exactly when it leaves them. -/
theorem waitsKept_observe (kept : s.WaitsKept) (answer : Answer) :
    (s.observe threshold answer).WaitsKept ↔ s.LeavesWaits threshold answer := by
  have lasted : ∀ retryAt ∈ s.retries, s.now < retryAt →
      ∃ until_, s.token.quarantinedUntil = some until_ ∧ retryAt ≤ until_ := kept
  unfold observe
  cases tooMany : answer.tooMany with
  | false =>
    unfold WaitsKept LastsUntil LeavesWaits
    simp only [tooMany, Bool.false_eq_true, if_false, false_and, false_or]
    constructor
    · exact fun after retryAt told ahead =>
        (applyResponse_until (lasted retryAt told ahead)).mp (after retryAt told ahead)
    · exact fun leaves retryAt told ahead =>
        (applyResponse_until (lasted retryAt told ahead)).mpr (leaves retryAt told ahead)
  | true =>
    unfold WaitsKept LastsUntil LeavesWaits
    simp only [tooMany, if_true, true_and]
    constructor
    · intro after retryAt told ahead
      rcases applySecondaryLimit_until.mp (after retryAt (List.mem_append_left _ told) ahead) with
        within | rest
      · exact Or.inl within
      · exact Or.inr ((applyResponse_until (lasted retryAt told ahead)).mp rest)
    · intro leaves retryAt told ahead
      rw [applySecondaryLimit_until]
      rcases List.mem_append.mp told with before | last
      · rcases leaves retryAt before ahead with within | rest
        · exact Or.inl within
        · exact Or.inr ((applyResponse_until (lasted retryAt before ahead)).mpr rest)
      · exact Or.inl (List.mem_singleton.mp last).le

/-! ### Whole runs -/

/-- The answer observed last is still heard. -/
def HearsLast (threshold : Rat) (s : Transport) : Prop :=
  ∀ snapshot, s.last = some snapshot → snapshot.low threshold = true → s.LastsUntil snapshot.resetAt

theorem hearsLast_observe (answer : Answer) : (s.observe threshold answer).HearsLast threshold := by
  have response : ∀ snapshot, answer.snapshot = some snapshot → snapshot.low threshold = true →
      ∃ until_, (applyResponse s.token answer.snapshot threshold).quarantinedUntil = some until_ ∧
        snapshot.resetAt ≤ until_ := by
    intro snapshot same low
    rw [same]
    simp [applyResponse, low]
  intro snapshot same low _
  unfold observe at same ⊢
  cases tooMany : answer.tooMany with
  | false =>
    simp only [tooMany, Bool.false_eq_true, if_false] at same ⊢
    exact response snapshot same low
  | true =>
    simp only [tooMany, if_true] at same ⊢
    exact applySecondaryLimit_until.mpr (Or.inr (response snapshot same low))

/-- What was waited for is waited for later on, as long as nothing is observed. -/
theorem LastsUntil.mono (lasts : s.LastsUntil time) (token : next.token = s.token)
    (now : s.now ≤ next.now) : next.LastsUntil time := by
  intro ahead
  rw [token]
  exact lasts (now.trans_lt ahead)

/-- The steps that observe nothing. -/
theorem unobserved (other : ∀ i answer, action ≠ .answered i answer)
    (stepped : s.step threshold action = some next) :
    next.token = s.token ∧ next.retries = s.retries ∧ next.last = s.last ∧ s.now ≤ next.now := by
  cases action with
  | tick ms =>
    cases stepped
    exact ⟨rfl, rfl, rfl, Int.le_add_of_nonneg_right (Int.natCast_nonneg ms)⟩
  | arrive =>
    cases stepped
    exact ⟨rfl, rfl, rfl, le_rfl⟩
  | answered i answer => exact absurd rfl (other i answer)
  | leased i | send i | fail i =>
    simp only [step] at stepped
    split at stepped <;> cases stepped
    exact ⟨rfl, rfl, rfl, le_rfl⟩

/-- A step keeps the waits exactly when its answer leaves them. -/
theorem waitsKept_step (kept : s.WaitsKept) (stepped : s.step threshold action = some next) :
    next.WaitsKept ↔ s.AnswersLeaveWaits threshold action := by
  cases action with
  | answered i answer =>
    simp only [step] at stepped
    split at stepped <;> cases stepped
    exact waitsKept_observe (s := s.moveTo i .ended) kept answer
  | _ =>
    obtain ⟨token, retries, -, now⟩ := unobserved (by nofun) stepped
    refine ⟨fun _ => trivial, fun _ retryAt told => ?_⟩
    rw [retries] at told
    exact (kept retryAt told).mono token now

theorem hearsLast_step (hears : s.HearsLast threshold)
    (stepped : s.step threshold action = some next) : next.HearsLast threshold := by
  cases action with
  | answered i answer =>
    simp only [step] at stepped
    split at stepped <;> cases stepped
    exact hearsLast_observe answer
  | _ =>
    obtain ⟨token, -, last, now⟩ := unobserved (by nofun) stepped
    intro snapshot same low
    rw [last] at same
    exact (hears snapshot same low).mono token now

/-- Once the quarantine is over, so is what was waited for. -/
theorem le_now_of_available (lasts : s.LastsUntil time)
    (available : availableAt s.token s.now = none) : time ≤ s.now := by
  by_contra ahead
  obtain ⟨until_, same, within⟩ := lasts (not_le.mp ahead)
  unfold availableAt at available
  rw [same, Option.filter_eq_none_iff] at available
  have past := available until_ rfl
  simp only [decide_eq_true_eq] at past
  omega

theorem sendings_step (kept : s.WaitsKept) (hears : s.HearsLast threshold)
    (free : ∀ sending ∈ s.sendings, sending.Free threshold) (available : s.SendsAvailable action)
    (stepped : s.step threshold action = some next) :
    ∀ sending ∈ next.sendings, sending.Free threshold := by
  cases action with
  | send i =>
    simp only [step] at stepped
    split at stepped <;> cases stepped
    intro sending member
    rcases List.mem_append.mp member with before | last
    · exact free sending before
    · rw [List.mem_singleton.mp last]
      exact ⟨fun retryAt told => le_now_of_available (kept retryAt told) available,
        fun snapshot same low => le_now_of_available (hears snapshot same low) available⟩
  | answered i answer =>
    simp only [step] at stepped
    split at stepped <;> cases stepped
    unfold observe
    split <;> exact free
  | tick ms | arrive =>
    cases stepped
    exact free
  | leased i | fail i =>
    simp only [step] at stepped
    split at stepped <;> cases stepped
    exact free

/-- The waits that 429 answers impose are kept in all states of a run exactly when no later answer ends
one. When besides each request finds the quarantine over as it goes out, none goes out while a limit is
on that was observed before. -/
theorem quarantine_run (threshold : Rat) (now : Int) (actions : List TransportAction) :
    ((∀ state ∈ (automaton threshold).visited actions (start now), state.WaitsKept) ↔
      ∀ turn ∈ (automaton threshold).taken actions (start now),
        turn.1.AnswersLeaveWaits threshold turn.2) ∧
    ((∀ turn ∈ (automaton threshold).taken actions (start now),
        turn.1.AnswersLeaveWaits threshold turn.2 ∧ turn.1.SendsAvailable turn.2) →
      ∀ state ∈ (automaton threshold).visited actions (start now),
        state.WaitsKept ∧ ∀ sending ∈ state.sendings, sending.Free threshold) := by
  have began : (start now).WaitsKept := nofun
  constructor
  · have always : ∀ (s : Transport) (action : TransportAction) (next : Transport), True →
        (automaton threshold).step s action = some next → True := fun _ _ _ _ _ => trivial
    exact Automaton.visited_iff_taken always
      (fun _ _ _ _ kept stepped => waitsKept_step kept stepped) trivial began
  · intro met
    have steps : ∀ (s : Transport) (action : TransportAction) (next : Transport),
        (s.WaitsKept ∧ s.HearsLast threshold ∧ ∀ sending ∈ s.sendings, sending.Free threshold) →
        s.AnswersLeaveWaits threshold action ∧ s.SendsAvailable action →
        (automaton threshold).step s action = some next →
        next.WaitsKept ∧ next.HearsLast threshold ∧
          ∀ sending ∈ next.sendings, sending.Free threshold := by
      rintro s action next ⟨kept, hears, free⟩ ⟨leaves, available⟩ stepped
      exact ⟨(waitsKept_step kept stepped).mpr leaves, hearsLast_step hears stepped,
        sendings_step kept hears free available stepped⟩
    have held := Automaton.visited_of_taken steps ⟨began, nofun, nofun⟩ met
    exact fun state reached => ⟨(held state reached).1, (held state reached).2.2⟩

end

/-- A request that waits for its slot goes out although another one was told 429; and a low answer that
was under way cuts the wait of a 429. -/
theorem sent_during_quarantine :
    (¬ ∀ (threshold : Rat) (now : Int) (actions : List TransportAction),
      ∀ state ∈ (automaton threshold).visited actions (start now),
        ∀ sending ∈ state.sendings, sending.Free threshold) ∧
    ¬ ∀ (threshold : Rat) (now : Int) (actions : List TransportAction),
      ∀ state ∈ (automaton threshold).visited actions (start now), state.WaitsKept := by
  constructor
  · intro claimed
    have logs : [⟨0, [], none⟩, ⟨1000, [61000], none⟩] ∈ ((automaton (1 / 10)).visited
        [.arrive, .arrive, .leased 0, .leased 1, .send 0, .tick 1000, .answered 0 ⟨none, true, none⟩,
          .send 1] (start 0)).map Transport.sendings := by decide
    obtain ⟨state, reached, same⟩ := List.mem_map.mp logs
    have free := claimed _ _ _ state reached ⟨1000, [61000], none⟩ (by rw [same]; simp)
    have past : (61000 : Int) ≤ 1000 := free.retries 61000 (by simp)
    omega
  · intro claimed
    have states : (1000, [61000], some 2000) ∈ ((automaton (1 / 10)).visited
        [.arrive, .arrive, .leased 0, .leased 1, .send 0, .send 1, .tick 1000,
          .answered 0 ⟨none, true, none⟩, .answered 1 ⟨some ⟨5000, 100, 2000⟩, false, none⟩]
        (start 0)).map fun s => (s.now, s.retries, s.token.quarantinedUntil) := by decide +kernel
    obtain ⟨state, reached, same⟩ := List.mem_map.mp states
    simp only [Prod.mk.injEq] at same
    obtain ⟨now, retries, quarantined⟩ := same
    obtain ⟨until_, lasts, within⟩ := claimed _ _ _ state reached 61000 (by rw [retries]; simp)
      (by rw [now]; decide)
    rw [quarantined] at lasts
    cases lasts
    omega

end Transport

end PrSearch.GitHub
