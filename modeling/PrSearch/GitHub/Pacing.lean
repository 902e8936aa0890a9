import Mathlib.Data.Int.Order.Basic
import Mathlib.Order.Lattice

/-! # Budgets and spacing

A pass has a deadline, which may be told by the clock or by a signal. Change requests go through a gate:
it keeps a distance between two of them, and holds all of them back until a limit is over. Times are in
milliseconds.
-/
namespace PrSearch.GitHub

/-- `PassDeadline`: the end of the budget, if there is one, and whether the signal is raised. -/
structure PassDeadline where
  endsAt : Option Int
  aborted : Bool
  deriving DecidableEq, Repr

namespace PassDeadline

/-- The constructor. `external` tells whether the outer signal is raised already. -/
def start (budgetMs : Option Int) (startedAt now : Int) (external : Bool) : PassDeadline :=
  let endsAt := budgetMs.map (startedAt + ·)
  ⟨endsAt, external || endsAt.any (· - now ≤ 0)⟩

/-- `expired`: the clock decides, also before the timer has raised the signal. -/
def expired (deadline : PassDeadline) (now : Int) : Bool :=
  deadline.aborted || deadline.endsAt.any (· ≤ now)

/-- A deadline after `expired` was asked. -/
def asked (deadline : PassDeadline) (now : Int) : PassDeadline :=
  { deadline with aborted := deadline.expired now }

/-- `sleep` begins: there is more time left than what is slept. -/
def sleeps (deadline : PassDeadline) (now ms : Int) : Bool :=
  !deadline.expired now && deadline.endsAt.all (ms < · - now)

end PassDeadline

/-- `WriteGate` -/
structure WriteGate where
  spacingMs : Nat
  nextAllowedAt : Int
  pausedUntil : Option Int
  deriving DecidableEq, Repr

namespace WriteGate

def start (spacingMs : Nat) (startPaused : Bool) (now : Int) : WriteGate where
  spacingMs := spacingMs
  nextAllowedAt := if startPaused then now + spacingMs else 0
  pausedUntil := none

def pauseUntil (gate : WriteGate) (until_ : Int) : WriteGate :=
  { gate with
    pausedUntil := if gate.pausedUntil.all (· < until_) then some until_ else gate.pausedUntil
    nextAllowedAt := if gate.nextAllowedAt < until_ then until_ else gate.nextAllowedAt }

def waitMs (gate : WriteGate) (now : Int) : Int := max 0 (gate.nextAllowedAt - now)

def markSent (gate : WriteGate) (now : Int) : WriteGate :=
  { gate with
    nextAllowedAt :=
      if gate.nextAllowedAt < now + gate.spacingMs then now + gate.spacingMs else gate.nextAllowedAt
    pausedUntil := if gate.pausedUntil.any (· ≤ now) then none else gate.pausedUntil }

variable {gate : WriteGate} {now until_ : Int}

theorem nextAllowedAt_le_pauseUntil : gate.nextAllowedAt ≤ (gate.pauseUntil until_).nextAllowedAt := by
  unfold pauseUntil
  dsimp only
  split <;> omega

theorem le_pauseUntil : until_ ≤ (gate.pauseUntil until_).nextAllowedAt := by
  unfold pauseUntil
  dsimp only
  split <;> omega

theorem nextAllowedAt_le_markSent : gate.nextAllowedAt ≤ (gate.markSent now).nextAllowedAt := by
  unfold markSent
  dsimp only
  split <;> omega

theorem add_spacing_le_markSent : now + gate.spacingMs ≤ (gate.markSent now).nextAllowedAt := by
  unfold markSent
  dsimp only
  split <;> omega

/-- Who waits as long as the gate says does not send too early. -/
theorem nextAllowedAt_le_add_waitMs : gate.nextAllowedAt ≤ now + gate.waitMs now := by
  unfold waitMs
  omega

end WriteGate

end PrSearch.GitHub
