import Mathlib.Logic.Function.Basic
import PrSearch.GitHub.Pacing
import PrSearch.Lib.Automaton

/-! # Annotation passes

The passes of a process stand in a line: each waits for the end of the one before it and of all before
that, unless its deadline comes first. The one whose turn has come sends its change requests through a
gate that all passes share. What a pass does besides is left open: when it has its turn it may make any
number of attempts, end or fail at any moment, and be told of a limit.
-/
namespace PrSearch.Annotate

open GitHub

/-- Where a pass is. -/
inductive Stage
  | absent
  /-- It stands in the line and waits for its turn or the signal. -/
  | waiting
  /-- The race is decided and the pass has not continued. -/
  | raced (gotTurn : Bool)
  /-- It has the slot and not yet the lock of the runner. -/
  | acquired
  /-- Between two attempts, or before the change request of an attempt. -/
  | between
  /-- It sleeps for `wait` in the gate. -/
  | sleeping (until_ wait : Int)
  /-- It may send. -/
  | due
  /-- `markSent` was called, and the token of the request is asked for. -/
  | marked (at_ : Int)
  /-- The change request is under way. -/
  | sent
  /-- It has released its slot or its place in the line. -/
  | ended
  deriving DecidableEq, Repr

/-- It is between acquiring and releasing the slot. -/
def Stage.holds : Stage → Bool
  | .acquired | .between | .sleeping _ _ | .due | .marked _ | .sent => true
  | _ => false

/-- Its turn has come. -/
def Stage.turned (stage : Stage) : Bool := stage.holds || stage = .raced true

structure Pass where
  deadline : PassDeadline
  hasSignal : Bool
  stage : Stage
  deriving DecidableEq, Repr

inductive Event
  /-- A change request goes out. -/
  | patch (at_ : Int)
  /-- The gate is paused. -/
  | pause (until_ : Int)
  deriving DecidableEq, Repr

/-- The passes in the order of their calls, the line they stand in and the gate they share. -/
structure Passes where
  now : Int
  gate : WriteGate
  pass : Nat → Pass
  calls : Nat
  /-- So many links of the chain of promises are resolved. -/
  settled : Nat
  log : List Event

/-- What a pass does that has the slot. -/
inductive PassAction
  /-- `withAnnotateRunnerLock`, and how `runAnnotationPassLocked` begins. -/
  | lock (isRunner : Bool)
  /-- An attempt comes to the gate. -/
  | attempt
  /-- The sleep in the gate is over. -/
  | wake
  /-- The canonical row has changed, the request has failed or has been answered. -/
  | proceed
  | markSent
  | send
  /-- A request was answered with a limit. -/
  | limited (until_ : Int)
  /-- The pass returns or throws. -/
  | leave
  deriving DecidableEq, Repr

inductive Action
  | tick (ms : Nat)
  /-- `runAnnotationPass`, with the state of its external signal if it has one. -/
  | arrive (budgetMs : Option Int) (external : Option Bool)
  /-- The next link of the chain of promises is resolved. -/
  | settle
  /-- The promise that the pass waits for is resolved. -/
  | turn (i : Nat)
  /-- The external signal is raised. -/
  | abort (i : Nat)
  /-- The timer of the budget raises the signal. -/
  | timer (i : Nat)
  /-- The pass continues after the race. -/
  | resume (i : Nat)
  | act (i : Nat) (action : PassAction)
  deriving DecidableEq, Repr

namespace Passes

def start (gate : WriteGate) (now : Int) : Passes where
  now := now
  gate := gate
  pass := fun _ => ⟨⟨none, false⟩, false, .absent⟩
  calls := 0
  settled := 0
  log := []

def put (s : Passes) (i : Nat) (pass : Pass) : Passes :=
  { s with pass := Function.update s.pass i pass }

def moveTo (s : Passes) (i : Nat) (stage : Stage) : Passes :=
  s.put i { s.pass i with stage := stage }

/-- The pass goes on after it has asked whether it is expired. -/
def askTo (s : Passes) (i : Nat) (stage : Stage) : Passes :=
  s.put i { s.pass i with deadline := (s.pass i).deadline.asked s.now, stage := stage }

/-- `onAbort`: the signal is raised, and a race that is open is lost. -/
def onAbort (s : Passes) (i : Nat) : Passes :=
  s.put i
    { s.pass i with
      deadline := { (s.pass i).deadline with aborted := true }
      stage := if (s.pass i).stage = .waiting then .raced false else (s.pass i).stage }

def expired (s : Passes) (i : Nat) : Bool := (s.pass i).deadline.expired s.now

/-- `gate.pauseUntil`, and the end of the pass. -/
def limit (s : Passes) (i : Nat) (until_ : Int) : Passes :=
  { s.moveTo i .ended with
    gate := s.gate.pauseUntil until_
    log := s.log ++ [.pause until_] }

def act (s : Passes) (i : Nat) (action : PassAction) : Option Passes :=
  match (s.pass i).stage, action with
  | .acquired, .lock isRunner =>
      if !isRunner then some (s.moveTo i .ended)
      else if s.expired i || s.gate.pausedUntil.any (s.now < ·) then some (s.askTo i .ended)
      else some (s.askTo i .between)
  | .between, .attempt =>
      let wait := s.gate.waitMs s.now
      if 0 < wait then
        if (s.pass i).deadline.sleeps s.now wait then some (s.askTo i (.sleeping (s.now + wait) wait))
        else some (s.askTo i .ended)
      else some (s.moveTo i .due)
  | .sleeping until_ wait, .wake =>
      if s.now < until_ then none
      else if s.expired i then some (s.askTo i .ended)
      else if s.gate.spacingMs < wait then some (s.askTo i .between)
      else some (s.askTo i .due)
  | .due, .markSent =>
      if s.expired i then some (s.askTo i .ended)
      else some { s.askTo i (.marked s.now) with gate := s.gate.markSent s.now }
  | .marked _, .send =>
      if (s.pass i).deadline.aborted then none
      else some { s.moveTo i .sent with log := s.log ++ [.patch s.now] }
  | .due, .proceed | .marked _, .proceed | .sent, .proceed => some (s.moveTo i .between)
  | .between, .limited until_ | .marked _, .limited until_ | .sent, .limited until_ =>
      some (s.limit i until_)
  | .acquired, .leave | .between, .leave | .due, .leave | .marked _, .leave | .sent, .leave =>
      some (s.moveTo i .ended)
  | _, _ => none

def step (s : Passes) : Action → Option Passes
  | .tick ms => some { s with now := s.now + ms }
  | .arrive budgetMs external =>
      let deadline := PassDeadline.start budgetMs s.now s.now (external = some true)
      some { s.put s.calls ⟨deadline.asked s.now, external.isSome,
          if deadline.expired s.now then .ended else .waiting⟩ with calls := s.calls + 1 }
  | .settle =>
      if s.settled < s.calls ∧ (s.pass s.settled).stage = .ended then
        some { s with settled := s.settled + 1 }
      else none
  | .turn i =>
      if (s.pass i).stage = .waiting ∧ i ≤ s.settled then
        some (s.put i { s.pass i with stage := .raced true })
      else none
  | .abort i => if i < s.calls ∧ (s.pass i).hasSignal then some (s.onAbort i) else none
  | .timer i =>
      if i < s.calls ∧ (s.pass i).deadline.endsAt.any (· ≤ s.now) then some (s.onAbort i) else none
  | .resume i =>
      match (s.pass i).stage with
      | .raced gotTurn =>
          if !gotTurn || s.expired i then some (s.askTo i .ended) else some (s.askTo i .acquired)
      | _ => none
  | .act i action => s.act i action

def automaton : Automaton Passes Action := ⟨step⟩

end Passes

end PrSearch.Annotate
