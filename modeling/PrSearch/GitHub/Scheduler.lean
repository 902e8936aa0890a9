import Mathlib.Data.List.Perm.Basic
import Mathlib.Data.List.Range
import PrSearch.Lib.Automaton

/-! # The order of requests

A request takes a slot at once when one is free and nobody waits. Otherwise it waits in the queue of its
priority until a slot is handed over to it, or its caller aborts. A slot that is given back goes to the
first of the real-time queue, else to the first of the other one. The one that was woken counts itself
only when it continues, in a later turn of the event loop.
-/
namespace PrSearch.GitHub

inductive RequestPriority
  | realtime
  | backfill
deriving DecidableEq

/-- A call of `run` that waits. -/
structure Waiter where
  call : Nat
  enqueuedAt : Nat
deriving DecidableEq

/-- The scheduler, and where the calls of `run` are. -/
structure Scheduler where
  realtime : List Waiter
  backfill : List Waiter
  inFlight : Nat
  sequence : Nat
  /-- Calls that have been resolved and not continued. -/
  woken : List Nat
  running : List Nat
  finished : List Nat
  rejected : List Nat
  /-- How many calls there have been: the next one has this number. -/
  calls : Nat
deriving DecidableEq

variable {sequence call : Nat} {queue : List Waiter}

namespace Scheduler

def empty : Scheduler := ⟨[], [], 0, 0, [], [], [], [], 0⟩

def queued (s : Scheduler) : Nat := s.realtime.length + s.backfill.length

/-- Slots that are taken or handed over. -/
def promised (s : Scheduler) : Nat := s.inFlight + s.woken.length

inductive Action
  /-- `run`, with a signal that may have been aborted. -/
  | arrive (priority : RequestPriority) (aborted : Bool)
  /-- The signal of a call is aborted. -/
  | abort (call : Nat)
  /-- A woken call continues. -/
  | resume (call : Nat)
  /-- A task ends or fails. -/
  | finish (call : Nat)

def enqueue (s : Scheduler) (priority : RequestPriority) : Scheduler :=
  let waiter : Waiter := ⟨s.calls, s.sequence + 1⟩
  let waiting := { s with sequence := s.sequence + 1, calls := s.calls + 1 }
  match priority with
  | .realtime => { waiting with realtime := s.realtime ++ [waiter] }
  | .backfill => { waiting with backfill := s.backfill ++ [waiter] }

/-- `#acquire`, up to where it waits. -/
def acquire (limit : Nat) (s : Scheduler) (priority : RequestPriority) (aborted : Bool) : Scheduler :=
  if aborted then { s with rejected := s.rejected ++ [s.calls], calls := s.calls + 1 }
  else if s.inFlight < limit ∧ s.queued = 0 then
    { s with inFlight := s.inFlight + 1, running := s.running ++ [s.calls], calls := s.calls + 1 }
  else s.enqueue priority

/-- `onAbort`: a call that waits leaves its queue. -/
def onAbort (s : Scheduler) (call : Nat) : Scheduler :=
  if call ∈ s.realtime.map Waiter.call then
    { s with realtime := s.realtime.eraseP (·.call = call), rejected := s.rejected ++ [call] }
  else if call ∈ s.backfill.map Waiter.call then
    { s with backfill := s.backfill.eraseP (·.call = call), rejected := s.rejected ++ [call] }
  else s

/-- `#release` -/
def release (s : Scheduler) : Scheduler :=
  match s.realtime, s.backfill with
  | next :: rest, _ => { s with inFlight := s.inFlight - 1, realtime := rest, woken := s.woken ++ [next.call] }
  | [], next :: rest => { s with inFlight := s.inFlight - 1, backfill := rest, woken := s.woken ++ [next.call] }
  | [], [] => { s with inFlight := s.inFlight - 1 }

def step (limit : Nat) (s : Scheduler) : Action → Option Scheduler
  | .arrive priority aborted => some (s.acquire limit priority aborted)
  | .abort call => some (s.onAbort call)
  | .resume call =>
      if call ∈ s.woken then
        some { s with woken := s.woken.erase call, inFlight := s.inFlight + 1, running := s.running ++ [call] }
      else none
  | .finish call =>
      if call ∈ s.running then
        some { s.release with running := s.running.erase call, finished := s.finished ++ [call] }
      else none

/-- A scheduler with this option, and every order of what its callers do. -/
def automaton (maxConcurrent : Nat) : Automaton Scheduler Action := ⟨step (max 1 maxConcurrent)⟩

/-! ### Where the calls are -/

/-- Every call is at one place. -/
def places (s : Scheduler) : List Nat :=
  s.realtime.map Waiter.call ++ (s.backfill.map Waiter.call ++ (s.woken ++ (s.running ++ (s.finished ++ s.rejected))))

/-- The queues are in the order of arrival. -/
def InOrder (sequence : Nat) (queue : List Waiter) : Prop :=
  queue.Pairwise (fun earlier later => earlier.enqueuedAt < later.enqueuedAt) ∧
    ∀ waiter ∈ queue, waiter.enqueuedAt ≤ sequence

structure Sound (limit : Nat) (s : Scheduler) : Prop where
  counted : s.inFlight = s.running.length
  placed : s.places.Perm (List.range s.calls)
  realtime : InOrder s.sequence s.realtime
  backfill : InOrder s.sequence s.backfill
  /-- Nobody waits while a slot is free. -/
  full : 0 < s.queued → limit ≤ s.promised

theorem sound_empty (limit : Nat) : Sound limit empty where
  counted := rfl
  placed := by simp [places, empty]
  realtime := ⟨List.Pairwise.nil, nofun⟩
  backfill := ⟨List.Pairwise.nil, nofun⟩
  full := by simp [queued, empty]

section Step

variable {limit : Nat} {s next : Scheduler}

theorem InOrder.sublist {rest : List Waiter} (order : InOrder sequence queue)
    (sub : rest.Sublist queue) : InOrder sequence rest :=
  ⟨order.1.sublist sub, fun waiter inside => order.2 waiter (sub.subset inside)⟩

theorem InOrder.enqueue (order : InOrder sequence queue) (call : Nat) :
    InOrder (sequence + 1) (queue ++ [⟨call, sequence + 1⟩]) := by
  constructor
  · rw [List.pairwise_append]
    refine ⟨order.1, List.pairwise_singleton _ _, ?_⟩
    intro earlier inside later last
    rw [List.mem_singleton.mp last]
    exact Nat.lt_succ_of_le (order.2 earlier inside)
  · intro waiter inside
    rcases List.mem_append.mp inside with early | last
    · exact Nat.le_succ_of_le (order.2 waiter early)
    · rw [List.mem_singleton.mp last]

theorem InOrder.mono (order : InOrder sequence queue) : InOrder (sequence + 1) queue :=
  ⟨order.1, fun waiter inside => Nat.le_succ_of_le (order.2 waiter inside)⟩

theorem map_eraseP_call (queue : List Waiter) (call : Nat) :
    (queue.eraseP (·.call = call)).map Waiter.call = (queue.map Waiter.call).erase call := by
  have same : (fun waiter : Waiter => decide (waiter.call = call)) = (call == ·) ∘ Waiter.call := by
    funext waiter
    change decide (waiter.call = call) = (call == waiter.call)
    by_cases same : waiter.call = call
    · rw [same, beq_self_eq_true, decide_eq_true rfl]
    · rw [decide_eq_false same, beq_false_of_ne (Ne.symm same)]
  rw [List.erase_eq_eraseP, List.eraseP_map, same]

/-- How often a call stands in the places, place by place. -/
theorem count_places (s : Scheduler) (call : Nat) :
    s.places.count call = (s.realtime.map Waiter.call).count call + (s.backfill.map Waiter.call).count call +
      s.woken.count call + s.running.count call + s.finished.count call + s.rejected.count call := by
  simp only [places, List.count_append]
  omega

theorem placed_iff (s : Scheduler) : s.places.Perm (List.range s.calls) ↔
    ∀ call, (s.realtime.map Waiter.call).count call + (s.backfill.map Waiter.call).count call +
      s.woken.count call + s.running.count call + s.finished.count call + s.rejected.count call =
        (List.range s.calls).count call := by
  simp only [List.perm_iff_count, count_places]

theorem count_erase_add (other : Nat) {calls : List Nat} (inside : call ∈ calls) :
    (calls.erase call).count other + [call].count other = calls.count other := by
  rw [(List.perm_cons_erase inside).count_eq]
  simp only [List.count_cons, List.count_nil, Nat.zero_add]

theorem Sound.enqueue (sound : Sound limit s) (busy : ¬(s.inFlight < limit ∧ s.queued = 0))
    (priority : RequestPriority) : Sound limit (s.enqueue priority) := by
  have full : limit ≤ s.promised := by
    by_cases waiting : 0 < s.queued
    · exact sound.full waiting
    · simp only [promised]
      omega
  have placed := (placed_iff s).mp sound.placed
  cases priority with
  | realtime =>
    refine ⟨sound.counted, (placed_iff _).mpr fun call => ?_, sound.realtime.enqueue _, sound.backfill.mono, fun _ => full⟩
    have before := placed call
    simp only [Scheduler.enqueue, List.map_append, List.map_cons, List.map_nil, List.count_append, List.range_succ]
    omega
  | backfill =>
    refine ⟨sound.counted, (placed_iff _).mpr fun call => ?_, sound.realtime.mono, sound.backfill.enqueue _, fun _ => full⟩
    have before := placed call
    simp only [Scheduler.enqueue, List.map_append, List.map_cons, List.map_nil, List.count_append, List.range_succ]
    omega

theorem Sound.acquire (sound : Sound limit s) (priority : RequestPriority) (aborted : Bool) :
    Sound limit (s.acquire limit priority aborted) := by
  have placed := (placed_iff s).mp sound.placed
  unfold Scheduler.acquire
  split
  · refine ⟨sound.counted, (placed_iff _).mpr fun call => ?_, sound.realtime, sound.backfill, sound.full⟩
    have before := placed call
    simp only [List.count_append, List.range_succ]
    omega
  · split
    next free =>
      refine ⟨?_, (placed_iff _).mpr fun call => ?_, sound.realtime, sound.backfill, ?_⟩
      · simp only [sound.counted, List.length_append, List.length_singleton]
      · have before := placed call
        simp only [List.count_append, List.range_succ]
        omega
      · intro waiting
        exact absurd free.2 (Nat.ne_of_gt waiting)
    next busy => exact sound.enqueue busy priority

theorem Sound.onAbort (sound : Sound limit s) (call : Nat) : Sound limit (s.onAbort call) := by
  have placed := (placed_iff s).mp sound.placed
  unfold Scheduler.onAbort
  split
  next inside =>
    refine ⟨sound.counted, (placed_iff _).mpr fun other => ?_, sound.realtime.sublist List.eraseP_sublist,
      sound.backfill, fun waiting => sound.full ?_⟩
    · have before := placed other
      have moved := count_erase_add other inside
      simp only [map_eraseP_call, List.count_append]
      omega
    · have fewer := (List.eraseP_sublist (p := (·.call = call)) (l := s.realtime)).length_le
      simp only [queued] at waiting ⊢
      omega
  · split
    next inside =>
      refine ⟨sound.counted, (placed_iff _).mpr fun other => ?_, sound.realtime,
        sound.backfill.sublist List.eraseP_sublist, fun waiting => sound.full ?_⟩
      · have before := placed other
        have moved := count_erase_add other inside
        simp only [map_eraseP_call, List.count_append]
        omega
      · have fewer := (List.eraseP_sublist (p := (·.call = call)) (l := s.backfill)).length_le
        simp only [queued] at waiting ⊢
        omega
    · exact sound

theorem Sound.resume (sound : Sound limit s) (inside : call ∈ s.woken) :
    Sound limit { s with woken := s.woken.erase call, inFlight := s.inFlight + 1, running := s.running ++ [call] } := by
  have placed := (placed_iff s).mp sound.placed
  refine ⟨?_, (placed_iff _).mpr fun other => ?_, sound.realtime, sound.backfill, fun waiting => ?_⟩
  · simp only [sound.counted, List.length_append, List.length_singleton]
  · have before := placed other
    have moved := count_erase_add other inside
    simp only [List.count_append]
    omega
  · have before := sound.full waiting
    have shorter := List.length_erase_of_mem inside
    have some_ := List.length_pos_of_mem inside
    simp only [promised] at before ⊢
    omega

theorem Sound.finish (sound : Sound limit s) (inside : call ∈ s.running) :
    Sound limit { s.release with running := s.running.erase call, finished := s.finished ++ [call] } := by
  have placed := (placed_iff s).mp sound.placed
  have shorter := List.length_erase_of_mem inside
  have some_ := List.length_pos_of_mem inside
  have counted := sound.counted
  obtain ⟨realtime, backfill, inFlight, sequence, woken, running, finished, rejected, calls⟩ := s
  simp only at *
  cases realtime with
  | cons next rest =>
    refine ⟨?_, (placed_iff _).mpr fun other => ?_, sound.realtime.sublist (List.sublist_cons_self _ _),
      sound.backfill, fun _ => ?_⟩
    · simp only [release]
      omega
    · have before := placed other
      have moved := count_erase_add other inside
      simp only [List.map_cons, List.count_cons, List.count_nil, Nat.zero_add] at before moved
      simp only [release, List.count_append, List.count_cons, List.count_nil, Nat.zero_add]
      omega
    · have before := sound.full (by simp only [queued, List.length_cons]; omega)
      simp only [promised, release, List.length_append, List.length_singleton] at before ⊢
      omega
  | nil =>
    cases backfill with
    | cons next rest =>
      refine ⟨?_, (placed_iff _).mpr fun other => ?_, sound.realtime,
        sound.backfill.sublist (List.sublist_cons_self _ _), fun _ => ?_⟩
      · simp only [release]
        omega
      · have before := placed other
        have moved := count_erase_add other inside
        simp only [List.map_cons, List.count_cons, List.count_nil, Nat.zero_add] at before moved
        simp only [release, List.count_append, List.count_cons, List.count_nil, Nat.zero_add]
        omega
      · have before := sound.full (by simp only [queued, List.length_cons]; omega)
        simp only [promised, release, List.length_append, List.length_singleton] at before ⊢
        omega
    | nil =>
      refine ⟨?_, (placed_iff _).mpr fun other => ?_, sound.realtime, sound.backfill, fun waiting => ?_⟩
      · simp only [release]
        omega
      · have before := placed other
        have moved := count_erase_add other inside
        simp only [release, List.count_append]
        omega
      · exact absurd waiting (by simp [queued, release])

/-- What every action keeps. -/
theorem Sound.step {action : Action} (sound : Sound limit s) (stepped : step limit s action = some next) :
    Sound limit next := by
  cases action with
  | arrive priority aborted =>
    cases stepped
    exact sound.acquire priority aborted
  | abort call =>
    cases stepped
    exact sound.onAbort call
  | resume call =>
    simp only [Scheduler.step] at stepped
    split at stepped
    next inside =>
      cases stepped
      exact sound.resume inside
    · cases stepped
  | finish call =>
    simp only [Scheduler.step] at stepped
    split at stepped
    next inside =>
      cases stepped
      exact sound.finish inside
    · cases stepped

end Step

end Scheduler

end PrSearch.GitHub
