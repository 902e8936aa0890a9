import PrSearch.GitHub.Scheduler

/-! # Runs of the scheduler

A slot that is given back goes to the one that has waited longest, who counts itself when it continues.
Until then its slot looks free. As long as nobody arrives at an empty queue while every slot that looks
free is handed over, the cap holds; the order of the queues and their progress hold in any case.
-/
namespace PrSearch.GitHub.Scheduler

variable {limit : Nat} {s next : Scheduler} {action : Action}

/-! ### The cap -/

/-- Somebody who arrives and takes a slot at once finds one that is not handed over. -/
def TakesFreeSlot (limit : Nat) (s : Scheduler) : Action → Prop
  | .arrive _ false => s.inFlight < limit → s.queued = 0 → s.promised < limit
  | _ => True

theorem promised_release (held : 0 < s.inFlight) : s.release.promised ≤ s.promised := by
  obtain ⟨realtime, backfill, inFlight, sequence, woken, running, finished, rejected, calls⟩ := s
  cases realtime with
  | cons => simp only [promised, release, List.length_append, List.length_singleton]; simp only at held; omega
  | nil =>
    cases backfill with
    | cons => simp only [promised, release, List.length_append, List.length_singleton]; simp only at held; omega
    | nil => simp only [promised, release]; omega

theorem promised_onAbort (call : Nat) : (s.onAbort call).promised = s.promised := by
  unfold onAbort
  split
  · rfl
  · split <;> rfl

theorem promised_enqueue (priority : RequestPriority) : (s.enqueue priority).promised = s.promised := by
  cases priority <;> rfl

/-- The promised slots stay within the cap exactly when the one that arrives finds a free one. -/
theorem promised_le_iff (sound : Sound limit s) (within : s.promised ≤ limit)
    (stepped : step limit s action = some next) : next.promised ≤ limit ↔ TakesFreeSlot limit s action := by
  cases action with
  | arrive priority aborted =>
    cases stepped
    cases aborted with
    | true => exact iff_of_true within trivial
    | false =>
      simp only [acquire, Bool.false_eq_true, if_false, TakesFreeSlot]
      split
      next free =>
        simp only [promised] at within ⊢
        constructor
        · intro bound _ _
          omega
        · intro found
          have room := found free.1 free.2
          omega
      next busy =>
        rw [promised_enqueue]
        exact iff_of_true within fun room empty => absurd ⟨room, empty⟩ busy
  | abort call =>
    cases stepped
    rw [promised_onAbort]
    exact iff_of_true within trivial
  | resume call =>
    simp only [step] at stepped
    split at stepped
    next inside =>
      cases stepped
      have shorter := List.length_erase_of_mem inside
      have some_ := List.length_pos_of_mem inside
      refine iff_of_true ?_ trivial
      simp only [promised] at within ⊢
      omega
    · cases stepped
  | finish call =>
    simp only [step] at stepped
    split at stepped
    next inside =>
      cases stepped
      have held : 0 < s.inFlight := by
        rw [sound.counted]
        exact List.length_pos_of_mem inside
      exact iff_of_true (Nat.le_trans (promised_release held) within) trivial
    · cases stepped

/-! ### The hand-over -/

/-- A slot that comes free goes to the oldest real-time request, else to the oldest other one. -/
def HandsOver (s next : Scheduler) : Prop :=
  (∀ waiter ∈ s.realtime, ∃ oldest ∈ s.realtime, next.woken = s.woken ++ [oldest.call] ∧
    oldest.enqueuedAt ≤ waiter.enqueuedAt) ∧
  (s.realtime = [] → ∀ waiter ∈ s.backfill, ∃ oldest ∈ s.backfill, next.woken = s.woken ++ [oldest.call] ∧
    oldest.enqueuedAt ≤ waiter.enqueuedAt)

theorem InOrder.head_le {sequence : Nat} {oldest : Waiter} {rest : List Waiter}
    (order : InOrder sequence (oldest :: rest)) {waiter : Waiter} (inside : waiter ∈ oldest :: rest) :
    oldest.enqueuedAt ≤ waiter.enqueuedAt := by
  rcases List.mem_cons.mp inside with rfl | later
  · exact Nat.le_refl _
  · exact Nat.le_of_lt (List.rel_of_pairwise_cons order.1 later)

theorem handsOver_of_finish (sound : Sound limit s) {call : Nat}
    (stepped : step limit s (.finish call) = some next) : HandsOver s next := by
  simp only [step] at stepped
  split at stepped
  · cases stepped
    constructor
    · intro waiter inside
      obtain ⟨oldest, rest, queue⟩ := List.exists_cons_of_ne_nil (List.ne_nil_of_mem inside)
      have order := sound.realtime
      rw [queue] at order inside
      refine ⟨oldest, by rw [queue]; exact List.mem_cons_self, ?_, order.head_le inside⟩
      simp only [release, queue]
    · intro noRealtime waiter inside
      obtain ⟨oldest, rest, queue⟩ := List.exists_cons_of_ne_nil (List.ne_nil_of_mem inside)
      have order := sound.backfill
      rw [queue] at order inside
      refine ⟨oldest, by rw [queue]; exact List.mem_cons_self, ?_, order.head_le inside⟩
      simp only [release, noRealtime, queue]
  · cases stepped

/-! ### Progress -/

/-- Tasks end and woken calls continue, and nobody arrives. -/
def Action.Drains : Action → Prop
  | .resume _ | .finish _ => True
  | .arrive .. | .abort _ => False

/-- What is left to do. -/
def work (s : Scheduler) : Nat := 3 * s.queued + 2 * s.woken.length + s.running.length

theorem work_release (s : Scheduler) : s.release.work ≤ s.work := by
  obtain ⟨realtime, backfill, inFlight, sequence, woken, running, finished, rejected, calls⟩ := s
  cases realtime with
  | cons => simp only [work, queued, release, List.length_append, List.length_cons, List.length_nil]; omega
  | nil =>
    cases backfill with
    | cons => simp only [work, queued, release, List.length_append, List.length_cons, List.length_nil]; omega
    | nil => exact Nat.le_refl _

theorem work_lt (drains : action.Drains) (stepped : step limit s action = some next) : next.work < s.work := by
  cases action with
  | arrive | abort => exact drains.elim
  | resume call =>
    simp only [step] at stepped
    split at stepped
    next inside =>
      cases stepped
      have shorter := List.length_erase_of_mem inside
      have some_ := List.length_pos_of_mem inside
      simp only [work, queued, List.length_append, List.length_singleton]
      omega
    · cases stepped
  | finish call =>
    simp only [step] at stepped
    split at stepped
    next inside =>
      cases stepped
      have shorter := List.length_erase_of_mem inside
      have some_ := List.length_pos_of_mem inside
      have left := s.work_release
      have same : s.release.running = s.running := by
        unfold release
        split <;> rfl
      simp only [work, queued, same] at left ⊢
      omega
    · cases stepped

/-- A drain makes only so many steps. -/
theorem length_taken_le {actions : List Action} (drains : ∀ action ∈ actions, action.Drains) (s : Scheduler)
    (maxConcurrent : Nat) : ((automaton maxConcurrent).taken actions s).length ≤ s.work := by
  induction actions generalizing s with
  | nil => exact Nat.zero_le _
  | cons action rest ih =>
    simp only [Automaton.taken]
    cases stepped : (automaton maxConcurrent).step s action with
    | none => exact Nat.zero_le _
    | some next =>
      have less := work_lt (drains action List.mem_cons_self) stepped
      have later := ih (fun other listed => drains other (List.mem_cons_of_mem _ listed)) next
      simp only [List.length_cons]
      omega

/-- Nothing runs and nothing waits, and every call has ended or was aborted while it waited. -/
structure Drained (s : Scheduler) : Prop where
  idle : s.inFlight = 0
  nobody : s.queued = 0
  ended : ∀ call < s.calls, call ∈ s.finished ∨ call ∈ s.rejected

/-- Where no task can end and no woken call can continue, all is done. -/
theorem drained_of_stuck (sound : Sound limit s) (some_ : 1 ≤ limit)
    (stuck : ∀ action : Action, action.Drains → step limit s action = none) : Drained s := by
  have noRunning : s.running = [] := by
    refine List.eq_nil_iff_forall_not_mem.mpr fun call inside => ?_
    have refused := stuck (.finish call) trivial
    simp only [step, if_pos inside] at refused
    cases refused
  have noWoken : s.woken = [] := by
    refine List.eq_nil_iff_forall_not_mem.mpr fun call inside => ?_
    have refused := stuck (.resume call) trivial
    simp only [step, if_pos inside] at refused
    cases refused
  have idle : s.inFlight = 0 := by rw [sound.counted, noRunning, List.length_nil]
  have nobody : s.queued = 0 := by
    by_contra waiting
    have full := sound.full (Nat.pos_of_ne_zero waiting)
    rw [promised, idle, noWoken, List.length_nil] at full
    omega
  refine ⟨idle, nobody, fun call before => ?_⟩
  have placed := sound.placed.mem_iff.mpr (List.mem_range.mpr before)
  have noRealtime : s.realtime = [] := List.eq_nil_of_length_eq_zero (by simp only [queued] at nobody; omega)
  have noBackfill : s.backfill = [] := List.eq_nil_of_length_eq_zero (by simp only [queued] at nobody; omega)
  simpa [places, noRealtime, noBackfill, noWoken, noRunning] using placed

/-! ### Aborted calls -/

/-- A call that was aborted while it waited stands nowhere else. -/
theorem nowhere_of_rejected (sound : Sound limit s) {call : Nat} (aborted : call ∈ s.rejected) :
    call ∉ s.woken ∧ call ∉ s.running ∧ call ∉ s.finished := by
  have once : s.places.Nodup := sound.placed.nodup_iff.mpr List.nodup_range
  simp only [places, List.nodup_append] at once
  obtain ⟨_, ⟨_, ⟨_, ⟨_, ⟨_, _, apartFinished⟩, apartRunning⟩, apartWoken⟩, _⟩, _⟩ := once
  refine ⟨fun inside => ?_, fun inside => ?_, fun inside => ?_⟩
  · exact apartWoken call inside call (by simp [aborted]) rfl
  · exact apartRunning call inside call (by simp [aborted]) rfl
  · exact apartFinished call inside call aborted rfl

theorem rejected_mono (stepped : step limit s action = some next) : ∀ call ∈ s.rejected, call ∈ next.rejected := by
  intro call inside
  cases action with
  | arrive priority aborted =>
    cases stepped
    unfold acquire
    split
    · exact List.mem_append_left _ inside
    · split
      · exact inside
      · cases priority <;> exact inside
  | abort other =>
    cases stepped
    unfold onAbort
    split
    · exact List.mem_append_left _ inside
    · split
      · exact List.mem_append_left _ inside
      · exact inside
  | resume other =>
    simp only [step] at stepped
    split at stepped <;> cases stepped
    exact inside
  | finish other =>
    have same : s.release.rejected = s.rejected := by
      unfold release
      split <;> rfl
    simp only [step] at stepped
    split at stepped <;> cases stepped
    exact same ▸ inside

/-! ### Whole runs -/

/-- What holds of a state whoever arrives when. -/
structure Orderly (maxConcurrent : Nat) (s : Scheduler) : Prop where
  counted : s.inFlight = s.running.length
  handsOver : ∀ call next, (automaton maxConcurrent).step s (.finish call) = some next → HandsOver s next
  aborted : ∀ call ∈ s.rejected, call ∉ s.woken ∧ call ∉ s.running ∧ call ∉ s.finished
  ends : ∀ drain : List Action, (∀ action ∈ drain, action.Drains) →
    ((automaton maxConcurrent).taken drain s).length ≤ s.work
  drained : (∀ action : Action, action.Drains → (automaton maxConcurrent).step s action = none) → Drained s

theorem orderly_of_sound {maxConcurrent : Nat} (sound : Sound (max 1 maxConcurrent) s) :
    Orderly maxConcurrent s where
  counted := sound.counted
  handsOver := fun _ _ stepped => handsOver_of_finish sound stepped
  aborted := fun _ inside => nowhere_of_rejected sound inside
  ends := fun _ drains => length_taken_le drains s maxConcurrent
  drained := drained_of_stuck sound (Nat.le_max_left 1 maxConcurrent)

/-- The slots that are taken or handed over stay within the cap exactly when everybody who takes a slot
at once finds one that is not handed over. In any run the slots are handed over in order, a call that
was aborted in a queue gets none, and all that wait are served when tasks end. -/
theorem automaton_runs (maxConcurrent : Nat) (actions : List Action) :
    ((∀ state ∈ (automaton maxConcurrent).visited actions empty, state.promised ≤ max 1 maxConcurrent) ↔
      ∀ turn ∈ (automaton maxConcurrent).taken actions empty, TakesFreeSlot (max 1 maxConcurrent) turn.1 turn.2) ∧
    ((∀ turn ∈ (automaton maxConcurrent).taken actions empty, TakesFreeSlot (max 1 maxConcurrent) turn.1 turn.2) →
      ∀ state ∈ (automaton maxConcurrent).visited actions empty, state.running.length ≤ max 1 maxConcurrent) ∧
    (∀ state ∈ (automaton maxConcurrent).visited actions empty, Orderly maxConcurrent state) ∧
    ((automaton maxConcurrent).visited actions empty).Pairwise fun earlier later =>
      ∀ call ∈ earlier.rejected, call ∈ later.rejected := by
  have kept : ∀ (s : Scheduler) (action : Action) (next : Scheduler), Sound (max 1 maxConcurrent) s →
      (automaton maxConcurrent).step s action = some next → Sound (max 1 maxConcurrent) next :=
    fun _ _ _ sound stepped => sound.step stepped
  have sound : ∀ state ∈ (automaton maxConcurrent).visited actions empty, Sound (max 1 maxConcurrent) state :=
    Automaton.visited_of_step kept (sound_empty _)
  have cap : (∀ state ∈ (automaton maxConcurrent).visited actions empty, state.promised ≤ max 1 maxConcurrent) ↔
      ∀ turn ∈ (automaton maxConcurrent).taken actions empty, TakesFreeSlot (max 1 maxConcurrent) turn.1 turn.2 :=
    Automaton.visited_iff_taken kept
      (fun _ _ _ sound within stepped => promised_le_iff sound within stepped) (sound_empty _) (Nat.zero_le _)
  refine ⟨cap, fun met state reached => ?_, fun state reached => orderly_of_sound (sound state reached), ?_⟩
  · have within := cap.mpr met state reached
    rw [promised, (sound state reached).counted] at within
    omega
  · exact Automaton.pairwise_visited (fun _ _ _ first second call inside => second call (first call inside))
      (fun _ _ _ stepped => rejected_mono stepped) actions empty

/-- A task ends and wakes a waiter, and before that one continues a newcomer takes its slot: two tasks
run under a cap of one. -/
theorem newcomer_exceeds_cap :
    ∃ state ∈ (automaton 1).visited [.arrive .realtime false, .arrive .realtime false, .finish 0,
      .arrive .realtime false, .resume 1] empty, 1 < state.inFlight ∧ state.running = [2, 1] :=
  ⟨⟨[], [], 2, 1, [], [2, 1], [0], [], 3⟩, by decide⟩

end PrSearch.GitHub.Scheduler
