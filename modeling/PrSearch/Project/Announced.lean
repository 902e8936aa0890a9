import PrSearch.Project.Worker

/-! # What is announced

A changed document is announced by the attempt that changed it: an attempt announces what its own items
have answered, and the same request answers `noop` the next time. So an attempt that is not finished after
it has changed a document loses the announcement, though a later one is acknowledged.
-/
namespace PrSearch.Project

open Index

/-! ### Statements about logs -/

/-- A log tells that this document was announced for a delivery. -/
def Published (log : List Entry) (deliveryId : String) (kind : ProjectedEntityKind) (id : String) : Prop :=
  ∃ event, .published deliveryId event ∈ log ∧ event.entityKind = kind ∧ event.entityId = id

/-- Until a delivery is acknowledged after indexing, all that it has changed is announced. -/
def Announced (log : List Entry) : Prop :=
  ∀ before deliveryId after, log = before ++ .returned (some deliveryId) .projected :: after →
    ∀ kind id, .changed deliveryId kind id ∈ before → Published before deliveryId kind id

/-- What an attempt has still to announce. -/
def Phase.unannounced : Phase → List Item
  | .bulk answered _ => answered.filter announces
  | .retrying _ current _ => current.filter announces
  | .marking outcomes => outcomes.filter announces
  | .resolving outcomes => outcomes.filter announces
  | .publishing rest => rest.filter announces

/-- A document that an attempt has still to announce. -/
def Running.Owes (running : Running) (deliveryId : String) (kind : ProjectedEntityKind) (id : String) : Prop :=
  running.enriched.deliveryId = deliveryId ∧
    ∃ item ∈ running.phase.unannounced, entityKindOf item.1 = kind ∧ item.1.id = id

/-- An action that gives up no announcement: an attempt ends only when it has announced what it has changed,
no answer about a change is lost, and an attempt is not acknowledged while another one of its delivery has
announcements left. -/
def Unbroken (order : HashOrder) (s : World) (turn : Nat × Action) : Prop :=
  ∀ running, s.running turn.1 = some running →
    match turn.2 with
    | .receive _ _ => True
    | .send attempt => attempt = .lost → ∀ request, running.phase.next = some request →
        changes order s.documents ⟨request, request.entityAlias.name, attempt⟩ = false
    | .goOn => ∀ ended, (proceed running).2 = .inl ended →
        if ended = .projected then
          ∀ number other, s.running number = some other →
            other.enriched.deliveryId = running.enriched.deliveryId → other.phase.unannounced = []
        else running.phase.unannounced = []
    | .fail _ _ => running.phase.unannounced = []
    | .crash => running.phase.unannounced = []

section Logs

variable {log entries : List Entry} {deliveryId : String} {kind : ProjectedEntityKind} {id : String}

theorem Published.append (entries : List Entry) (published : Published log deliveryId kind id) :
    Published (log ++ entries) deliveryId kind id := by
  obtain ⟨event, inside, is⟩ := published
  exact ⟨event, List.mem_append_left _ inside, is⟩

theorem announced_nil : Announced [] := by
  intro before deliveryId after split
  exact absurd split (by simp)

/-- One more entry: only an acknowledgement has to be checked. -/
theorem Announced.concat {entry : Entry} (announced : Announced log)
    (acknowledged : ∀ deliveryId, entry = .returned (some deliveryId) .projected →
      ∀ kind id, .changed deliveryId kind id ∈ log → Published log deliveryId kind id) :
    Announced (log ++ [entry]) := by
  intro before deliveryId after split
  rcases List.eq_nil_or_concat after with rfl | ⟨front, last, rfl⟩
  · -- the acknowledgement is the new entry
    obtain ⟨same, is⟩ := List.append_inj' split rfl
    subst same
    exact acknowledged deliveryId (List.cons.inj is).1
  · -- it was there before
    have cut : log ++ [entry] =
        (before ++ .returned (some deliveryId) .projected :: front) ++ [last] := by
      rw [split, List.concat_eq_append, List.append_assoc, List.cons_append]
    obtain ⟨same, _⟩ := List.append_inj' cut rfl
    exact announced before deliveryId front same

/-- Entries without an acknowledgement have nothing to be checked. -/
theorem Announced.append (announced : Announced log)
    (quiet : ∀ entry ∈ entries, ∀ deliveryId, entry ≠ .returned (some deliveryId) .projected) :
    Announced (log ++ entries) := by
  induction entries generalizing log with
  | nil => rwa [List.append_nil]
  | cons entry rest ih =>
    have one : Announced (log ++ [entry]) :=
      announced.concat fun deliveryId is => absurd is (quiet entry List.mem_cons_self deliveryId)
    have more := ih one fun other inside => quiet other (List.mem_cons_of_mem _ inside)
    rwa [List.append_assoc, List.singleton_append] at more

end Logs

variable {retriesUsed : Nat} {phase : Phase} {current : List Item} {item : Item}

variable {outcomes : List Item} {attempt : Nat} {documents : Documents} {turn : Nat × Action}

/-! ### The phases of an attempt -/

section Phases

/-- The phase after the documents are written owes what their items answered. -/
theorem judge_phase (next : judge retriesUsed outcomes = .inr phase) :
    phase.unannounced = outcomes.filter announces := by
  unfold judge at next
  split at next
  next => cases next
  next =>
    split at next
    next => cases next
    next =>
      cases next
      rfl

theorem afterRound_phase (next : afterRound retriesUsed attempt current = .inr phase) :
    phase.unannounced = current.filter announces := by
  unfold afterRound at next
  split at next
  next =>
    cases next
    rfl
  next => exact judge_phase next

theorem judge_projected : judge retriesUsed outcomes ≠ .inl .projected := by
  unfold judge retryOrDeadLetter
  split
  · simp
  · split
    · split <;> simp
    · simp

theorem afterRound_projected : afterRound retriesUsed attempt current ≠ .inl .projected := by
  unfold afterRound
  split
  · simp
  · exact judge_projected

/-- Going on, an attempt announces an item or still owes it. -/
theorem proceed_phase {running : Running} (next : (proceed running).2 = .inr phase)
    (owed : item ∈ running.phase.unannounced) :
    .published running.enriched.deliveryId (announcement running.enriched item.1) ∈ (proceed running).1 ∨
      item ∈ phase.unannounced := by
  unfold proceed at next ⊢
  cases now : running.phase with
  | bulk answered rest =>
    rw [now] at owed next
    cases rest with
    | nil =>
      right
      rwa [afterRound_phase next]
    | cons request rest =>
      cases next
      exact .inr owed
  | retrying attempt current pending =>
    rw [now] at owed next
    cases pending with
    | nil =>
      right
      rwa [afterRound_phase next]
    | cons place pending =>
      cases next
      exact .inr owed
  | marking outcomes =>
    rw [now] at owed next
    cases next
    exact .inr owed
  | resolving outcomes =>
    rw [now] at owed next
    cases next
    exact .inr owed
  | publishing rest =>
    rw [now] at owed next
    cases rest with
    | nil => cases next
    | cons first rest =>
      cases next
      simp only [Phase.unannounced, List.mem_filter, List.mem_cons] at owed ⊢
      obtain ⟨rfl | later, isAnnounced⟩ := owed
      · left
        simp [isAnnounced]
      · exact .inr ⟨later, isAnnounced⟩

/-- An attempt that is acknowledged owes nothing. -/
theorem proceed_projected {running : Running} (ended : (proceed running).2 = .inl .projected) :
    running.phase = .publishing [] := by
  unfold proceed at ended
  split at ended
  · exact absurd ended afterRound_projected
  · exact absurd ended afterRound_projected
  · cases ended
  · cases ended
  · cases ended
  · assumption
  · cases ended

theorem proceed_quiet (running : Running) :
    ∀ entry ∈ (proceed running).1, ∃ deliveryId event, entry = .published deliveryId event := by
  intro entry inside
  unfold proceed at inside
  split at inside
  case h_5 =>
    dsimp only at inside
    split at inside
    · exact ⟨_, _, List.mem_singleton.mp inside⟩
    · cases inside
  all_goals cases inside

theorem caught_projected (retriesUsed status : Nat) (error : Option FailureShape) (phase : Phase) :
    caught retriesUsed status error phase ≠ .projected := by
  unfold caught retryOrDeadLetter
  cases phase with
  | bulk | retrying =>
    dsimp only
    split
    · simp
    · split <;> simp
  | marking | resolving | publishing => simp

theorem prepare_projected {event : DeliveredEvent} {readings : Readings} {ended : Ended}
    (is : prepare event readings = .inl ended) : ended ≠ .projected := by
  unfold prepare retryOrDeadLetter at is
  repeat' split at is
  all_goals cases is
  all_goals simp

end Phases

/-! ### Items and their places -/

section Items

/-- The items to be sent again are different ones, and none of them is announced. -/
def Phase.PendingOk : Phase → Prop
  | .retrying _ current pending =>
      pending.Nodup ∧ ∀ place ∈ pending, ∀ item, current[place]? = some item → announces item = false
  | _ => True

theorem pendingItems_nodup (current : List Item) : (pendingItems current).Nodup := by
  have places : (current.zipIdx.map Prod.snd).Nodup := by
    rw [List.zipIdx_map_snd]
    exact List.nodup_range'
  exact places.sublist (List.filter_sublist.map _)

theorem not_announces_of_retryable (retryable : hasKind .retryable item = true) :
    announces item = false := by
  obtain ⟨request, outcome⟩ := item
  cases outcome with
  | ok result => cases retryable
  | failed kind status reason => rfl

theorem retryable_of_pending {place : Nat} (pending : place ∈ pendingItems current)
    (there : current[place]? = some item) : hasKind .retryable item = true := by
  obtain ⟨⟨other, position⟩, inside, rfl⟩ := List.mem_map.mp pending
  obtain ⟨listed, retryable⟩ := List.mem_filter.mp inside
  rw [List.mem_zipIdx_iff_getElem?] at listed
  dsimp only at listed there retryable
  rw [there] at listed
  exact Option.some.inj listed ▸ retryable

theorem pendingOk_afterRound (next : afterRound retriesUsed attempt current = .inr phase) :
    phase.PendingOk := by
  unfold afterRound at next
  split at next
  next =>
    cases next
    exact ⟨pendingItems_nodup current, fun place pending item there =>
      not_announces_of_retryable (retryable_of_pending pending there)⟩
  next =>
    unfold judge at next
    split at next
    · cases next
    · split at next
      · cases next
      · cases next
        trivial

theorem pendingOk_proceed {running : Running} (ok : running.phase.PendingOk)
    (next : (proceed running).2 = .inr phase) : phase.PendingOk := by
  unfold proceed at next
  split at next
  · exact pendingOk_afterRound next
  · exact pendingOk_afterRound next
  · cases next
    trivial
  · cases next
    trivial
  · cases next
    trivial
  · cases next
  · cases next
    exact ok

theorem pendingOk_record (ok : phase.PendingOk) (outcome : BulkItemOutcome) :
    (phase.record outcome).PendingOk := by
  unfold Phase.record
  split
  · trivial
  next attempt current place pending =>
    obtain ⟨distinct, quiet⟩ := ok
    obtain ⟨apart, distinct⟩ := List.nodup_cons.mp distinct
    refine ⟨distinct, fun other inside item there => quiet other (List.mem_cons_of_mem _ inside) item ?_⟩
    have different : place ≠ other := fun same => apart (same ▸ inside)
    rwa [List.getElem?_modify_ne _ _ different] at there
  · exact ok

/-- What an attempt owes it still owes after another item. -/
theorem unannounced_record (ok : phase.PendingOk) (outcome : BulkItemOutcome)
    (owed : item ∈ phase.unannounced) : item ∈ (phase.record outcome).unannounced := by
  unfold Phase.record
  split
  next answered request rest =>
    simp only [Phase.unannounced, List.filter_append, List.mem_append] at owed ⊢
    exact .inl owed
  next attempt current place pending =>
    simp only [Phase.unannounced, List.mem_filter] at owed ⊢
    obtain ⟨inside, isAnnounced⟩ := owed
    refine ⟨?_, isAnnounced⟩
    obtain ⟨position, there⟩ := List.mem_iff_getElem?.mp inside
    -- the item stands at another place, as the one sent again was not announced
    have different : place ≠ position := by
      rintro rfl
      have quiet := ok.2 place List.mem_cons_self item there
      rw [quiet] at isAnnounced
      cases isAnnounced
    refine List.mem_iff_getElem?.mpr ⟨position, ?_⟩
    rwa [List.getElem?_modify_ne _ _ different]
  · exact owed

/-- The item that has just answered is owed when it is announced. -/
theorem recorded_owed {request : UpsertRequest} (next : phase.next = some request)
    {outcome : BulkItemOutcome} (isAnnounced : announces (request, outcome) = true) :
    (request, outcome) ∈ (phase.record outcome).unannounced := by
  unfold Phase.next at next
  split at next
  next answered first rest =>
    cases next
    simp [Phase.record, Phase.unannounced, isAnnounced]
  next attempt current place pending =>
    obtain ⟨item, there, is⟩ := Option.map_eq_some_iff.mp next
    subst is
    simp only [Phase.record, Phase.unannounced, List.mem_filter]
    refine ⟨List.mem_iff_getElem?.mpr ⟨place, ?_⟩, isAnnounced⟩
    rw [List.getElem?_modify_eq, there]
    rfl
  next => cases next

/-- A change that is answered is announced. -/
theorem announces_of_changes {order : HashOrder} {delivery : Delivery}
    (changed : changes order documents delivery = true) (answered : delivery.attempt ≠ .lost)
    (phase : Phase) :
    announces (delivery.request,
      phase.answer delivery.attempt (sendOne order documents delivery).2) = true := by
  unfold changes at changed
  obtain ⟨carried, wrote⟩ := Bool.and_eq_true_iff.mp changed
  cases attempt : delivery.attempt with
  | refused status error =>
    rw [attempt] at carried
    cases carried
  | lost => exact absurd attempt answered
  | served =>
    have outcome : phase.answer .served (sendOne order documents delivery).2 =
        (update order documents delivery.address (scriptBody delivery.request)).2.outcome := by
      cases phase <;> simp [Phase.answer, sendOne, attempt]
    rw [outcome]
    split at wrote
    next result is =>
      rw [is]
      exact wrote
    next => cases wrote

end Items

/-! ### Runs -/

/-- Every change is announced or owed by an attempt that goes on. -/
structure Inv (s : World) : Prop where
  tracked : ∀ deliveryId kind id, .changed deliveryId kind id ∈ s.log →
    Published s.log deliveryId kind id ∨
      ∃ number running, s.running number = some running ∧ running.Owes deliveryId kind id
  pending : ∀ number running, s.running number = some running → running.phase.PendingOk
  announced : Announced s.log

section Steps

variable {order : HashOrder} {s next : World} {number : Nat} {running : Running}

theorem inv_start (documents : Documents) : Inv (start documents) where
  tracked _ _ _ inside := nomatch inside
  pending _ _ is := nomatch is
  announced := announced_nil

/-- An attempt that owes nothing, and is not acknowledged, may end in any way. -/
theorem Inv.leave (inv : Inv s) (owesNothing : ∀ running, s.running number = some running →
      running.phase.unannounced = []) {entries : List Entry}
    (quiet : ∀ entry ∈ entries, (∀ deliveryId kind id, entry ≠ .changed deliveryId kind id) ∧
      ∀ deliveryId, entry ≠ .returned (some deliveryId) .projected) :
    Inv { s with running := Function.update s.running number none, log := s.log ++ entries } where
  tracked deliveryId kind id inside := by
    rcases List.mem_append.mp inside with before | new
    · rcases inv.tracked deliveryId kind id before with published | ⟨other, running, is, owes⟩
      · exact .inl (published.append entries)
      · refine .inr ⟨other, running, ?_, owes⟩
        have different : other ≠ number := by
          rintro rfl
          obtain ⟨_, item, owed, _⟩ := owes
          rw [owesNothing running is] at owed
          cases owed
        dsimp only
        rwa [Function.update_of_ne different]
    · exact absurd rfl ((quiet _ new).1 deliveryId kind id)
  pending other running is := by
    dsimp only at is
    by_cases same : other = number
    · subst same
      simp at is
    · rw [Function.update_of_ne same] at is
      exact inv.pending other running is
  announced := inv.announced.append fun entry inside => (quiet entry inside).2

/-- An attempt goes on; what it no longer owes it has announced. -/
theorem Inv.stay (inv : Inv s) (is : s.running number = some running) {entries : List Entry}
    (ok : phase.PendingOk)
    (quiet : ∀ entry ∈ entries, ∀ deliveryId, entry ≠ .returned (some deliveryId) .projected)
    (kept : ∀ item ∈ running.phase.unannounced, item ∈ phase.unannounced ∨
      Published entries running.enriched.deliveryId (entityKindOf item.1) item.1.id)
    (new : ∀ deliveryId kind id, .changed deliveryId kind id ∈ entries →
      Running.Owes { running with phase := phase } deliveryId kind id) :
    Inv ⟨documents, Function.update s.running number (some { running with phase := phase }),
      s.log ++ entries⟩ where
  tracked deliveryId kind id inside := by
    rcases List.mem_append.mp inside with before | added
    · rcases inv.tracked deliveryId kind id before with published | ⟨other, owing, there, owes⟩
      · exact .inl (published.append entries)
      · by_cases same : other = number
        · subst same
          rw [is] at there
          obtain rfl := Option.some.inj there
          obtain ⟨rfl, item, owed, rfl, rfl⟩ := owes
          rcases kept item owed with still | ⟨event, inEntries, isEvent⟩
          · exact .inr ⟨other, _, Function.update_self .., rfl, item, still, rfl, rfl⟩
          · exact .inl ⟨event, List.mem_append_right _ inEntries, isEvent⟩
        · exact .inr ⟨other, owing, (Function.update_of_ne same _ _).trans there, owes⟩
    · exact .inr ⟨number, _, Function.update_self .., new deliveryId kind id added⟩
  pending other later there := by
    dsimp only at there
    by_cases same : other = number
    · subst same
      rw [Function.update_self] at there
      exact Option.some.inj there ▸ ok
    · rw [Function.update_of_ne same] at there
      exact inv.pending other later there
  announced := inv.announced.append quiet

/-- A new attempt owes nothing yet. -/
theorem Inv.begin (inv : Inv s) (free : s.running number = none) (enriched : Enriched) (retriesUsed : Nat)
    (requests : List UpsertRequest) :
    Inv ⟨s.documents,
      Function.update s.running number (some ⟨enriched, retriesUsed, .bulk [] requests⟩), s.log⟩ where
  tracked deliveryId kind id inside := by
    rcases inv.tracked deliveryId kind id inside with published | ⟨other, owing, there, owes⟩
    · exact .inl published
    · refine .inr ⟨other, owing, ?_, owes⟩
      have different : other ≠ number := by
        rintro rfl
        rw [free] at there
        cases there
      exact (Function.update_of_ne different _ _).trans there
  pending other later there := by
    dsimp only at there
    by_cases same : other = number
    · subst same
      rw [Function.update_self] at there
      exact Option.some.inj there ▸ trivial
    · rw [Function.update_of_ne same] at there
      exact inv.pending other later there
  announced := inv.announced

/-- An acknowledgement: nothing of its delivery is owed any more. -/
theorem Inv.acknowledge (inv : Inv s) (is : s.running number = some running)
    (settled : ∀ number other, s.running number = some other →
      other.enriched.deliveryId = running.enriched.deliveryId → other.phase.unannounced = []) :
    Inv { s with
      running := Function.update s.running number none
      log := s.log ++ [.returned (some running.enriched.deliveryId) .projected] } where
  tracked deliveryId kind id inside := by
    rcases List.mem_append.mp inside with before | new
    · rcases inv.tracked deliveryId kind id before with published | ⟨other, owing, there, owes⟩
      · exact .inl (published.append _)
      · refine .inr ⟨other, owing, ?_, owes⟩
        have different : other ≠ number := by
          rintro rfl
          obtain ⟨_, item, owed, _⟩ := owes
          rw [is] at there
          obtain rfl := Option.some.inj there
          rw [settled other running is rfl] at owed
          cases owed
        dsimp only
        rwa [Function.update_of_ne different]
    · cases List.mem_singleton.mp new
  pending other later there := by
    dsimp only at there
    by_cases same : other = number
    · subst same
      simp at there
    · rw [Function.update_of_ne same] at there
      exact inv.pending other later there
  announced := by
    refine inv.announced.concat fun deliveryId isEntry kind id changed => ?_
    simp only [Entry.returned.injEq, Option.some.injEq, and_true] at isEntry
    subst isEntry
    rcases inv.tracked _ kind id changed with published | ⟨other, owing, there, same, item, owed, _⟩
    · exact published
    · rw [settled other owing there same] at owed
      cases owed

theorem Inv.step (inv : Inv s) (unbroken : Unbroken order s turn)
    (stepped : step order s turn = some next) : Inv next := by
  obtain ⟨number, action⟩ := turn
  unfold Project.step at stepped
  unfold Unbroken at unbroken
  dsimp only at stepped unbroken
  cases now : s.running number with
  | none =>
    rw [now] at stepped
    cases action with
    | receive event readings =>
      dsimp only at stepped
      cases prepared : prepare event readings with
      | inl ended =>
        rw [prepared] at stepped
        obtain rfl := Option.some.inj stepped
        have left : Inv { s with
            running := Function.update s.running number none
            log := s.log ++ [.returned (event.payload.map Enriched.deliveryId) ended] } := by
          refine inv.leave (fun running is => by rw [now] at is; cases is) ?_
          intro entry inside
          obtain rfl := List.mem_singleton.mp inside
          refine ⟨fun _ _ _ is => (nomatch is), fun deliveryId is => ?_⟩
          exact prepare_projected prepared (Entry.returned.inj is).2
        have same : Function.update s.running number none = s.running := by
          rw [← now, Function.update_eq_self]
        rwa [same] at left
      | inr next =>
        obtain ⟨enriched, phase⟩ := next
        rw [prepared] at stepped
        obtain rfl := Option.some.inj stepped
        unfold prepare at prepared
        repeat' split at prepared
        all_goals cases prepared
        exact inv.begin now enriched _ _
    | send | goOn | fail | crash => cases stepped
  | some running =>
    have condition := unbroken running now
    rw [now] at stepped
    cases action with
    | receive => cases stepped
    | send attempt =>
      dsimp only at stepped condition
      obtain ⟨request, isNext, rfl⟩ := Option.map_eq_some_iff.mp stepped
      have ok := inv.pending number running now
      refine inv.stay now (pendingOk_record ok _) ?_ ?_ ?_
      · intro entry inside deliveryId is
        subst is
        split at inside
        · cases List.mem_singleton.mp inside
        · cases inside
      · exact fun item owed => .inl (unannounced_record ok _ owed)
      · intro deliveryId kind id inside
        split at inside
        next changed =>
          obtain ⟨rfl, rfl, rfl⟩ := Entry.changed.inj (List.mem_singleton.mp inside)
          have answered : attempt ≠ .lost := by
            intro isLost
            rw [condition isLost request isNext] at changed
            cases changed
          have isAnnounced := announces_of_changes changed answered running.phase
          exact ⟨rfl, _, recorded_owed isNext isAnnounced, rfl, rfl⟩
        next => cases inside
    | goOn =>
      dsimp only at stepped condition
      obtain rfl := Option.some.inj stepped
      unfold World.turn
      cases follows : (proceed running).2 with
      | inr phase =>
        refine inv.stay now (pendingOk_proceed (inv.pending number running now) follows) ?_ ?_ ?_
        · intro entry inside deliveryId is
          obtain ⟨_, _, published⟩ := proceed_quiet running entry inside
          rw [published] at is
          cases is
        · intro item owed
          rcases proceed_phase follows owed with published | still
          · exact .inr ⟨_, published, rfl, rfl⟩
          · exact .inl still
        · intro deliveryId kind id inside
          obtain ⟨_, _, published⟩ := proceed_quiet running _ inside
          cases published
      | inl ended =>
        have owed := condition ended follows
        have nothing : (proceed running).1 = [] := by
          unfold proceed at follows ⊢
          split at follows <;> first | rfl | cases follows
        dsimp only
        rw [nothing, List.append_nil]
        split at owed
        next projected =>
          subst projected
          exact inv.acknowledge now owed
        next other =>
          refine inv.leave (fun running' is => ?_) fun entry inside => ?_
          · rw [now] at is
            exact Option.some.inj is ▸ owed
          · obtain rfl := List.mem_singleton.mp inside
            exact ⟨fun _ _ _ is => (nomatch is), fun deliveryId is => other (Entry.returned.inj is).2⟩
    | fail status error =>
      dsimp only at stepped condition
      obtain rfl := Option.some.inj stepped
      unfold World.turn
      dsimp only
      rw [List.append_nil]
      refine inv.leave (fun running' is => ?_) fun entry inside => ?_
      · rw [now] at is
        exact Option.some.inj is ▸ condition
      · obtain rfl := List.mem_singleton.mp inside
        exact ⟨fun _ _ _ is => (nomatch is), fun deliveryId is =>
          caught_projected _ _ _ _ (Entry.returned.inj is).2⟩
    | crash =>
      dsimp only at stepped condition
      obtain rfl := Option.some.inj stepped
      have left : Inv { s with
          running := Function.update s.running number none, log := s.log ++ [] } := by
        refine inv.leave (fun running' is => ?_) fun _ inside => nomatch inside
        rw [now] at is
        exact Option.some.inj is ▸ condition
      rwa [List.append_nil] at left

/-- Without a broken attempt, what a delivery has changed is announced when it is acknowledged. -/
theorem announced_of_unbroken (order : HashOrder) (documents : Documents) (turns : List (Nat × Action))
    (unbroken : ∀ turn ∈ (worker order).taken turns (start documents), Unbroken order turn.1 turn.2) :
    ∀ world ∈ (worker order).visited turns (start documents), Announced world.log := by
  have inv : ∀ world ∈ (worker order).visited turns (start documents), Inv world :=
    Automaton.visited_of_taken (fun _ _ _ holds condition stepped => Inv.step holds condition stepped)
      (inv_start documents) unbroken
  exact fun world reached => (inv world reached).announced

end Steps

/-! ### One attempt after another -/

section Alone

variable {order : HashOrder} {number : Nat}

/-- The condition on one turn when no other attempt is under way, as a test. -/
def quietly (turn : World × (Nat × Action)) : Bool :=
  match turn.1.running turn.2.1 with
  | none => true
  | some running =>
      match turn.2.2 with
      | .receive _ _ => true
      | .send attempt => attempt ≠ .lost
      | .goOn =>
          match (proceed running).2 with
          | .inl ended => ended = .projected || running.phase.unannounced.isEmpty
          | .inr _ => true
      | .fail _ _ => running.phase.unannounced.isEmpty
      | .crash => running.phase.unannounced.isEmpty

theorem running_step {s next : World} (stepped : step order s turn = some next) {other : Nat}
    (elsewhere : other ≠ turn.1) : next.running other = s.running other := by
  have untouched : ∀ running : Option Running,
      Function.update s.running turn.1 running other = s.running other :=
    fun running => Function.update_of_ne elsewhere running s.running
  unfold step at stepped
  split at stepped
  next =>
    split at stepped
    · cases stepped
      rfl
    · cases stepped
      exact untouched _
  next =>
    obtain ⟨request, _, rfl⟩ := Option.map_eq_some_iff.mp stepped
    exact untouched _
  next =>
    cases stepped
    unfold World.turn
    split <;> exact untouched _
  next =>
    cases stepped
    exact untouched _
  next =>
    cases stepped
    exact untouched _
  next => cases stepped

theorem unbroken_of_quietly {s : World} {action : Action}
    (alone : ∀ other, other ≠ number → s.running other = none)
    (quiet : quietly (s, (number, action)) = true) : Unbroken order s (number, action) := by
  intro running now
  unfold quietly at quiet
  dsimp only at now quiet ⊢
  rw [now] at quiet
  dsimp only at quiet
  cases action with
  | receive => trivial
  | send attempt =>
    intro isLost
    simp only [isLost, ne_eq, not_true_eq_false, decide_false, Bool.false_eq_true] at quiet
  | goOn =>
    intro ended follows
    dsimp only at quiet
    rw [follows] at quiet
    split
    next projected =>
      subst projected
      intro other running' there _
      by_cases same : other = number
      · subst same
        rw [now] at there
        obtain rfl := Option.some.inj there
        rw [proceed_projected follows]
        rfl
      · rw [alone other same] at there
        cases there
    next unfinished => simpa [unfinished] using quiet
  | fail => exact List.isEmpty_iff.mp quiet
  | crash => exact List.isEmpty_iff.mp quiet

/-- A worker that has one attempt at a time breaks none off, by a test of its run. -/
theorem unbroken_of_alone (documents : Documents) {turns : List (Nat × Action)}
    (alone : ∀ turn ∈ turns, turn.1 = number)
    (quiet : ((worker order).taken turns (start documents)).all quietly = true) :
    ∀ turn ∈ (worker order).taken turns (start documents), Unbroken order turn.1 turn.2 := by
  have others : ∀ turn ∈ (worker order).taken turns (start documents),
      ∀ other, other ≠ number → turn.1.running other = none := by
    suffices general : ∀ turns : List (Nat × Action), (∀ turn ∈ turns, turn.1 = number) →
        ∀ s : World, (∀ other, other ≠ number → s.running other = none) →
          ∀ turn ∈ (worker order).taken turns s, ∀ other, other ≠ number → turn.1.running other = none from
      general turns alone (start documents) fun _ _ => rfl
    intro turns
    induction turns with
    | nil => exact fun _ _ _ turn inside => nomatch inside
    | cons first rest ih =>
      intro alone s none_ turn made
      simp only [Automaton.taken] at made
      split at made
      next => cases made
      next next stepped =>
        rcases List.mem_cons.mp made with rfl | later
        · exact none_
        · refine ih (fun other inside => alone other (List.mem_cons_of_mem _ inside)) next ?_ turn later
          intro other elsewhere
          have own := alone first List.mem_cons_self
          rw [running_step stepped (own ▸ elsewhere)]
          exact none_ other elsewhere
  intro turn made
  obtain ⟨s, which, action⟩ := turn
  have own : which = number := alone _ (Automaton.mem_of_mem_taken made)
  subst own
  exact unbroken_of_quietly (others _ made) (List.all_eq_true.mp quiet _ made)

end Alone

/-! ### A lost announcement -/

def pullRequestRequest : UpsertRequest where
  entityAlias := .pullRequests
  id := "42-7"
  routing := "42"
  doc := [⟨"document_version", .number 1⟩].toAList
  documentVersion := 1
  versioned := rfl
  union := ∅
  noRelation := by decide
  createOnly := ∅
  remove := []

def commitRequest : UpsertRequest where
  entityAlias := .commits
  id := "42-abc"
  routing := "42"
  doc := [⟨"document_version", .number 1⟩].toAList
  documentVersion := 1
  versioned := rfl
  union := ∅
  noRelation := by decide
  createOnly := ∅
  remove := []

def delivered (deliveryCount : Nat) : Action :=
  .receive ⟨some ⟨"d", 42, "c"⟩, deliveryCount⟩ ⟨true, some true, [pullRequestRequest, commitRequest]⟩

def busy : Attempt := .refused 429 (some ⟨some "es_rejected_execution_exception", none⟩)

/-- The pull request is written in the first attempt and the commit, after three refusals, in the second. -/
def partialFailure : List (Nat × Action) :=
  [delivered 1, .send .served, .send busy, .goOn, .send busy, .goOn, .send busy, .goOn,
    delivered 2, .send .served, .send .served, .goOn, .goOn, .goOn, .goOn, .goOn, .goOn].map fun action =>
      (0, action)

def plainOrder : HashOrder := ⟨id, fun _ => .rfl⟩

theorem log_partialFailure :
    ((worker plainOrder).visited partialFailure (start fun _ => none)).getLast?.map World.log =
      some [.changed "d" .pullRequest "42-7",
        .returned (some "d") (.retry "index_unavailable"),
        .changed "d" .commit "42-abc",
        .published "d" ⟨42, .commit, "42-abc", 1, "c"⟩,
        .returned (some "d") .projected] := by
  decide

/-- The pull request answers `noop` in the attempt that is acknowledged, and is never announced. -/
theorem not_announced : ¬ ∀ (order : HashOrder) (documents : Documents) (turns : List (Nat × Action)),
    ∀ world ∈ (worker order).visited turns (start documents), Announced world.log := by
  intro all
  obtain ⟨world, isLast, isLog⟩ := Option.map_eq_some_iff.mp log_partialFailure
  have announced := all plainOrder (fun _ => none) partialFailure world (List.mem_of_getLast? isLast)
  rw [isLog] at announced
  obtain ⟨event, inside, isKind, _⟩ := announced
    [.changed "d" .pullRequest "42-7", .returned (some "d") (.retry "index_unavailable"),
      .changed "d" .commit "42-abc", .published "d" ⟨42, .commit, "42-abc", 1, "c"⟩]
    "d" [] rfl .pullRequest "42-7" List.mem_cons_self
  simp only [List.mem_cons, reduceCtorEq, Entry.published.injEq, true_and, List.not_mem_nil, or_false,
    false_or] at inside
  subst inside
  cases isKind

/-- The pull request is not there in the first attempt, and is written in the second. -/
def wholeSuccess : List (Nat × Action) :=
  [delivered 1, .send busy, .send busy, .goOn, .send busy, .send busy, .goOn, .send busy, .send busy, .goOn,
    delivered 2, .send .served, .send .served, .goOn, .goOn, .goOn, .goOn, .goOn, .goOn].map fun action =>
      (0, action)

theorem announced_of_unbroken_wholeSuccess :
    ∃ world ∈ (worker plainOrder).visited wholeSuccess (start fun _ => none),
      Announced world.log ∧ world.log.getLast? = some (.returned (some "d") .projected) := by
  have run : ((worker plainOrder).visited wholeSuccess (start fun _ => none)).getLast?.map
      (fun world => world.log.getLast?) = some (some (.returned (some "d") .projected)) := by
    decide
  obtain ⟨world, isLast, isLog⟩ := Option.map_eq_some_iff.mp run
  have reached := List.mem_of_getLast? isLast
  have alone : ∀ turn ∈ wholeSuccess, turn.1 = 0 := by
    intro turn inside
    obtain ⟨action, _, rfl⟩ := List.mem_map.mp inside
    rfl
  exact ⟨world, reached, announced_of_unbroken plainOrder (fun _ => none) wholeSuccess
    (unbroken_of_alone _ alone (by decide)) world reached, isLog⟩

end PrSearch.Project
