import PrSearch.Authz.Session

/-! # Logout

`SessionStore` on one Redis, for any number of requests. Every command is one step; it may fail
before it is carried out, and its reply may be lost after it. Redis has its own clock, by which keys
run out, and each request reads the clock of its process.

Beside the store the model keeps when each session was issued, the sessions whose key a logout has
deleted, those whose logout has completed, and for each `load` whether a logout of its session had
completed when it started. The touch of a `load` has no guard: when it is carried out after the
delete of a logout, the session is back. That apart, a session that was logged out stays away. No
session is returned at its absolute deadline or after it, whatever the order.
-/
namespace PrSearch.Authz.Session

open Lib

/-- A key of Redis with its time to live. -/
structure Entry where
  value : Json
  expiresAt : Int

structure LoadedSession where
  session : SessionRecord
  touched : Bool
  deriving DecidableEq, Repr

/-- Where a request is. `late`: a logout of the session had completed when `load` started. `gone`:
the sessions that the request has deleted as logged out. -/
inductive Call
  | idle
  | reading (late : Bool) (sessionId : String)
  | judging (late : Bool) (sessionId : String) (raw : Option Json)
  | discarding (sessionId : String)
  | touching (late : Bool) (session : SessionRecord)
  | returned (late : Bool) (loaded : LoadedSession) (now : Int)
  | missing
  | destroying (sessionId : String)
  | scanning (userId : String) (gone : List String) (removed : Nat)
  | sifting (userId : String) (gone : List String) (removed : Nat) (doomed rest : List String)
      (last : Bool)
  | destroyed (gone : List String) (removed : Nat)
  | done (removed : Nat)
  | thrown

/-- The request waits for Redis. -/
def Call.awaits : Call → Bool
  | reading .. | discarding _ | touching .. | destroying _ | scanning .. | sifting .. => true
  | _ => false

structure World (C : Type) where
  /-- The clock of Redis, in milliseconds. -/
  clock : Int
  redis : String → Option Entry
  calls : C → Call
  issued : String → Option Int
  erased : List String
  loggedOut : List String

inductive Action (C : Type)
  | tick (clock : Int)
  | create (session : SessionRecord) (now : Int)
  | load (c : C) (sessionId : String)
  | get (c : C)
  | judge (c : C) (now : Int)
  | touch (c : C) (replies : Bool)
  | destroy (c : C) (sessionId : String)
  | destroyAllForUser (c : C) (userId : String)
  | scan (c : C) (keys : List String) (last : Bool)
  | del (c : C) (replies : Bool)
  | finish (c : C)
  | fails (c : C)

namespace World

variable {C : Type} [DecidableEq C]

def initial (clock : Int) : World C where
  clock := clock
  redis := fun _ => none
  calls := fun _ => .idle
  issued := fun _ => none
  erased := []
  loggedOut := []

def setCall (s : World C) (c : C) (call : Call) : World C :=
  { s with calls := Function.update s.calls c call }

/-- `GET`: a key that has run out is not there. -/
def read (s : World C) (sessionId : String) : Option Json :=
  ((s.redis sessionId).filter fun entry => s.clock < entry.expiresAt).map Entry.value

/-- `SET … EX` -/
def write (s : World C) (session : SessionRecord) (now : Int) : World C :=
  { s with
    redis := Function.update s.redis session.sessionId
      (some ⟨session.json, s.clock + remainingTtlSeconds session now * 1000⟩) }

/-- `DEL` -/
def erase (s : World C) (keys : List String) : World C :=
  { s with redis := fun sessionId => if sessionId ∈ keys then none else s.redis sessionId }

/-- `DEL` by a logout. -/
def logOut (s : World C) (keys : List String) : World C :=
  { s.erase keys with erased := keys ++ s.erased }

def conclude (s : World C) (gone : List String) : World C :=
  { s with loggedOut := gone ++ s.loggedOut }

/-- The reply of `DEL`. -/
def count (s : World C) (keys : List String) : Nat :=
  (keys.dedup.filter fun sessionId => (s.read sessionId).isSome).length

/-- What `load` does with what it read. -/
def judged (late : Bool) (sessionId : String) (raw : Option Json) (now : Int) : Call :=
  match raw with
  | none => .missing
  | some value =>
      match parseSession value with
      | none => .discarding sessionId
      | some session =>
          match expiryOf session now with
          | some _ => .discarding session.sessionId
          | none =>
              if now - session.lastSeenAt < touchIntervalMs then
                .returned late ⟨session, false⟩ now
              else .touching late (session.touch now)

/-- After a page of keys: the next page, unless the cursor is back at its start. -/
def scanned (userId : String) (gone : List String) (removed : Nat) (last : Bool) : Call :=
  if last then .destroyed gone removed else .scanning userId gone removed

/-- Whether a key holds a session of the user. -/
def owns (userId : String) (raw : Option Json) : Bool :=
  (raw.bind parseSession).any fun session => session.userId = userId

def step (s : World C) : Action C → Option (World C)
  | .tick clock => some { s with clock := clock }
  | .create session now =>
      -- `createSessionId` repeats no id, nor one that a request has named before
      if s.issued session.sessionId = none ∧ session.sessionId ∉ s.erased then
        some { s.write session now with
          issued := Function.update s.issued session.sessionId (some session.issuedAt) }
      else none
  | .load c sessionId =>
      match s.calls c with
      | .idle => some (s.setCall c (.reading (sessionId ∈ s.loggedOut) sessionId))
      | _ => none
  | .get c =>
      match s.calls c with
      | .reading late sessionId => some (s.setCall c (.judging late sessionId (s.read sessionId)))
      | .sifting userId gone removed doomed (key :: rest) last =>
          some (s.setCall c (.sifting userId gone removed
            (if owns userId (s.read key) then doomed ++ [key] else doomed) rest last))
      | _ => none
  | .judge c now =>
      match s.calls c with
      | .judging late sessionId raw => some (s.setCall c (judged late sessionId raw now))
      | _ => none
  | .touch c replies =>
      match s.calls c with
      | .touching late session =>
          some ((s.write session session.lastSeenAt).setCall c
            (if replies then .returned late ⟨session, true⟩ session.lastSeenAt else .thrown))
      | _ => none
  | .destroy c sessionId =>
      match s.calls c with
      | .idle => some (s.setCall c (.destroying sessionId))
      | _ => none
  | .destroyAllForUser c userId =>
      match s.calls c with
      | .idle => some (s.setCall c (.scanning userId [] 0))
      | _ => none
  | .scan c keys last =>
      match s.calls c with
      | .scanning userId gone removed =>
          some (s.setCall c (.sifting userId gone removed [] keys last))
      | _ => none
  | .del c replies =>
      match s.calls c with
      | .discarding sessionId =>
          some ((s.erase [sessionId]).setCall c (if replies then .missing else .thrown))
      | .destroying sessionId =>
          some ((s.logOut [sessionId]).setCall c
            (if replies then .destroyed [sessionId] 0 else .thrown))
      | .sifting userId gone removed doomed [] last =>
          -- `if (doomed.length > 0)`: without keys the command is not sent
          some ((s.logOut doomed).setCall c
            (if doomed = [] ∨ replies then
              scanned userId (doomed ++ gone) (removed + s.count doomed) last
            else .thrown))
      | _ => none
  | .finish c =>
      match s.calls c with
      | .destroyed gone removed => some ((s.conclude gone).setCall c (.done removed))
      | _ => none
  | .fails c => if (s.calls c).awaits then some (s.setCall c .thrown) else none

end World

def serving (C : Type) [DecidableEq C] : Automaton (World C) (Action C) := ⟨World.step⟩

/-! ### What is promised -/

def Call.answer : Call → Option (Bool × LoadedSession × Int)
  | returned late loaded now => some (late, loaded, now)
  | _ => none

def Call.touched : Call → Option SessionRecord
  | touching _ session => some session
  | _ => none

variable {call : Call} {session : SessionRecord} {sessionId : String}

variable {late : Bool} {issued : String → Option Int} {raw : Option Json}
  {erased loggedOut gone : List String}

namespace World

variable {C : Type}

/-- No `load` that started after a logout had completed has returned the session. -/
def LogoutIsFinal (s : World C) : Prop :=
  ∀ c loaded now, (s.calls c).answer ≠ some (true, loaded, now)

/-- A session that was returned was judged before the deadline that its issue sets. -/
def EndsAbsolutely (s : World C) : Prop :=
  ∀ c late loaded now, (s.calls c).answer = some (late, loaded, now) →
    ∃ issuedAt ∈ s.issued loaded.session.sessionId, now < issuedAt + absoluteTimeoutMs

/-- A touch is carried out before the delete of any logout of its session. -/
def Timely (s : World C) : Action C → Prop
  | .touch c _ => ∀ session ∈ (s.calls c).touched, session.sessionId ∉ s.erased
  | _ => True

instance (s : World C) : DecidablePred s.Timely
  | .touch .. => inferInstanceAs (Decidable (∀ _ ∈ _, _))
  | .tick _ | .create .. | .load .. | .get _ | .judge .. | .destroy .. | .destroyAllForUser ..
  | .scan .. | .del .. | .finish _ | .fails _ => inferInstanceAs (Decidable True)

theorem eq_returned_of_answer {loaded : LoadedSession} {now : Int}
    (answered : call.answer = some (late, loaded, now)) : call = .returned late loaded now := by
  cases call with
  | returned late' loaded' now' =>
    cases answered
    rfl
  | idle | reading | judging | discarding | touching | missing | destroying | scanning | sifting
  | destroyed | done | thrown => cases answered

/-! ### Every returned session was issued as it says -/

/-- A stored value that is a session is the session of its key. -/
def Genuine (issued : String → Option Int) (sessionId : String) (raw : Json) : Prop :=
  ∀ session ∈ parseSession raw,
    session.sessionId = sessionId ∧ issued sessionId = some session.issuedAt

def CallGenuine (issued : String → Option Int) : Call → Prop
  | .judging _ sessionId raw => ∀ value ∈ raw, Genuine issued sessionId value
  | .touching _ session =>
      issued session.sessionId = some session.issuedAt ∧
        session.lastSeenAt < session.issuedAt + absoluteTimeoutMs
  | .returned _ loaded now =>
      issued loaded.session.sessionId = some loaded.session.issuedAt ∧
        now < loaded.session.issuedAt + absoluteTimeoutMs
  | _ => True

structure AllGenuine (s : World C) : Prop where
  stored : ∀ sessionId, ∀ entry ∈ s.redis sessionId, Genuine s.issued sessionId entry.value
  calls : ∀ c, CallGenuine s.issued (s.calls c)

variable {s : World C}

theorem AllGenuine.endsAbsolutely (genuine : s.AllGenuine) : s.EndsAbsolutely := by
  intro c late loaded now answered
  have call := genuine.calls c
  rw [eq_returned_of_answer answered] at call
  exact ⟨loaded.session.issuedAt, call.1, call.2⟩

theorem AllGenuine.initial (clock : Int) : (World.initial clock : World C).AllGenuine where
  stored := fun _ _ stored => by cases stored
  calls := fun _ => trivial

/-- What is issued stays issued. -/
theorem CallGenuine.mono {later : String → Option Int} (genuine : CallGenuine issued call)
    (grows : ∀ sessionId at_, issued sessionId = some at_ → later sessionId = some at_) :
    CallGenuine later call := by
  cases call with
  | judging late sessionId raw =>
    intro value held session parsed
    obtain ⟨named, issuedAt⟩ := genuine value held session parsed
    exact ⟨named, grows _ _ issuedAt⟩
  | touching late session => exact ⟨grows _ _ genuine.1, genuine.2⟩
  | returned late loaded now => exact ⟨grows _ _ genuine.1, genuine.2⟩
  | idle | reading | discarding | missing | destroying | scanning | sifting | destroyed | done
  | thrown => trivial

/-- What `SET` stores is the session of its key. -/
theorem genuine_json (known : issued session.sessionId = some session.issuedAt) :
    Genuine issued session.sessionId session.json := by
  intro parsed read
  obtain ⟨named, issuedAt⟩ := parseSession_json_eq_some read
  exact ⟨named, by rw [issuedAt]; exact known⟩

theorem genuine_read (genuine : s.AllGenuine) :
    ∀ value ∈ s.read sessionId, Genuine s.issued sessionId value := by
  intro value stored
  simp only [read, Option.mem_def, Option.map_eq_some_iff, Option.filter_eq_some_iff] at stored
  obtain ⟨entry, ⟨present, -⟩, rfl⟩ := stored
  exact genuine.stored sessionId entry present

theorem callGenuine_judged (genuine : ∀ value ∈ raw, Genuine issued sessionId value) (late : Bool)
    (now : Int) : CallGenuine issued (judged late sessionId raw now) := by
  unfold judged
  cases raw with
  | none => trivial
  | some value =>
    cases parsed : parseSession value with
    | none => simp [parsed, CallGenuine]
    | some session =>
      obtain ⟨named, issuedAt⟩ := genuine value rfl session parsed
      subst named
      cases alive : expiryOf session now with
      | some reason => simp [parsed, alive, CallGenuine]
      | none =>
        have deadline := (before_deadlines alive).1
        simp only [parsed, alive]
        split
        · exact ⟨issuedAt, deadline⟩
        · exact ⟨issuedAt, deadline⟩

theorem AllGenuine.write (genuine : s.AllGenuine)
    (known : s.issued session.sessionId = some session.issuedAt) (now : Int) :
    (s.write session now).AllGenuine where
  stored := by
    intro sessionId entry stored
    by_cases same : sessionId = session.sessionId
    · subst same
      simp only [World.write, Function.update_self, Option.mem_def, Option.some.injEq] at stored
      subst stored
      exact genuine_json known
    · simp only [World.write, Function.update_of_ne same] at stored
      exact genuine.stored sessionId entry stored
  calls := genuine.calls

theorem AllGenuine.erase (genuine : s.AllGenuine) (keys : List String) :
    (s.erase keys).AllGenuine where
  stored := by
    intro sessionId entry stored
    simp only [World.erase] at stored
    split at stored
    · cases stored
    · exact genuine.stored sessionId entry stored
  calls := genuine.calls

theorem AllGenuine.logOut (genuine : s.AllGenuine) (keys : List String) :
    (s.logOut keys).AllGenuine :=
  ⟨(genuine.erase keys).stored, (genuine.erase keys).calls⟩

theorem AllGenuine.conclude (genuine : s.AllGenuine) (gone : List String) :
    (s.conclude gone).AllGenuine :=
  ⟨genuine.stored, genuine.calls⟩

theorem AllGenuine.create (genuine : s.AllGenuine) (fresh : s.issued session.sessionId = none)
    (now : Int) :
    ({ s.write session now with
      issued := Function.update s.issued session.sessionId (some session.issuedAt) } :
      World C).AllGenuine := by
  have grows : ∀ sessionId at_, s.issued sessionId = some at_ →
      Function.update s.issued session.sessionId (some session.issuedAt) sessionId = some at_ := by
    intro sessionId at_ issuedAt
    have other : sessionId ≠ session.sessionId := by
      rintro rfl
      rw [fresh] at issuedAt
      cases issuedAt
    rw [Function.update_of_ne other, issuedAt]
  have issued : ({ s with
      issued := Function.update s.issued session.sessionId (some session.issuedAt) } :
      World C).AllGenuine := by
    constructor
    · intro sessionId entry stored parsed read
      obtain ⟨named, issuedAt⟩ := genuine.stored sessionId entry stored parsed read
      exact ⟨named, grows _ _ issuedAt⟩
    · exact fun c => (genuine.calls c).mono grows
  have known : Function.update s.issued session.sessionId (some session.issuedAt)
      session.sessionId = some session.issuedAt := Function.update_self ..
  exact issued.write known now

variable [DecidableEq C]

theorem AllGenuine.setCall (genuine : s.AllGenuine) (c : C) (fine : CallGenuine s.issued call) :
    (s.setCall c call).AllGenuine where
  stored := genuine.stored
  calls := by
    intro other
    by_cases same : other = c
    · subst same
      simpa [World.setCall] using fine
    · simpa [World.setCall, same] using genuine.calls other

variable {next : World C} {action : Action C}

/-- Every step keeps the issue of every session. -/
theorem AllGenuine.step (genuine : s.AllGenuine) (stepped : s.step action = some next) :
    next.AllGenuine := by
  cases action <;> simp only [World.step] at stepped
  case tick clock =>
    cases stepped
    exact ⟨genuine.stored, genuine.calls⟩
  case create session now =>
    split at stepped
    next fresh =>
      cases stepped
      exact genuine.create fresh.1 now
    · cases stepped
  case load c sessionId =>
    split at stepped
    · cases stepped
      exact genuine.setCall c trivial
    · cases stepped
  case get c =>
    split at stepped
    · cases stepped
      exact genuine.setCall c (genuine_read genuine)
    · cases stepped
      exact genuine.setCall c trivial
    · cases stepped
  case judge c now =>
    split at stepped
    next late sessionId raw judging =>
      cases stepped
      have call := genuine.calls c
      rw [judging] at call
      exact genuine.setCall c (callGenuine_judged call late now)
    · cases stepped
  case touch c replies =>
    split at stepped
    next late session touching =>
      cases stepped
      have call := genuine.calls c
      rw [touching] at call
      have written := genuine.write call.1 session.lastSeenAt
      refine written.setCall c ?_
      cases replies with
      | true => exact call
      | false => trivial
    · cases stepped
  case destroy c sessionId | destroyAllForUser c userId | scan c keys last =>
    split at stepped
    · cases stepped
      exact genuine.setCall c trivial
    · cases stepped
  case del c replies =>
    split at stepped
    · cases stepped
      refine (genuine.erase _).setCall c ?_
      cases replies <;> trivial
    · cases stepped
      refine (genuine.logOut _).setCall c ?_
      cases replies <;> trivial
    · cases stepped
      refine (genuine.logOut _).setCall c ?_
      unfold scanned
      split
      · split <;> trivial
      · trivial
    · cases stepped
  case finish c =>
    split at stepped
    · cases stepped
      exact (genuine.conclude _).setCall c trivial
    · cases stepped
  case fails c =>
    split at stepped
    · cases stepped
      exact genuine.setCall c trivial
    · cases stepped

/-! ### A session that was logged out stays away -/

/-- What a request that started after a logout may still hold, and what it has deleted. -/
def CallLoggedOut (erased loggedOut : List String) : Call → Prop
  | .reading late sessionId => late → sessionId ∈ loggedOut
  | .judging late _ raw => late → raw = none
  | .touching late _ | .returned late _ _ => late = false
  | .scanning _ gone _ | .sifting _ gone .. | .destroyed gone _ => ∀ key ∈ gone, key ∈ erased
  | _ => True

structure StaysLoggedOut (s : World C) : Prop where
  absent : ∀ sessionId ∈ s.erased, s.redis sessionId = none
  erased : ∀ sessionId ∈ s.loggedOut, sessionId ∈ s.erased
  calls : ∀ c, CallLoggedOut s.erased s.loggedOut (s.calls c)

omit [DecidableEq C] in
theorem StaysLoggedOut.logoutIsFinal (stays : s.StaysLoggedOut) : s.LogoutIsFinal := by
  intro c loaded now answered
  have call := stays.calls c
  rw [eq_returned_of_answer answered] at call
  cases call

omit [DecidableEq C] in
theorem StaysLoggedOut.initial (clock : Int) : (World.initial clock : World C).StaysLoggedOut where
  absent := List.forall_mem_nil _
  erased := List.forall_mem_nil _
  calls := fun _ => trivial

omit [DecidableEq C] in
/-- More logouts leave a request as it is. -/
theorem CallLoggedOut.mono {erased' loggedOut' : List String}
    (fine : CallLoggedOut erased loggedOut call) (more : ∀ key ∈ erased, key ∈ erased')
    (later : ∀ key ∈ loggedOut, key ∈ loggedOut') : CallLoggedOut erased' loggedOut' call := by
  cases call with
  | reading late sessionId => exact fun started => later _ (fine started)
  | judging late sessionId raw => exact fine
  | touching late session => exact fine
  | returned late loaded now => exact fine
  | scanning userId gone removed => exact fun key deleted => more key (fine key deleted)
  | sifting userId gone removed doomed rest last =>
    exact fun key deleted => more key (fine key deleted)
  | destroyed gone removed => exact fun key deleted => more key (fine key deleted)
  | idle | discarding | missing | destroying | done | thrown => trivial

theorem StaysLoggedOut.setCall (stays : s.StaysLoggedOut) (c : C)
    (fine : CallLoggedOut s.erased s.loggedOut call) :
    (s.setCall c call).StaysLoggedOut where
  absent := stays.absent
  erased := stays.erased
  calls := by
    intro other
    by_cases same : other = c
    · subst same
      simpa [World.setCall] using fine
    · simpa [World.setCall, same] using stays.calls other

omit [DecidableEq C] in
/-- `SET` is harmless as long as it is for a session that was not logged out. -/
theorem StaysLoggedOut.write (stays : s.StaysLoggedOut) (timely : session.sessionId ∉ s.erased)
    (now : Int) :
    (s.write session now).StaysLoggedOut where
  absent := by
    intro sessionId out
    have other : sessionId ≠ session.sessionId := by
      rintro rfl
      exact timely out
    simp only [World.write, Function.update_of_ne other]
    exact stays.absent sessionId out
  erased := stays.erased
  calls := stays.calls

omit [DecidableEq C] in
theorem StaysLoggedOut.erase (stays : s.StaysLoggedOut) (keys : List String) :
    (s.erase keys).StaysLoggedOut where
  absent := by
    intro sessionId out
    simp only [World.erase, stays.absent sessionId out, ite_self]
  erased := stays.erased
  calls := stays.calls

omit [DecidableEq C] in
theorem StaysLoggedOut.logOut (stays : s.StaysLoggedOut) (keys : List String) :
    (s.logOut keys).StaysLoggedOut where
  absent := by
    intro sessionId out
    simp only [World.logOut, World.erase]
    split
    · rfl
    next kept =>
      rcases List.mem_append.mp out with doomed | before
      · exact absurd doomed kept
      · exact stays.absent sessionId before
  erased := fun sessionId out => List.mem_append_right keys (stays.erased sessionId out)
  calls := fun c =>
    (stays.calls c).mono (fun _ out => List.mem_append_right keys out) fun _ out => out

omit [DecidableEq C] in
theorem StaysLoggedOut.conclude (stays : s.StaysLoggedOut) (deleted : ∀ key ∈ gone, key ∈ s.erased) :
    (s.conclude gone).StaysLoggedOut where
  absent := stays.absent
  erased := by
    intro sessionId out
    rcases List.mem_append.mp out with now | before
    · exact deleted sessionId now
    · exact stays.erased sessionId before
  calls := fun c =>
    (stays.calls c).mono (fun _ out => out) fun _ out => List.mem_append_right gone out

omit [DecidableEq C] in
theorem StaysLoggedOut.read (stays : s.StaysLoggedOut) (out : sessionId ∈ s.loggedOut) :
    s.read sessionId = none := by
  have absent := stays.absent sessionId (stays.erased sessionId out)
  simp [World.read, absent]

omit [DecidableEq C] in
theorem callLoggedOut_judged (fine : late → raw = none) (now : Int) :
    CallLoggedOut erased loggedOut (judged late sessionId raw now) := by
  unfold judged
  cases raw with
  | none => trivial
  | some value =>
    have early : late = false := by
      cases late with
      | false => rfl
      | true => exact absurd (fine rfl) nofun
    cases parsed : parseSession value with
    | none => simp [parsed, CallLoggedOut]
    | some session =>
      cases alive : expiryOf session now with
      | some reason => simp [parsed, alive, CallLoggedOut]
      | none =>
        simp only [parsed, alive]
        split
        · exact early
        · exact early

omit [DecidableEq C] in
theorem callLoggedOut_scanned {userId : String} {removed : Nat} {last : Bool}
    (deleted : ∀ key ∈ gone, key ∈ erased) :
    CallLoggedOut erased loggedOut (scanned userId gone removed last) := by
  unfold scanned
  split
  · exact deleted
  · exact deleted

/-- A timely step keeps out the sessions that were logged out. -/
theorem StaysLoggedOut.step (stays : s.StaysLoggedOut) (timely : s.Timely action)
    (stepped : s.step action = some next) : next.StaysLoggedOut := by
  cases action <;> simp only [World.step] at stepped
  case tick clock =>
    cases stepped
    exact ⟨stays.absent, stays.erased, stays.calls⟩
  case create session now =>
    split at stepped
    next fresh =>
      cases stepped
      have written := stays.write fresh.2 now
      exact ⟨written.absent, written.erased, written.calls⟩
    · cases stepped
  case load c sessionId =>
    split at stepped
    · cases stepped
      refine stays.setCall c ?_
      intro started
      simpa using started
    · cases stepped
  case get c =>
    split at stepped
    next late sessionId reading =>
      cases stepped
      have call := stays.calls c
      rw [reading] at call
      exact stays.setCall c fun started => stays.read (call started)
    next userId gone removed doomed key rest last sifting =>
      cases stepped
      have call := stays.calls c
      rw [sifting] at call
      exact stays.setCall c call
    · cases stepped
  case judge c now =>
    split at stepped
    next late sessionId raw judging =>
      cases stepped
      have call := stays.calls c
      rw [judging] at call
      exact stays.setCall c (callLoggedOut_judged call now)
    · cases stepped
  case touch c replies =>
    split at stepped
    next late session touching =>
      cases stepped
      have call := stays.calls c
      rw [touching] at call
      have held : session ∈ (s.calls c).touched := by
        rw [touching]
        rfl
      have written := stays.write (timely session held) session.lastSeenAt
      refine written.setCall c ?_
      cases replies with
      | true => exact call
      | false => trivial
    · cases stepped
  case destroy c sessionId =>
    split at stepped
    · cases stepped
      exact stays.setCall c trivial
    · cases stepped
  case destroyAllForUser c userId =>
    split at stepped
    · cases stepped
      exact stays.setCall c (List.forall_mem_nil _)
    · cases stepped
  case scan c keys last =>
    split at stepped
    next userId gone removed scanning =>
      cases stepped
      have call := stays.calls c
      rw [scanning] at call
      exact stays.setCall c call
    · cases stepped
  case del c replies =>
    split at stepped
    · cases stepped
      refine (stays.erase _).setCall c ?_
      cases replies <;> trivial
    next sessionId destroying =>
      cases stepped
      refine (stays.logOut _).setCall c ?_
      cases replies with
      | true => exact fun key deleted => List.mem_append_left _ deleted
      | false => trivial
    next userId gone removed doomed last sifting =>
      cases stepped
      have call := stays.calls c
      rw [sifting] at call
      refine (stays.logOut _).setCall c ?_
      split
      · apply callLoggedOut_scanned
        intro key deleted
        rcases List.mem_append.mp deleted with now | before
        · exact List.mem_append_left _ now
        · exact List.mem_append_right _ (call key before)
      · trivial
    · cases stepped
  case finish c =>
    split at stepped
    next gone removed destroyed =>
      cases stepped
      have call := stays.calls c
      rw [destroyed] at call
      exact (stays.conclude call).setCall c trivial
    · cases stepped
  case fails c =>
    split at stepped
    · cases stepped
      exact stays.setCall c trivial
    · cases stepped

end World

section

variable {C : Type} [DecidableEq C]

/-- In every run no session is returned at its absolute deadline or after it; in every run whose
touches are timely, no session is returned to a `load` that started after its logout. -/
theorem logout_is_final (clock : Int) (actions : List (Action C)) :
    (∀ s ∈ (serving C).visited actions (.initial clock), s.EndsAbsolutely) ∧
      ((∀ turn ∈ (serving C).taken actions (.initial clock), turn.1.Timely turn.2) →
        ∀ s ∈ (serving C).visited actions (.initial clock), s.LogoutIsFinal) := by
  constructor
  · have genuine : ∀ s ∈ (serving C).visited actions (.initial clock), s.AllGenuine := by
      apply Automaton.visited_of_step _ (World.AllGenuine.initial clock)
      intro s action next kept stepped
      exact kept.step stepped
    exact fun s reached => (genuine s reached).endsAbsolutely
  · intro timely
    have stays : ∀ s ∈ (serving C).visited actions (.initial clock), s.StaysLoggedOut := by
      apply Automaton.visited_of_taken _ (World.StaysLoggedOut.initial clock) timely
      intro s action next kept inTime stepped
      exact kept.step inTime stepped
    exact fun s reached => (stays s reached).logoutIsFinal

end

/-- A session issued at 0 and not seen since. -/
def seldomSeen : SessionRecord :=
  ⟨"id", "alice", "alice", none, [], 0, 0, none, none⟩

/-- Request 0 has read the session and is about to touch it when request 1 logs it out. -/
def crossed : List (Action (Fin 3)) :=
  [.create seldomSeen 0, .load 0 "id", .get 0, .judge 0 60000, .destroy 1 "id", .del 1 true,
    .finish 1, .touch 0 true, .load 2 "id", .get 2, .judge 2 60001]

theorem crossed_revives_session :
    ¬ ∀ actions, ∀ s ∈ (serving (Fin 3)).visited actions (.initial 0),
      s.LogoutIsFinal ∧ s.EndsAbsolutely := by
  intro promised
  have revived : ∃ s ∈ (serving (Fin 3)).visited crossed (.initial 0),
      (s.calls 2).answer = some (true, ⟨seldomSeen.touch 60000, false⟩, 60001) := by
    decide
  obtain ⟨s, reached, returned⟩ := revived
  exact (promised crossed s reached).1 2 _ _ returned

end PrSearch.Authz.Session
