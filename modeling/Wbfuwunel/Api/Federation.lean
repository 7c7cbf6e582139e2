import Wbfuwunel.Foundation.Checks
import Wbfuwunel.Rooms.Confinement
import Wbfuwunel.Rooms.MembershipRuns
import Wbfuwunel.Rooms.StateAccessor

/-! What other servers may read of a room: `api/server`, with the access check all its endpoints begin with. -/

set_option autoImplicit false

namespace Wbfuwunel.Api

open Rooms List Option

structure FederationServices where
  serverName : String
  enforceErasureOverFederation : Bool
  isErased : UserId → Bool
  authChainIds : RoomId → EventId → List EventId

/-! ## The access check -/

/-- An access list that would deny every server is taken as broken and not applied. -/
def aclBroken (acl : ServerAcl) : Bool := acl.allow.isEmpty || acl.deny.contains "*" && acl.allow.contains "*"

def aclCheck (home : Homeserver) (server : String) (room : RoomId) : Except Error Unit :=
  match (home.timeline.rooms room).serverAcl with
  | none => .ok ()
  | some acl =>
    if acl.allow.isEmpty then .ok ()
    else if acl.deny.contains "*" && acl.allow.contains "*" then .ok ()
    else if acl.isAllowed server then .ok ()
    else .error (.forbidden "Server was denied by room ACL")

structure AccessCheck where
  origin : String
  roomId : RoomId
  eventId : Option EventId

namespace AccessCheck

variable (home : Homeserver)

/-- Whoever knocks counts, of this homeserver or not. -/
def userIsKnocking (room : RoomId) : Bool := (home.cache.roomMembersKnocked room).head?.isSome

def roomUnreachable (access : AccessCheck) : Bool :=
  !home.cache.serverInRoom access.origin access.roomId && !home.isWorldReadable access.roomId &&
    !userIsKnocking home access.roomId

def check (access : AccessCheck) : Except Error Unit :=
  if aclCheck home access.origin access.roomId ≠ .ok () then .error (.forbidden "Server access denied.")
  else if access.roomUnreachable home then .error (.forbidden "Server is not in room.")
  else if access.eventId.any fun event => !home.serverCanSeeEvent access.origin access.roomId event then
    .error (.forbidden "Server is not allowed to see event.")
  else .ok ()

end AccessCheck

open AccessCheck

def requireEventInRoom (home : Homeserver) (event : EventId) (room : RoomId) : Except Error Unit :=
  if (home.timeline.getPdu event).any fun pdu => pdu.roomId = room then .ok ()
  else .error (.notFound "Event not found.")

/-! ## The endpoints -/

section Endpoints

variable (home : Homeserver) (env : Env) (services : FederationServices) (origin : String)

/-- `redact_in_place` with no reason given. -/
def pruned (rules : RoomRules) (pdu : Pdu) : Pdu := { pdu with
  content := rules.redactContent pdu.kind pdu.content
  unsigned := {} }

def erasedForServer (pdu : Pdu) : Pdu :=
  if !services.enforceErasureOverFederation then pdu
  else if !services.isErased pdu.sender then pdu
  else if home.serverJoinedAtPdu origin pdu.eventId then pdu
  else
    match home.timeline.roomVersionRules env pdu.roomId with
    | .error _ => pdu
    | .ok rules => pruned rules pdu

variable (room : RoomId)

def getRoomVersion : Except Error String :=
  match (home.timeline.rooms room).version with
  | none => .error (.notFound "No create event found")
  | some version => .ok version

variable (event : EventId)

def getPduJson : Except Error Pdu :=
  match home.timeline.getPdu event with
  | none => .error (.notFound "PDU not found")
  | some pdu => .ok pdu

structure RoomStateResponse where
  authChain : List Pdu
  pdus : List Pdu

def getRoomStateRoute : Except Error RoomStateResponse := do
  check home ⟨origin, room, none⟩
  requireEventInRoom home event room
  match home.pduShortstatehash event with
  | none => .error (.notFound "PDU state not found.")
  | some snapshot =>
    let _ ← getRoomVersion home room
    let authChain ← (services.authChainIds room event).mapM (getPduJson home)
    let pdus ← snapshot.stateFullIds.mapM (getPduJson home)
    return { authChain, pdus }

def getEventAuthorizationRoute : Except Error (List Pdu) := do
  check home ⟨origin, room, none⟩
  requireEventInRoom home event room
  let _ ← getRoomVersion home room
  return (services.authChainIds room event).filterMap home.timeline.getPdu

def getEventRoute : Except Error Pdu :=
  match home.timeline.getPdu event with
  | none => .error (.notFound "Event not found.")
  | some pdu => do
    check home ⟨origin, pdu.roomId, some event⟩
    return erasedForServer home env services origin pdu

namespace Backfill

def LIMIT_MAX : Nat := 150

end Backfill

/-- The counts from `start` down, of a timeline whose counts do not exceed `bound` in size. -/
def countsDownFrom (bound : Nat) : PduCount → List PduCount
  | .normal start =>
    (List.range (min start bound + 1)).reverse.map .normal ++ (List.range (bound + 1)).map .backfilled
  | .backfilled start => ((List.range (bound + 1)).filter (start ≤ ·)).map .backfilled

def pdusRev (start : PduCount) : Except Error (List Pdu) :=
  match home.timeline.roomidShortroomid room with
  | none => .error (.notFound s!"Room {room} not found")
  | some shortroomid =>
    .ok ((countsDownFrom home.timeline.count start).filterMap fun count => home.timeline.pduidPdu ⟨shortroomid, count⟩)

def laterCount (first second : PduCount) : PduCount := if first.signed ≤ second.signed then second else first

def getBackfillRoute (v : List EventId) (limit : Nat) : Except Error (List Pdu) := do
  check home ⟨origin, room, none⟩
  let start := (v.filterMap home.timeline.getPduCount).foldl laterCount (.backfilled (2 ^ 63))
  let pdus ← pdusRev home room start
  -- Each event is asked about in its own room.
  let visible := pdus.filter fun pdu => home.serverCanSeeEvent origin pdu.roomId pdu.eventId
  let found := visible.filterMap fun pdu => home.timeline.getPdu pdu.eventId
  return (found.take (min limit Backfill.LIMIT_MAX)).map (erasedForServer home env services origin)

/-! ### Walking back for missing events -/

namespace MissingEvents

def LIMIT_MAX : Nat := 50
def WALK_MAX : Nat := 256
def EARLIEST_MAX : Nat := 4096

structure Walk where
  seen : List EventId
  pending : List (EventId × Bool)

def Walk.enqueue (seed : Bool) (walk : Walk) (event : EventId) : Walk :=
  if event ∈ walk.seen then walk else ⟨event :: walk.seen, walk.pending ++ [(event, seed)]⟩

def walkSeed (earliestEvents latestEvents : List EventId) : Walk :=
  (latestEvents.take WALK_MAX).foldl (Walk.enqueue true) ⟨(earliestEvents.take EARLIEST_MAX).dedup, []⟩

def Walk.extend (seenMax : Nat) (walk : Walk) (prevEvents : List EventId) : Walk :=
  prevEvents.foldl (fun walk event => if walk.seen.length < seenMax then walk.enqueue false event else walk) walk

/-- One round takes an id off the queue and looks it up. The fetches are answered in the order of the queue. -/
def Walk.round (room : RoomId) (seenMax : Nat) (walk : Walk) : Walk × Option (EventId × Pdu) :=
  match walk.pending with
  | [] => (walk, none)
  | (event, isLatest) :: pending =>
    match home.timeline.getPdu event with
    | none => ({ walk with pending }, none)
    | some pdu =>
      -- An event of another room is neither answered nor walked past.
      if pdu.roomId ≠ room then ({ walk with pending }, none)
      else (Walk.extend seenMax { walk with pending } pdu.prevEvents, if isLatest then none else some (event, pdu))

def Walk.after (room : RoomId) (seenMax : Nat) : Nat → Walk → Walk
  | 0, walk => walk
  | rounds + 1, walk => Walk.after room seenMax rounds (walk.round home room seenMax).1

def missing (room : RoomId) (seenMax : Nat) : Nat → Walk → List (EventId × Pdu)
  | 0, _ => []
  | rounds + 1, walk =>
    (walk.round home room seenMax).2.toList ++ missing room seenMax rounds (walk.round home room seenMax).1

def Walk.rounds (seenMax : Nat) (walk : Walk) : Nat := walk.pending.length + (seenMax - walk.seen.length)

end MissingEvents

open MissingEvents in
def getMissingEventsRoute (room : RoomId) (earliestEvents latestEvents : List EventId) (limit : Nat) :
    Except Error (List Pdu) := do
  check home ⟨origin, room, none⟩
  let rules ← home.timeline.roomVersionRules env room
  let walk := walkSeed earliestEvents latestEvents
  let seenMax := walk.seen.length + WALK_MAX
  let events := (missing home room seenMax (walk.rounds seenMax) walk).take (min limit LIMIT_MAX)
  return (events.map fun (event, pdu) =>
    if home.serverCanSeeEvent origin room event then erasedForServer home env services origin pdu
    else pruned rules pdu).reverse

/-! ## Refusal -/

inductive Request where
  | state (room : RoomId) (event : EventId)
  | eventAuth (room : RoomId) (event : EventId)
  | event (event : EventId)
  | backfill (room : RoomId) (v : List EventId) (limit : Nat)
  | missingEvents (room : RoomId) (earliestEvents latestEvents : List EventId) (limit : Nat)

def Request.answer : Request → Except Error (List Pdu)
  | .state room id =>
    (getRoomStateRoute home services origin room id).map fun response => response.authChain ++ response.pdus
  | .eventAuth room id => getEventAuthorizationRoute home services origin room id
  | .event id => (getEventRoute home env services origin id).map fun pdu => [pdu]
  | .backfill room v limit => getBackfillRoute home env services origin room v limit
  | .missingEvents room earliestEvents latestEvents limit =>
    getMissingEventsRoute home env services origin room earliestEvents latestEvents limit

def Request.IsAbout : Request → Prop
  | .state named _ | .eventAuth named _ | .backfill named _ _ | .missingEvents named _ _ _ => named = room
  | .event id => ∃ pdu, home.timeline.getPdu id = some pdu ∧ pdu.roomId = room

/-- The check refuses the origin with and without an event, and so does every endpoint. -/
structure Refused (room : RoomId) : Prop where
  check : ∀ event, ∃ error, check home ⟨origin, room, event⟩ = .error error
  answer : ∀ request : Request, request.IsAbout home room → ∃ error, request.answer home env services origin = .error error

def Passes : Prop :=
  aclCheck home origin room = .ok () ∧ roomUnreachable home ⟨origin, room, none⟩ = false

theorem check_ok_iff (event : Option EventId) : check home ⟨origin, room, event⟩ = .ok () ↔
      Passes home origin room ∧ ∀ id ∈ event, home.serverCanSeeEvent origin room id := by
  have reach : roomUnreachable home ⟨origin, room, event⟩ = roomUnreachable home ⟨origin, room, none⟩ := rfl
  unfold check Passes
  rw [reach]
  by_cases acl : aclCheck home origin room = .ok ()
  · cases roomUnreachable home ⟨origin, room, none⟩ <;> cases event <;> simp [acl]
  · simp [acl]

variable {room : RoomId}

theorem check_error_of_not_passes (kept : ¬Passes home origin room) (event : Option EventId) :
    ∃ error, check home ⟨origin, room, event⟩ = .error error := by
  cases checked : check home ⟨origin, room, event⟩ with
  | error error => exact ⟨error, rfl⟩
  | ok passed => exact absurd ((check_ok_iff home origin room event).mp checked).1 kept

/-- Every endpoint asks the check before it discloses anything. -/
theorem answer_error_of_check (check : ∀ event, ∃ error, check home ⟨origin, room, event⟩ = .error error)
    {req : Request} (about : req.IsAbout home room) :
    ∃ error, req.answer home env services origin = .error error := by
  obtain ⟨error, refused⟩ := check none
  cases req with
  | state named id =>
    obtain rfl : named = room := about
    exact ⟨error, by simp [Request.answer, getRoomStateRoute, refused, bind, Except.bind, Except.map]⟩
  | eventAuth named id =>
    obtain rfl : named = room := about
    exact ⟨error, by simp [Request.answer, getEventAuthorizationRoute, refused, bind, Except.bind]⟩
  | event id =>
    obtain ⟨pdu, found, rfl⟩ := about
    -- The only endpoint that asks about an event; the room is the event's own.
    obtain ⟨error, refused⟩ := check (some id)
    exact ⟨error, by simp [Request.answer, getEventRoute, found, refused, Except.map]⟩
  | backfill named v limit =>
    obtain rfl : named = room := about
    exact ⟨error, by simp [Request.answer, getBackfillRoute, refused, bind, Except.bind]⟩
  | missingEvents named earliestEvents latestEvents limit =>
    obtain rfl : named = room := about
    exact ⟨error, by simp [Request.answer, getMissingEventsRoute, refused, bind, Except.bind]⟩

theorem refused_iff (room : RoomId) : Refused home env services origin room ↔ ¬Passes home origin room := by
  constructor
  · intro refused ok
    obtain ⟨error, failed⟩ := refused.check none
    rw [(check_ok_iff home origin room none).mpr ⟨ok, by simp⟩] at failed
    cases failed
  · intro kept
    have check := check_error_of_not_passes home origin kept
    exact ⟨check, fun req about => answer_error_of_check home env services origin check about⟩

variable (room : RoomId)

/-- The room is not world-readable, the origin has nobody joined to it, and nobody of this homeserver knocks on it. -/
structure Outside : Prop where
  closed : home.isWorldReadable room = false
  absent : ∀ user ∈ home.cache.roomMembers room, serverName user ≠ origin
  quiet : ∀ user ∈ home.cache.roomMembersKnocked room, serverName user ≠ services.serverName

def Denied : Prop := ∃ acl, (home.timeline.rooms room).serverAcl = some acl ∧ acl.isAllowed origin = false

/-- The room's access list is in force and does not allow the origin. -/
def DeniedInForce : Prop :=
  ∃ acl, (home.timeline.rooms room).serverAcl = some acl ∧ acl.isAllowed origin = false ∧ aclBroken acl = false

structure ReadsConfined : Prop where
  outside : Outside home services origin room → Refused home env services origin room
  denied : Denied home origin room → Refused home env services origin room

/-- For an origin outside the room nobody at all knocks on it, and the list of its servers has been recounted; an access
list that does not allow the origin is in force, or the room is out of reach anyway. -/
structure ReadsGuarded : Prop where
  outside : Outside home services origin room → DeniedInForce home origin room ∨
    home.cache.serverInRoom origin room = false ∧ home.cache.roomMembersKnocked room = []
  denied : Denied home origin room → DeniedInForce home origin room ∨
    home.cache.serverInRoom origin room = false ∧ home.isWorldReadable room = false ∧
      home.cache.roomMembersKnocked room = []

theorem aclCheck_ok_iff (room : RoomId) : aclCheck home origin room = .ok () ↔ ¬DeniedInForce home origin room := by
  unfold aclCheck DeniedInForce aclBroken
  cases (home.timeline.rooms room).serverAcl with
  | none => simp
  | some acl =>
    simp only [some.injEq, exists_eq_left']
    generalize acl.allow.isEmpty = empty
    generalize (acl.deny.contains "*" && acl.allow.contains "*") = wild
    generalize acl.isAllowed origin = ok
    cases empty <;> cases wild <;> cases ok <;> simp

theorem roomUnreachable_iff (room : RoomId) : roomUnreachable home ⟨origin, room, none⟩ ↔
    home.cache.serverInRoom origin room = false ∧ home.isWorldReadable room = false ∧
      home.cache.roomMembersKnocked room = [] := by
  simp [roomUnreachable, userIsKnocking, and_assoc]

theorem not_passes_iff (room : RoomId) : ¬Passes home origin room ↔ DeniedInForce home origin room ∨
    home.cache.serverInRoom origin room = false ∧ home.isWorldReadable room = false ∧
      home.cache.roomMembersKnocked room = [] := by
  rw [Passes, aclCheck_ok_iff, not_and_or, not_not, Bool.not_eq_false, roomUnreachable_iff]

theorem reads_confined_iff (room : RoomId) :
    ReadsConfined home env services origin room ↔ ReadsGuarded home services origin room := by
  constructor
  · intro confined
    constructor
    · intro out
      rcases (not_passes_iff ..).mp ((refused_iff ..).mp (confined.outside out)) with denied | ⟨gone, -, unknocked⟩
      · exact .inl denied
      · exact .inr ⟨gone, unknocked⟩
    · intro denied
      exact (not_passes_iff ..).mp ((refused_iff ..).mp (confined.denied denied))
  · intro guarded
    constructor
    · intro out
      refine (refused_iff ..).mpr ((not_passes_iff ..).mpr ((guarded.outside out).imp_right ?_))
      rintro ⟨gone, unknocked⟩
      exact ⟨gone, out.closed, unknocked⟩
    · intro denied
      exact (refused_iff ..).mpr ((not_passes_iff ..).mpr (guarded.denied denied))

end Endpoints

/-! ## The walk back -/

namespace MissingEvents

variable {home : Homeserver} {r : RoomId} {seenMax rounds : Nat} {walk : Walk}

theorem Walk.rounds_extend (walk : Walk) (prevEvents : List EventId) :
    (walk.extend seenMax prevEvents).rounds seenMax = walk.rounds seenMax := by
  unfold Walk.extend
  induction prevEvents generalizing walk with
  | nil => rfl
  | cons e prevEvents ih =>
    rw [foldl_cons, ih]
    split
    next lt =>
      unfold Walk.enqueue
      split
      · rfl
      · simp only [Walk.rounds, length_append, length_cons, length_nil]
        omega
    · rfl

theorem Walk.round_of_done (done : walk.pending = []) : walk.round home r seenMax = (walk, none) := by
  simp only [Walk.round, done]

theorem Walk.rounds_round (waits : walk.pending ≠ []) :
    (walk.round home r seenMax).1.rounds seenMax + 1 = walk.rounds seenMax := by
  obtain ⟨x, pending, queued⟩ := exists_cons_of_ne_nil waits
  have fewer : Walk.rounds seenMax { walk with pending } + 1 = walk.rounds seenMax := by
    simp only [Walk.rounds, queued, length_cons]
    omega
  simp only [Walk.round, queued]
  split
  · exact fewer
  · split
    · exact fewer
    · rw [Walk.rounds_extend]
      exact fewer

theorem Walk.after_of_done (done : walk.pending = []) : walk.after home r seenMax rounds = walk := by
  induction rounds with
  | zero => rfl
  | succ rounds ih => rw [Walk.after, Walk.round_of_done done, ih]

theorem Walk.pending_after (enough : walk.rounds seenMax ≤ rounds) : (walk.after home r seenMax rounds).pending = [] := by
  induction rounds generalizing walk with
  | zero =>
    refine eq_nil_of_length_eq_zero ?_
    simp only [Walk.rounds] at enough
    show walk.pending.length = 0
    omega
  | succ rounds ih =>
    rw [Walk.after]
    by_cases done : walk.pending = []
    · rw [Walk.round_of_done done, Walk.after_of_done done, done]
    · have next := @Walk.rounds_round home r seenMax walk done
      exact ih (by omega)

theorem missing_succ (rounds : Nat) (walk : Walk) : missing home r seenMax (rounds + 1) walk =
    missing home r seenMax rounds walk ++ ((walk.after home r seenMax rounds).round home r seenMax).2.toList := by
  induction rounds generalizing walk with
  | zero => simp [missing, Walk.after]
  | succ rounds ih => rw [missing, ih, ← append_assoc]; rfl

theorem round_roomId {entry : EventId × Pdu} (got : (walk.round home r seenMax).2 = some entry) : entry.2.roomId = r := by
  unfold Walk.round at got
  split at got
  · cases got
  · split at got
    · cases got
    · split at got
      · cases got
      next own =>
        dsimp only at got
        split at got
        · cases got
        · cases got
          exact not_not.mp own

theorem missing_roomId {entry : EventId × Pdu} (got : entry ∈ missing home r seenMax rounds walk) :
    entry.2.roomId = r := by
  induction rounds generalizing walk with
  | zero => cases got
  | succ rounds ih =>
    rcases mem_append.mp got with found | got
    · exact round_roomId (mem_toList.mp found)
    · exact ih got

theorem length_seeds (seeds : List EventId) (walk : Walk) :
    (seeds.foldl (Walk.enqueue true) walk).pending.length ≤ walk.pending.length + seeds.length := by
  induction seeds generalizing walk with
  | nil => rfl
  | cons seed seeds ih =>
    have one : (walk.enqueue true seed).pending.length ≤ walk.pending.length + 1 := by
      unfold Walk.enqueue
      split <;> simp
    refine (ih _).trans ?_
    rw [length_cons]
    omega

end MissingEvents

variable (home : Homeserver) (env : Env) (services : FederationServices) (origin : String)

theorem erasedForServer_roomId (pdu : Pdu) : (erasedForServer home env services origin pdu).roomId = pdu.roomId := by
  unfold erasedForServer
  split_ifs
  · rfl
  · rfl
  · rfl
  · cases home.timeline.roomVersionRules env pdu.roomId <;> rfl

open MissingEvents in
/-- Whatever is named, the walk ends soon and answers only events of the room. -/
theorem missing_events_bounded (r : RoomId) (earliestEvents latestEvents : List EventId) (limit : Nat) :
    let walk := walkSeed earliestEvents latestEvents
    let seenMax := walk.seen.length + WALK_MAX
    (∀ rounds ≥ 2 * WALK_MAX, (walk.after home r seenMax rounds).pending = [] ∧
        missing home r seenMax rounds walk = missing home r seenMax (walk.rounds seenMax) walk) ∧
      ∀ pdus, getMissingEventsRoute home env services origin r earliestEvents latestEvents limit = .ok pdus →
        pdus.length ≤ min limit LIMIT_MAX ∧ ∀ pdu ∈ pdus, pdu.roomId = r := by
  intro walk seenMax
  refine ⟨fun rounds enough => ?_, fun pdus answered => ?_⟩
  · have seeds : walk.pending.length ≤ WALK_MAX := (length_seeds ..).trans (by simp)
    replace enough : walk.rounds seenMax ≤ rounds := by
      simp only [Walk.rounds, seenMax]
      omega
    refine ⟨Walk.pending_after enough, ?_⟩
    induction rounds, enough using Nat.le_induction with
    | base => rfl
    | succ rounds enough ih =>
      rw [missing_succ, ih, Walk.round_of_done (Walk.pending_after enough), toList_none, append_nil]
  · obtain ⟨_, -, answered⟩ := Foundation.bind_eq_ok.mp answered
    obtain ⟨_, -, answered⟩ := Foundation.bind_eq_ok.mp answered
    cases answered
    refine ⟨by simp, fun pdu mem => ?_⟩
    obtain ⟨⟨_, _⟩, got, rfl⟩ := mem_map.mp (mem_reverse.mp mem)
    have own := missing_roomId (mem_of_mem_take got)
    dsimp only
    split
    · exact (erasedForServer_roomId ..).trans own
    · exact own

/-! ## Somebody else's knock -/

def plainFederation : FederationServices where
  serverName := "wbf.example"
  enforceErasureOverFederation := false
  isErased _ := false
  authChainIds _ _ := []

/-- A user of a third server knocks on the cabinet. -/
def knockedOn : Homeserver where
  timeline := meeting
  cache := StateCache.empty.markAsKnocked "@eve:third.example" cabinet 4 []
  pduShortstatehash _ := none

theorem spy_outside : Outside knockedOn plainFederation "spy.example" cabinet :=
  ⟨by decide, by decide +kernel, by decide +kernel⟩

/-- The knock opens the room to every server: one without a member there is answered with the cabinet's minutes. -/
theorem spy_reads_minutes : Outside knockedOn plainFederation "spy.example" cabinet ∧
    check knockedOn ⟨"spy.example", cabinet, none⟩ = .ok () ∧
      ∃ pdu, getEventRoute knockedOn plainEnv plainFederation "spy.example" "$minutes" = .ok pdu ∧ pdu.roomId = cabinet := by
  have answered : (getEventRoute knockedOn plainEnv plainFederation "spy.example" "$minutes").map Pdu.roomId = .ok cabinet := by
    decide +kernel
  obtain ⟨pdu, got, own⟩ := Foundation.map_eq_ok.mp answered
  exact ⟨spy_outside, by decide +kernel, pdu, got, own⟩

end Wbfuwunel.Api
