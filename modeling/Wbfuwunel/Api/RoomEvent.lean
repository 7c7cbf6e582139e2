import Wbfuwunel.Foundation.Checks
import Wbfuwunel.Rooms.Confinement
import Wbfuwunel.Rooms.StateAccessor

/-! Reading a single event: `api/client/room/event.rs`.

The event is looked up by its id, its visibility by the room the request names. A debug assertion is all that compares
the two, and it is no part of a release build.
-/

set_option autoImplicit false

namespace Wbfuwunel.Api

open Rooms

structure Services where
  userIsAdmin : UserId → Bool
  allowRoomAdminsToRequestUnredactedEvents : Bool
  isForbiddenRemoteServerName : String → Bool
  userIsIgnored : UserId → UserId → Bool

def IGNORED_MESSAGE_TYPES : List Kind := [.other "m.call.invite", .other "m.key.verification.start", .other "m.location",
  .other "m.poll.start",
  .other "m.reaction",
  .other "m.room.encrypted",
  .roomMessage,
  .other "m.sticker",
  .other "org.matrix.msc1767.audio",
  .other "org.matrix.msc1767.emote",
  .other "org.matrix.msc1767.file",
  .other "org.matrix.msc1767.image",
  .other "org.matrix.msc1767.video",
  .other "org.matrix.msc3245.voice.v2",
  .other "org.matrix.msc3381.poll.start",
  .other "org.matrix.msc3672.beacon",
  .other "org.matrix.msc4075.call.notify"]

def isIgnoredPdu (services : Services) (event : Pdu) (user : UserId) : Bool :=
  if event.kind = .other "org.matrix.dummy_event" then true
  else if event.kind ∉ IGNORED_MESSAGE_TYPES then false
  else services.isForbiddenRemoteServerName (serverName event.sender) || services.userIsIgnored event.sender user

section Route

variable (home : Homeserver) (services : Services) (user : UserId) (room : RoomId) (eventId : EventId)
  (includeUnredactedContent : Bool)

/-- The power of the room named counts, not that of the event's room. -/
def mayRequestUnredacted : Bool :=
  services.userIsAdmin user || services.allowRoomAdminsToRequestUnredactedEvents &&
      (home.timeline.rooms room).powerLevels.any fun levels => (levels.forUser user).reaches levels.redact

def retainedEvent : Except Error Pdu :=
  if mayRequestUnredacted home services user room then
    match home.timeline.eventidOriginalpdu eventId with
    | some original => .ok original
    | none => .error (.notFound s!"Event {eventId} not found.")
  else .error (.forbidden "You are not allowed to see the original event")

/-- The stored event, or the retained one in place of a redacted or missing one. -/
def selectEvent : Except Error Pdu :=
  match home.timeline.getPdu eventId with
  | some event =>
    if event.isRedacted && includeUnredactedContent then retainedEvent home services user room eventId else .ok event
  | none =>
    if includeUnredactedContent then retainedEvent home services user room eventId
    else .error (.notFound s!"Event {eventId} not found.")

def getRoomEventRoute : Except Error Pdu :=
  match selectEvent home services user room eventId includeUnredactedContent with
  | .error error => .error error
  | .ok event =>
    if !home.userCanSeeEvent user room eventId then .error (.notFound "Event not found.")
    else if isIgnoredPdu services event user then .error (.senderIgnored event.sender)
    else .ok event

/-! ## What is answered -/

/-- What a request finds under the event's id, before it is asked whether the user may see it. -/
inductive Finds (pdu : Pdu) : Prop where
  | stored (found : home.timeline.getPdu eventId = some pdu)
      (whole : includeUnredactedContent = false ∨ pdu.isRedacted = false)
  | retained (asked : includeUnredactedContent) (may : mayRequestUnredacted home services user room)
      (gone : ∀ stored, home.timeline.getPdu eventId = some stored → stored.isRedacted)
      (kept : home.timeline.eventidOriginalpdu eventId = some pdu)

theorem retainedEvent_ok_iff (pdu : Pdu) : retainedEvent home services user room eventId = .ok pdu ↔
    mayRequestUnredacted home services user room ∧ home.timeline.eventidOriginalpdu eventId = some pdu := by
  unfold retainedEvent
  by_cases may : mayRequestUnredacted home services user room
  · cases home.timeline.eventidOriginalpdu eventId <;> simp [may]
  · simp [may]

theorem selectEvent_ok_iff (pdu : Pdu) : selectEvent home services user room eventId includeUnredactedContent = .ok pdu ↔
    Finds home services user room eventId includeUnredactedContent pdu := by
  unfold selectEvent
  constructor
  · intro sel
    cases got : home.timeline.getPdu eventId with
    | some e =>
      simp only [got] at sel
      split at sel
      next replaced =>
        simp only [Bool.and_eq_true] at replaced
        obtain ⟨may, kept⟩ := (retainedEvent_ok_iff ..).mp sel
        -- The stored event is redacted, and the original was asked for.
        exact .retained replaced.2 may (fun stored eq => by cases got.symm.trans eq; exact replaced.1) kept
      next kept =>
        cases sel
        refine .stored got ?_
        cases includeUnredactedContent <;> simp_all
    | none =>
      simp only [got] at sel
      split at sel
      next asked =>
        obtain ⟨may, kept⟩ := (retainedEvent_ok_iff ..).mp sel
        exact .retained asked may (fun stored eq => by cases got.symm.trans eq) kept
      · cases sel
  · rintro (⟨got, whole⟩ | ⟨rfl, may, gone, kept⟩)
    · rcases whole with rfl | whole
      · simp [got]
      · simp [got, whole]
    · have retained := (retainedEvent_ok_iff home services user room eventId pdu).mpr ⟨may, kept⟩
      cases got : home.timeline.getPdu eventId with
      | some e => simp [gone e got, retained]
      | none => simp [retained]

theorem getRoomEventRoute_ok_iff (pdu : Pdu) :
    getRoomEventRoute home services user room eventId includeUnredactedContent = .ok pdu ↔
      Finds home services user room eventId includeUnredactedContent pdu ∧ home.Shows user room eventId ∧
        isIgnoredPdu services pdu user = false := by
  rw [← selectEvent_ok_iff, ← home.userCanSeeEvent_iff]
  unfold getRoomEventRoute
  cases selectEvent home services user room eventId includeUnredactedContent with
  | error error => simp
  | ok e =>
    constructor
    · intro got
      simp only at got
      split at got
      · cases got
      next shown =>
        split at got
        · cases got
        next heard =>
          cases got
          exact ⟨rfl, by simpa using shown, by simpa using heard⟩
    · rintro ⟨sel, shown, heard⟩
      cases sel
      simp [shown, heard]

/-! ## Confinement -/

structure Stranger : Prop where
  notJoined : home.cache.isJoined user room = false
  neverJoined : home.cache.onceJoined user room = false
  notInvited : home.cache.isInvited user room = false
  closed : home.isWorldReadable room = false
  states : ∀ event pdu snapshot,
    home.timeline.getPdu event = some pdu ∨ home.timeline.eventidOriginalpdu event = some pdu → pdu.roomId = room →
      home.pduShortstatehash event = some snapshot →
        snapshot.userMembership user ≠ .join ∧ snapshot.userMembership user ≠ .invite ∧
          snapshot.historyVisibility ≠ .worldReadable

/-- Whatever is answered belongs to the room named, and goes to no stranger to its room but an administrator. -/
def ReadConfined : Prop := ∀ pdu, getRoomEventRoute home services user room eventId includeUnredactedContent = .ok pdu →
    pdu.roomId = room ∧ (services.userIsAdmin user ∨ ¬Stranger home user pdu.roomId)

/-- Of what is found under the id and would be shown: it is an event of the room named, and an event without a stored
state is asked for by no stranger but an administrator. -/
def ReadGuarded : Prop := ∀ pdu, Finds home services user room eventId includeUnredactedContent pdu →
  isIgnoredPdu services pdu user = false → home.Shows user room eventId → pdu.roomId = room ∧
      (home.pduShortstatehash eventId = none → services.userIsAdmin user ∨ ¬Stranger home user room)

variable {home services user room eventId includeUnredactedContent}

theorem Finds.held {pdu : Pdu} (finds : Finds home services user room eventId includeUnredactedContent pdu) :
    home.timeline.getPdu eventId = some pdu ∨ home.timeline.eventidOriginalpdu eventId = some pdu := by
  cases finds with
  | stored got => exact .inl got
  | retained _ _ _ kept => exact .inr kept

theorem Stranger.not_shows {pdu : Pdu} {snapshot : Snapshot} (stranger : Stranger home user room)
    (held : home.timeline.getPdu eventId = some pdu ∨ home.timeline.eventidOriginalpdu eventId = some pdu)
    (own : pdu.roomId = room) (got : home.pduShortstatehash eventId = some snapshot) :
    ¬home.Shows user room eventId := by
  intro shows
  obtain ⟨notJoin, notInvite, notReadable⟩ := stranger.states eventId pdu snapshot held own got
  have shown := shows snapshot got
  have noHistory : ¬home.SharesHistory snapshot room eventId user := by
    rintro (joined | mem | ⟨once, -⟩)
    · exact absurd joined (by simp [stranger.notJoined])
    · exact notJoin mem
    · exact absurd once (by simp [stranger.neverJoined])
  cases visibility : snapshot.historyVisibility <;> simp only [visibility] at shown
  · exact notReadable visibility
  · exact shown.elim notJoin notInvite
  · exact notJoin shown
  · exact noHistory shown
  · exact noHistory shown

variable (home services user room eventId includeUnredactedContent)

theorem read_confined_iff : ReadConfined home services user room eventId includeUnredactedContent ↔
    ReadGuarded home services user room eventId includeUnredactedContent := by
  constructor
  · intro confined pdu finds heard shows
    have got := (getRoomEventRoute_ok_iff ..).mpr ⟨finds, shows, heard⟩
    obtain ⟨rfl, known⟩ := confined pdu got
    exact ⟨rfl, fun _ => known⟩
  · intro guarded pdu got
    obtain ⟨finds, shows, heard⟩ := (getRoomEventRoute_ok_iff ..).mp got
    obtain ⟨own, stateless⟩ := guarded pdu finds heard shows
    refine ⟨own, ?_⟩
    rw [own]
    cases stored : home.pduShortstatehash eventId with
    | none => exact stateless stored
    -- A stranger is shown nothing that has a stored state.
    | some snapshot => exact .inr fun stranger => stranger.not_shows finds.held own stored shows

end Route

/-! ## A room of one's own -/

/-- The cabinet's minutes with the cabinet's members, and the notice of an outlier that has no state; mallory is in the
lobby alone. -/
def house : Homeserver where
  timeline := { meeting with
    eventidOutlierpdu := fun event =>
      if event = "$notice" then some { minutes with eventId := "$notice" } else meeting.eventidOutlierpdu event }
  cache := StateCache.empty.markAsJoined mallory lobby 3
  pduShortstatehash event :=
    if event = "$minutes" then
      some { userMembership := fun user => if user = alice then .join else .leave, members := [alice] }
    else none

def plainServices : Services where
  userIsAdmin _ := false
  allowRoomAdminsToRequestUnredactedEvents := false
  isForbiddenRemoteServerName _ := false
  userIsIgnored _ _ := false

theorem mallory_stranger : Stranger house mallory cabinet where
  notJoined := by decide +kernel
  neverJoined := rfl
  notInvited := by decide +kernel
  closed := by decide
  states := by
    intro e pdu snapshot _ _ got
    simp only [house] at got
    split at got
    · cases got
      decide
    · cases got

/-- Naming the lobby, mallory reads the cabinet's minutes; naming the cabinet, the notice. -/
theorem mallory_reads_minutes :
    (∃ pdu, getRoomEventRoute house plainServices mallory lobby "$minutes" false = .ok pdu ∧ pdu.roomId = cabinet) ∧
      (∃ pdu, getRoomEventRoute house plainServices mallory cabinet "$notice" false = .ok pdu ∧ pdu.roomId = cabinet) ∧
        plainServices.userIsAdmin mallory = false ∧ Stranger house mallory cabinet := by
  have answered : (getRoomEventRoute house plainServices mallory lobby "$minutes" false).map Pdu.roomId = .ok cabinet ∧
      (getRoomEventRoute house plainServices mallory cabinet "$notice" false).map Pdu.roomId = .ok cabinet := by decide +kernel
  exact ⟨Foundation.map_eq_ok.mp answered.1, Foundation.map_eq_ok.mp answered.2, rfl, mallory_stranger⟩

end Wbfuwunel.Api
