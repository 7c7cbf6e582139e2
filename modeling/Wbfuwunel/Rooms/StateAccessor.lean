import Wbfuwunel.Rooms.StateCache
import Wbfuwunel.Rooms.Timeline

/-! Who may see an event: `rooms/state_accessor`.

The answer is put together from the state stored for the event, if there is one, and from the membership of the room
the caller names.
-/

set_option autoImplicit false

namespace Wbfuwunel.Rooms

structure Snapshot where
  historyVisibility : HistoryVisibility := .shared
  userMembership : UserId → MembershipState := fun _ => .leave
  members : List UserId := []
  stateFullIds : List EventId := []

namespace Snapshot

def userWasJoined (snapshot : Snapshot) (user : UserId) : Bool := snapshot.userMembership user = .join

def userWasInvited (snapshot : Snapshot) (user : UserId) : Bool :=
  snapshot.userMembership user = .join || snapshot.userMembership user = .invite

end Snapshot

open Snapshot

/-- `pduShortstatehash` leads to the state before the event, for the events that have one stored. -/
structure Homeserver where
  timeline : Server
  cache : StateCache
  pduShortstatehash : EventId → Option Snapshot

namespace Homeserver

variable (home : Homeserver)

def userSharedHistory (snapshot : Snapshot) (room : RoomId) (event : EventId) (user : UserId) : Bool :=
  if home.cache.isJoined user room || snapshot.userWasJoined user then true
  else if !home.cache.onceJoined user room then false
  else
    match home.cache.getLeftCount user room with
    | none => false
    | some leftCount =>
      match home.timeline.getPduCount event with
      | none => false
      | some eventCount => eventCount.signed ≤ leftCount.toInt64.toInt

def userCanSeeEvent (user : UserId) (room : RoomId) (event : EventId) : Bool :=
  match home.pduShortstatehash event with
  -- Where no state is stored for the event, it is shown.
  | none => true
  | some snapshot =>
    match snapshot.historyVisibility with
    | .worldReadable => true
    | .invited => snapshot.userWasInvited user
    | .joined => snapshot.userWasJoined user
    | .shared | .other _ => home.userSharedHistory snapshot room event user

def serverCanSeeEvent (origin : String) (room : RoomId) (event : EventId) : Bool :=
  match home.pduShortstatehash event with
  | none => true
  | some snapshot =>
    let currentServerMembers := (home.cache.roomMembers room).filter (serverName · = origin)
    match snapshot.historyVisibility with
    | .invited => currentServerMembers.any snapshot.userWasInvited
    | .joined => currentServerMembers.any snapshot.userWasJoined
    | .worldReadable | .shared | .other _ => true

def serverJoinedAtPdu (origin : String) (event : EventId) : Bool :=
  match home.pduShortstatehash event with
  | none => false
  | some snapshot => (snapshot.members.filter (serverName · = origin)).any snapshot.userWasJoined

def isWorldReadable (room : RoomId) : Bool := (home.timeline.rooms room).historyVisibility = some .worldReadable

/-! ## What shows an event -/

/-- A member shares the whole history of the room named; a former one shares it up to the last leave. -/
def SharesHistory (snapshot : Snapshot) (room : RoomId) (event : EventId) (user : UserId) : Prop :=
  home.cache.isJoined user room ∨ snapshot.userMembership user = .join ∨
    home.cache.onceJoined user room ∧ ∃ leftCount eventCount, home.cache.getLeftCount user room = some leftCount ∧
      home.timeline.getPduCount event = some eventCount ∧ eventCount.signed ≤ leftCount.toInt64.toInt

/-- The grounds on which an event is shown to a user who names a room. There is nothing to ask of an event without a
stored state. -/
def Shows (user : UserId) (room : RoomId) (event : EventId) : Prop :=
  ∀ snapshot, home.pduShortstatehash event = some snapshot → match snapshot.historyVisibility with
    | .worldReadable => True
    | .invited => snapshot.userMembership user = .join ∨ snapshot.userMembership user = .invite
    | .joined => snapshot.userMembership user = .join
    | .shared | .other _ => home.SharesHistory snapshot room event user

theorem userSharedHistory_iff (snapshot : Snapshot) (r : RoomId) (e : EventId) (u : UserId) :
    home.userSharedHistory snapshot r e u ↔ home.SharesHistory snapshot r e u := by
  unfold userSharedHistory SharesHistory
  by_cases joined : home.cache.isJoined u r || snapshot.userWasJoined u
  · rw [if_pos joined]
    simp only [Bool.or_eq_true, userWasJoined, decide_eq_true_eq] at joined
    tauto
  · rw [if_neg joined]
    simp only [Bool.or_eq_true, userWasJoined, decide_eq_true_eq, not_or] at joined
    cases once : home.cache.onceJoined u r with
    | false => simp [joined]
    | true =>
      cases left : home.cache.getLeftCount u r with
      | none => simp [joined]
      | some leftCount => cases ok : home.timeline.getPduCount e <;> simp [joined]

theorem userCanSeeEvent_iff (u : UserId) (r : RoomId) (e : EventId) : home.userCanSeeEvent u r e ↔ home.Shows u r e := by
  unfold userCanSeeEvent Shows
  cases got : home.pduShortstatehash e with
  | none => simp
  | some snapshot =>
    simp only [Option.some.injEq, forall_eq']
    cases snapshot.historyVisibility <;>
      simp [userWasInvited, userWasJoined, userSharedHistory_iff]

end Homeserver

end Wbfuwunel.Rooms
