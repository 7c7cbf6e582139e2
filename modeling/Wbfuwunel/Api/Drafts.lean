import Wbfuwunel.Foundation.Checks
import Wbfuwunel.Rooms.Pdu
import Wbfuwunel.Wire.Pack

/-! Drafts: the handlers of `Stream` packs in `client/wbf/draft.rs`, and what a stranger to the room learns from them.

Each handler but one asks for the membership before it reads anything of the room. The one that opens a draft counts the
room's members first.
-/

set_option autoImplicit false

namespace Wbfuwunel.Api.Drafts

open Foundation Rooms Wire

inductive RejectCode where
  | unauthorized | forbidden | notFound | conflict | invalidRequest | tooLarge | rateLimited | unknownKind | internal
  deriving DecidableEq, Repr

structure Reject where
  code : RejectCode
  message : String
  retryAfterMs : Option Nat := none
  closesConnection : Bool := false
  deriving DecidableEq, Repr

def Reject.of (code : RejectCode) (message : String) : Reject := { code, message }

structure Session where
  user : UserId
  device : String

structure DraftEvent where
  eventId : EventId
  kind : String
  sender : UserId
  isRedacted : Bool

/-- What is read of the room that a pack names: its members and their stored number, its events by their `g_seq`, and
the `g_seq` of an event. -/
structure RoomState where
  isJoined : UserId → Bool
  joinedCount : Option Nat
  pduFromId : UInt64 → Option DraftEvent
  pduCount : EventId → Option Int

/-- The rest of the server. `send` is `send_message_event` for the anchor, and `sendUnjoined` its answer to a user whom the
room has not among its members. -/
structure Services where
  parseRoomId : Bytes → Except Reject RoomId
  maxPieceBytes : Nat
  maxRoomMembers : Nat
  isKnownRoom : RoomId → Bool
  pduCountElsewhere : EventId → Option Int
  isSuspended : UserId → Bool
  userCanSendMessage : RoomId → UserId → Option Bool
  takePiece : Session → Option Nat
  takeDemand : Session → Option Nat
  redact : RoomState → UserId → EventId → Except Reject EventId
  send : RoomState → Session → RoomId → UInt32 → Except Reject EventId
  sendUnjoined : Session → RoomId → UInt32 → Except Reject EventId

def noDataTolerance : Nat := 1024

section Checks

variable (services : Services) (state : RoomState) (user : UserId) (view : PackView)

end Checks

/-! ## The handlers -/

section Handlers

variable (services : Services) (session : Session) (view : PackView) (room : RoomId) (state : RoomState)

end Handlers

def getSession : Option Session → Except Reject Session
  | none => .error (.of .unauthorized "log in first: this connection has no session")
  | some session => .ok session

variable {services : Services} {session : Session} {view : PackView} {room : RoomId} {state first second : RoomState}

/-- The pack is to open a draft, and nothing that is asked before the members are counted refuses it. -/
structure Opens (services : Services) (view : PackView) (room : RoomId) : Prop where
  named : services.parseRoomId view.metaSection = .ok room
  flagless : view.header.flags = ⟨0⟩
  subtype : view.header.subtype = 0x01
  empty : view.data.length ≤ noDataTolerance

section Lobby

def opening : PackView := ⟨⟨1, .stream, 0x01, ⟨0⟩, 0, 1⟩, utf8 "!r:s", []⟩

end Lobby

end Wbfuwunel.Api.Drafts
