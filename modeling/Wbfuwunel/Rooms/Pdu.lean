import Wbfuwunel.Foundation.Saturating


/-! Stored events: `core/matrix/pdu`, with the parts of an event's content and `unsigned` that the timeline reads. -/

set_option autoImplicit false

namespace Wbfuwunel.Rooms

open Foundation

abbrev EventId := String
abbrev RoomId := String
abbrev UserId := String

def serverName (user : UserId) : String := String.ofList ((user.toList.dropWhile (· ≠ ':')).drop 1)

inductive Kind where
  | roomCreate
  | roomServerAcl
  | roomRedaction
  | roomMember
  | roomMessage
  | roomTopic
  | other (type : String)
  deriving DecidableEq, Repr

inductive MembershipState where
  | join
  | invite
  | leave
  | knock
  | ban
  | custom (value : String)
  deriving DecidableEq, Repr

/-! ## Positions -/

/-- `backfilled n` is the count `-n`. -/
inductive PduCount where
  | normal (count : Nat)
  | backfilled (count : Nat)
  deriving DecidableEq, Repr

namespace PduCount

def signed : PduCount → Int
  | normal count => count
  | backfilled count => -count

def size : PduCount → Nat
  | normal count | backfilled count => count

def intoSigned (count : PduCount) : Int64 := Int64.ofInt count.signed

def saturatingSub : PduCount → Nat → PduCount
  | normal count, less => normal (count - less)
  | backfilled count, less => backfilled (count + less)

end PduCount

structure PduId where
  shortroomid : Nat
  count : PduCount
  deriving DecidableEq, Repr

structure Positions where
  rSeq : Int
  gSeq : Int64
  deriving DecidableEq, Repr

def maxSafeInt : Int := 2 ^ 53 - 1

/-- `Int::new_saturating`: the nearest integer that canonical JSON can hold. -/
def saturateInt (value : Int) : Int := max (-maxSafeInt) (min value maxSafeInt)

def Positions.saturated (positions : Positions) : Positions :=
  ⟨saturateInt positions.rSeq, .ofInt (saturateInt positions.gSeq.toInt)⟩

structure SeqBounds where
  lastForward : Int := 0
  nextBackfilled : Int := 0
  deriving DecidableEq, Repr

def SeqBounds.takeForward (bounds : SeqBounds) : Int × SeqBounds :=
  let lastForward := clampSigned64 (bounds.lastForward + 1)
  (lastForward, { bounds with lastForward })

def SeqBounds.takeBackfilled (bounds : SeqBounds) : Int × SeqBounds :=
  (bounds.nextBackfilled, { bounds with nextBackfilled := clampSigned64 (bounds.nextBackfilled - 1) })

/-! ## Events -/

/-- The `body` of a message, as `ExtractBody` reads it: a value that is no string fails the whole read. -/
inductive Body where
  | absent
  | text (value : String)
  | malformed
  deriving DecidableEq, Repr

def Body.asStr : Body → Option String
  | .text value => some value
  | _ => none

inductive Relation where
  | reply (inReplyTo : EventId)
  | thread (root : EventId)
  | replacement (original : EventId)
  | reference (original : EventId)
  | other
  deriving DecidableEq, Repr

/-- `relatesToEventId` is `m.relates_to.event_id`, which a plain reply does not have. -/
structure Content where
  body : Body := .absent
  topic : Option String := none
  relatesTo : Option Relation := none
  relatesToEventId : Option EventId := none
  redacts : Option EventId := none
  deriving DecidableEq, Repr

def Content.thread? (content : Content) : Option EventId :=
  match content.relatesTo with
  | some (.thread root) => some root
  | _ => none

structure BundledThread where
  latestEvent : EventId
  count : Nat
  deriving DecidableEq, Repr

structure Unsigned where
  positions : Option Positions := none
  thread : Option BundledThread := none
  redactedBecause : Option EventId := none
  deriving DecidableEq, Repr

structure Pdu where
  eventId : EventId
  roomId : RoomId
  sender : UserId
  kind : Kind
  originServerTs : Nat := 0
  prevEvents : List EventId := []
  content : Content := {}
  redacts : Option EventId := none
  unsigned : Unsigned := {}
  deriving DecidableEq, Repr

variable (pdu : Pdu)

def Pdu.isRedacted : Bool := pdu.unsigned.redactedBecause.isSome

/-! ## Room versions and power -/

/-- What a room version says about redactions: where the target stands, and what survives of a content. -/
structure RoomRules where
  contentFieldRedacts : Bool
  redactContent : Kind → Content → Content

def Pdu.redactsId (rules : RoomRules) : Option EventId :=
  if pdu.kind = .roomRedaction then
    if rules.contentFieldRedacts then pdu.content.redacts else pdu.redacts
  else none

/-- `redact_in_place`, which drops `unsigned` and leaves the reason there. -/
def Pdu.redactInPlace (rules : RoomRules) (reason : Pdu) : Pdu := { pdu with
  content := rules.redactContent pdu.kind pdu.content
  unsigned := { redactedBecause := some reason.eventId } }

def Pdu.setPositions (positions : Positions) : Pdu := { pdu with
  unsigned := { pdu.unsigned with positions := some positions.saturated } }

/-- A creator's level is above every number. -/
inductive UserPowerLevel where
  | int (level : Int)
  | infinite
  deriving DecidableEq, Repr

def UserPowerLevel.reaches (power : UserPowerLevel) (required : Int) : Bool :=
  match power with
  | .int level => required ≤ level
  | .infinite => true

/-- The levels of a room, and what its helpers answer. -/
structure PowerLevels where
  forUser : UserId → UserPowerLevel
  redact : Int
  userCanRedactOwnEvent : UserId → Bool
  userCanRedactEventOfOther : UserId → Bool
  ofOther_level : ∀ user, userCanRedactEventOfOther user → (forUser user).reaches redact

inductive HistoryVisibility where
  | worldReadable
  | invited
  | joined
  | shared
  | other (value : String)
  deriving DecidableEq, Repr

/-- The lists of an `m.room.server_acl`, and which server names they allow. -/
structure ServerAcl where
  allow : List String
  deny : List String
  isAllowed : String → Bool

structure RoomState where
  version : Option String := none
  powerLevels : Option PowerLevels := none
  createSender : Option UserId := none
  historyVisibility : Option HistoryVisibility := none
  serverAcl : Option ServerAcl := none

end Wbfuwunel.Rooms
