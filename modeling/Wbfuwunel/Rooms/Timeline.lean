import Mathlib.Data.Prod.Lex
import Wbfuwunel.MediaRefs.Holder
import Wbfuwunel.Rooms.Pdu

/-! How an event enters a room: `rooms/timeline`, with the thread, relation, search, retention and media rows it
writes.

Writes made before a failure stay, so a fallible operation returns its result beside the server it leaves.
-/

set_option autoImplicit false

namespace Wbfuwunel.Rooms

open Foundation MediaRefs Function

structure Env where
  saveUnredactedEvents : Bool
  rules : String → Option RoomRules
  tokenize : String → List String

inductive Error where
  | forbidden (message : String)
  | notFound (message : String)
  | invalidParam (message : String)
  | badJson
  | unsupportedRoomVersion (message : String)
  | database (message : String)
  | senderIgnored (sender : UserId)
  | outside
  deriving DecidableEq, Repr

/-- A row of the word index. A word has no separator byte, so the key names its parts. -/
structure TokenId where
  shortroomid : Nat
  word : String
  pduId : PduId
  deriving DecidableEq, Repr

inductive Tag where
  | replace
  | reference
  deriving DecidableEq, Repr

structure TypedRelation where
  shortroomid : Nat
  parent : Nat
  tag : Tag
  childTs : Nat
  child : Nat
  deriving DecidableEq, Repr

structure Server where
  count : Nat
  roomidShortroomid : RoomId → Option Nat
  rooms : RoomId → RoomState
  roomidSeqbounds : RoomId → SeqBounds
  eventidPduid : EventId → Option PduId
  pduidPdu : PduId → Option Pdu
  eventidOutlierpdu : EventId → Option Pdu
  eventidOriginalpdu : EventId → Option Pdu
  tokenids : TokenId → Bool
  tofromRelation : Nat × Nat → Bool
  relatestoTyped : TypedRelation → Bool
  mediaRefs : Tables
  threadidUserids : PduId → Option (List UserId)
  threadactivityidRootid : Store (Nat ×ₗ Nat) PduId
  threadrootidLatestcount : PduId → Option Nat

namespace Server

def empty : Server where
  count := 0
  roomidShortroomid _ := none
  rooms _ := {}
  roomidSeqbounds _ := {}
  eventidPduid _ := none
  pduidPdu _ := none
  eventidOutlierpdu _ := none
  eventidOriginalpdu _ := none
  tokenids _ := false
  tofromRelation _ := false
  relatestoTyped _ := false
  mediaRefs := .empty
  threadidUserids _ := none
  threadactivityidRootid := .empty
  threadrootidLatestcount _ := none

/-! ## Lookups -/

variable (server : Server) (eventId : EventId)

def getNonOutlier : Option Pdu :=
  (server.eventidPduid eventId).bind server.pduidPdu

/-- The timeline's row, or else the outlier's. -/
def getPdu : Option Pdu :=
  (server.getNonOutlier eventId).or (server.eventidOutlierpdu eventId)

def getPduCount : Option PduCount :=
  (server.eventidPduid eventId).map PduId.count

variable (env : Env)

def getRoomRules (room : RoomId) (unsupported : String → String) : Except Error RoomRules :=
  match (server.rooms room).version with
  | none => .error (.notFound "No create event found")
  | some version =>
    match env.rules version with
    | none => .error (.unsupportedRoomVersion (unsupported version))
    | some rules => .ok rules

def roomVersionRules (room : RoomId) : Except Error RoomRules :=
  server.getRoomRules env room fun version => s!"Unknown or unsupported room version {version}."

/-! ## Who may redact -/

def userCanRedact (redacts : EventId) (sender : UserId) (room : RoomId) (federation : Bool) : Except Error Bool :=
  let redactingEvent := server.getPdu redacts
  if redactingEvent.any fun pdu => pdu.kind = .roomCreate then
    .error (.forbidden "Redacting m.room.create is not safe, forbidding.")
  else if redactingEvent.any fun pdu => pdu.kind = .roomServerAcl then
    .error (.forbidden
      "Redacting m.room.server_acl will result in the room being inaccessible for everyone (empty allow key), forbidding.")
  else
    -- The levels are those of the room named; where the target is stored is not asked.
    match (server.rooms room).powerLevels with
    | some levels =>
      .ok (levels.userCanRedactEventOfOther sender || levels.userCanRedactOwnEvent sender && redactingEvent.any fun pdu =>
          if federation then serverName pdu.sender = serverName sender else pdu.sender = sender)
    | none =>
      -- falling back on m.room.create
      match (server.rooms room).createSender with
      | some creator => .ok (creator = sender || redactingEvent.any fun pdu => pdu.sender = sender)
      | none => .error (.database "No m.room.power_levels or m.room.create events in database for room")

/-! ## Rewriting a stored event -/

def replacePdu (pduId : PduId) (pdu : Pdu) : Except Error Unit × Server :=
  if server.pduidPdu pduId = none then (.error (.notFound "PDU does not exist."), server)
  else (.ok (), { server with pduidPdu := update server.pduidPdu pduId (some pdu) })

def saveOriginalPdu (eventId : EventId) (pdu : Pdu) : Bool × Server :=
  if !env.saveUnredactedEvents then (false, server)
  else if (server.eventidOriginalpdu eventId).isSome then (true, server)
  else (true, { server with eventidOriginalpdu := update server.eventidOriginalpdu eventId (some pdu) })

variable (shortroomid : Nat)

def setTokens (pduId : PduId) (body : String) (present : Bool) : Server := { server with
  tokenids := fun token =>
    if token.shortroomid = shortroomid ∧ token.pduId = pduId ∧ token.word ∈ env.tokenize body then present
    else server.tokenids token }

def indexPdu (pduId : PduId) (body : String) : Server :=
  server.setTokens env shortroomid pduId body true

def deindexPdu (pduId : PduId) (body : String) : Server :=
  server.setTokens env shortroomid pduId body false

def deleteTypedRelation (childId : PduId) (child : Pdu) : Server :=
  match child.content.relatesTo with
  | some (.replacement parent) => delete .replace parent
  | some (.reference parent) => delete .reference parent
  | _ => server
where
  delete (tag : Tag) (parent : EventId) : Server :=
    match server.getPduCount parent, childId.count with
    | some (.normal parentCount), .normal childCount => { server with
        relatestoTyped := update server.relatestoTyped
          ⟨childId.shortroomid, parentCount, tag, child.originServerTs, childCount⟩ false }
    | _, _ => server

/-- With the original retained it takes the media over; without one the event's holder goes. -/
def moveMedia (room : RoomId) (positions : Positions) (originalRetained : Bool) : Server := { server with
  mediaRefs :=
    if originalRetained then
      server.mediaRefs.swapAllOf (.event room positions.gSeq) (.backup room positions.gSeq)
    else server.mediaRefs.releaseAllOf (.event room positions.gSeq) }

def deindexBody (pduId : PduId) (pdu : Pdu) : Server :=
  pdu.content.body.asStr.elim server (server.deindexPdu env shortroomid pduId)

/-- The stripped event; it keeps its place, so its positions go back. -/
def stripped (pdu : Pdu) (rules : RoomRules) (reason : Pdu) : Pdu :=
  pdu.unsigned.positions.elim (pdu.redactInPlace rules reason) (pdu.redactInPlace rules reason).setPositions

/-- `shortroomid` is that of the redaction's room; the rest is read from the target. -/
def redactPdu (eventId : EventId) (reason : Pdu) (shortroomid : Nat) : Except Error Unit × Server :=
  match server.eventidPduid eventId with
  | none => (.ok (), server)
  | some pduId =>
    match server.pduidPdu pduId with
    | none => (.error (.database "PDU ID points to invalid PDU."), server)
    | some pdu =>
      let saved := server.saveOriginalPdu env eventId pdu
      let server := saved.2.deindexBody env shortroomid pduId pdu
      match server.getRoomRules env pdu.roomId fun version =>
          s!"Cannot redact event for unknown room version {version}." with
      | .error error => (.error error, server)
      | .ok rules =>
        match (server.deleteTypedRelation pduId pdu).replacePdu pduId (stripped pdu rules reason) with
        | (.error error, server) => (.error error, server)
        | (.ok (), server) =>
          (.ok (), pdu.unsigned.positions.elim server fun positions => server.moveMedia pdu.roomId positions saved.1)

/-! ## Relations and threads -/

def addRelation (origin target : PduCount) : Server :=
  match origin, target with
  | .normal origin, .normal target => { server with
      tofromRelation := update server.tofromRelation (target, origin) true }
  | _, _ => server

/-- The event a new one relates to, when it has a place in the timeline. -/
def addRelationTo (origin : PduCount) (related : EventId) : Server :=
  (server.getPduCount related).elim server (server.addRelation origin)

def addTypedRelation (childCount : PduCount) (parent : EventId) (child : Pdu) (tag : Tag) : Server :=
  match server.getPduCount parent, childCount with
  | some (.normal parentCount), .normal childCount => { server with
      relatestoTyped := update server.relatestoTyped
        ⟨shortroomid, parentCount, tag, child.originServerTs, childCount⟩ true }
  | _, _ => server

def getParticipants (rootId : PduId) : Option (List UserId) := server.threadidUserids rootId

/-- Participants and activity are written before the root's bundle. -/
def touchThread (rootId : PduId) (root : Pdu) (pduId : PduId) (event : Pdu) : Server :=
  let users := ((server.getParticipants rootId).getD [root.sender]) ++ [event.sender]
  let server := { server with threadidUserids := update server.threadidUserids rootId (some users) }
  match pduId.count with
  | .normal count => { server with
      threadactivityidRootid := server.threadactivityidRootid.put (toLex (pduId.shortroomid, count)) rootId
      threadrootidLatestcount := update server.threadrootidLatestcount rootId (some count) }
  | .backfilled _ => server

def bundleReply (root event : Pdu) : Pdu := { root with
  unsigned := { root.unsigned with
    thread := some ⟨event.eventId, (root.unsigned.thread.elim 0 BundledThread.count) + 1⟩ } }

def addToThread (rootEventId : EventId) (pduId : PduId) (event : Pdu) : Except Error Unit × Server :=
  match server.eventidPduid rootEventId with
  | none => (.error (.invalidParam "Invalid event_id in thread message"), server)
  | some rootId =>
    match server.pduidPdu rootId with
    | none => (.error (.invalidParam "Thread root not found"), server)
    -- The root may be an event of any room.
    | some root => (server.touchThread rootId root pduId event).replacePdu rootId (bundleReply root event)

end Server

/-! ## Appending -/

inductive Origin where
  | build
  | incoming
  deriving DecidableEq

/-- An event on its way in. `mediaRefs` are the media it references; `passes` says whether the checks outside this
module let it in (signatures, authorization, the policy server), and `effects` how those outside ended after it was
stored: the membership update, or the administrator's command. -/
structure Arrival where
  origin : Origin
  pdu : Pdu
  mediaRefs : List String := []
  passes : Bool := true
  effects : Except Error Unit := .ok ()

namespace Server

variable (server : Server)

/-- One transaction: the event at its place, the room's counters, and a holder for each medium it references. -/
def insertPdu (pduId : PduId) (positions : Positions) (seqBounds : SeqBounds) (pdu : Pdu) (mediaRefs : List String) :
    Server := { server with
  count := server.count + 1
  pduidPdu := update server.pduidPdu pduId (some (pdu.setPositions positions))
  roomidSeqbounds := update server.roomidSeqbounds pdu.roomId seqBounds
  eventidPduid := update server.eventidPduid pdu.eventId (some pduId)
  eventidOutlierpdu := update server.eventidOutlierpdu pdu.eventId none
  mediaRefs := mediaRefs.foldl (fun tables mxc => tables.hold mxc (.event pdu.roomId positions.gSeq)) server.mediaRefs }

def appendPduJson (pduId : PduId) (positions : Positions) (seqBounds : SeqBounds) (arrival : Arrival) : Server :=
  server.insertPdu pduId positions seqBounds arrival.pdu arrival.mediaRefs

def nextId (shortroomid : Nat) : PduId := ⟨shortroomid, .normal (server.count + 1)⟩

def store (shortroomid : Nat) (arrival : Arrival) : Server :=
  let pduId := server.nextId shortroomid
  let (rSeq, seqBounds) := (server.roomidSeqbounds arrival.pdu.roomId).takeForward
  server.appendPduJson pduId ⟨rSeq, pduId.count.intoSigned⟩ seqBounds arrival

variable (env : Env)

def redactionEffects (pdu : Pdu) (shortroomid : Nat) : Except Error Unit × Server :=
  match server.roomVersionRules env pdu.roomId with
  | .error error => (.error error, server)
  | .ok rules =>
    match pdu.redactsId rules with
    | none => (.ok (), server)
    | some redactsId =>
      match server.userCanRedact redactsId pdu.sender pdu.roomId false with
      | .error error => (.error error, server)
      | .ok false => (.ok (), server)
      | .ok true => server.redactPdu env redactsId pdu shortroomid

def kindEffects (pduId : PduId) (arrival : Arrival) (shortroomid : Nat) : Except Error Unit × Server :=
  match arrival.pdu.kind with
  | .roomRedaction => server.redactionEffects env arrival.pdu shortroomid
  | .roomMember => (arrival.effects, server)
  | .roomMessage =>
    match arrival.pdu.content.body with
    -- The event is stored by now; the error keeps its relations from being looked at.
    | .malformed => (.error .badJson, server)
    | .absent => (.ok (), server)
    | .text body => (arrival.effects, server.indexPdu env shortroomid pduId body)
  | .roomTopic => (.ok (), arrival.pdu.content.topic.elim server (server.indexPdu env shortroomid pduId))
  | _ => (.ok (), server)

def relationEffects (pduId : PduId) (pdu : Pdu) (shortroomid : Nat) : Except Error Unit × Server :=
  let server := pdu.content.relatesToEventId.elim server (server.addRelationTo pduId.count)
  match pdu.content.relatesTo with
  | some (.reply inReplyTo) => (.ok (), server.addRelationTo pduId.count inReplyTo)
  | some (.thread root) => server.addToThread root pduId pdu
  | some (.replacement original) => (.ok (), server.addTypedRelation shortroomid pduId.count original pdu .replace)
  | some (.reference original) => (.ok (), server.addTypedRelation shortroomid pduId.count original pdu .reference)
  | _ => (.ok (), server)

def appendPduEffects (pduId : PduId) (arrival : Arrival) (shortroomid : Nat) : Except Error Unit × Server :=
  match server.kindEffects env pduId arrival shortroomid with
  | (.error error, server) => (.error error, server)
  | (.ok (), server) => server.relationEffects pduId arrival.pdu shortroomid

variable (arrival : Arrival)

def appendPdu : Except Error (Option PduId) × Server :=
  match server.roomidShortroomid arrival.pdu.roomId with
  | none => (.error (.database "Room does not exist"), server)
  | some shortroomid =>
    let pduId := server.nextId shortroomid
    -- An error of the effects is answered, and what was written stays.
    match (server.store shortroomid arrival).appendPduEffects env pduId arrival shortroomid with
    | (.error error, server) => (.error error, server)
    | (.ok (), server) => (.ok (some pduId), server)

def buildAndAppendPdu : Except Error (Option PduId) × Server :=
  if !arrival.passes then (.error .outside, server)
  else if arrival.pdu.kind = .roomRedaction then
    match server.roomVersionRules env arrival.pdu.roomId with
    | .error error => (.error error, server)
    | .ok rules =>
      match (arrival.pdu.redactsId rules).elim (.ok true) fun redactsId =>
          server.userCanRedact redactsId arrival.pdu.sender arrival.pdu.roomId false with
      | .error error => (.error error, server)
      | .ok false => (.error (.forbidden "User cannot redact this event."), server)
      | .ok true => server.appendPdu env arrival
  else server.appendPdu env arrival

/-- An event already in the timeline is left alone; one that soft-fails is not appended. -/
def upgradeOutlierToTimelinePdu : Except Error (Option PduId) × Server :=
  match server.eventidPduid arrival.pdu.eventId with
  | some pduId => (.ok (some pduId), server)
  | none =>
    match server.roomVersionRules env arrival.pdu.roomId with
    | .error error => (.error error, server)
    | .ok rules =>
      match (arrival.pdu.redactsId rules).elim (.ok true) fun redactsId =>
          server.userCanRedact redactsId arrival.pdu.sender arrival.pdu.roomId true with
      | .error error => (.error error, server)
      | .ok permitted =>
        if permitted && arrival.passes then server.appendPdu env arrival else (.ok none, server)

def arrive : Except Error (Option PduId) × Server :=
  match arrival.origin with
  | .build => server.buildAndAppendPdu env arrival
  | .incoming => server.upgradeOutlierToTimelinePdu env arrival

/-! ## History from before -/

def prependBackfillPdu (pduId : PduId) (positions : Positions) (seqBounds : SeqBounds) (pdu : Pdu)
    (mediaRefs : List String) : Server :=
  server.insertPdu pduId positions seqBounds pdu mediaRefs

def indexBackfilled (shortroomid : Nat) (pduId : PduId) (pdu : Pdu) : Server :=
  match pdu.kind with
  | .roomMessage => pdu.content.body.asStr.elim server (server.indexPdu env shortroomid pduId)
  | .roomTopic => pdu.content.topic.elim server (server.indexPdu env shortroomid pduId)
  | _ => server

def backfillPdu (pdu : Pdu) (mediaRefs : List String) : Server :=
  match server.eventidPduid pdu.eventId, server.roomidShortroomid pdu.roomId with
  | none, some shortroomid =>
    -- Backfilled counts run downwards from zero.
    let pduId : PduId := ⟨shortroomid, .backfilled (server.count + 1)⟩
    let (rSeq, seqBounds) := (server.roomidSeqbounds pdu.roomId).takeBackfilled
    (server.prependBackfillPdu pduId ⟨rSeq, pduId.count.intoSigned⟩ seqBounds pdu mediaRefs).indexBackfilled env shortroomid
      pduId pdu
  | _, _ => server

end Server

end Wbfuwunel.Rooms
