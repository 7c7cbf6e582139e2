import Wbfuwunel.Api.RecentRuns
import Wbfuwunel.Streams.GapRuns
import Wbfuwunel.Streams.RoomChannels

/-! A `Subscribe` that asks to be caught up, while events are appended: `handle_subscribe`, `publish_to_channels` and
`push_window`, split where they can overlap.

The connection enters the channels, then the stream of each room is opened, each as its room is at that moment, and the
window is read from them and pushed pack by pack. An append commits its event, asks whether anyone listens, chooses the
recipients among the listeners and pushes. What the connection's queue took is kept beside, with the number of packs
it had taken when an event was last lost.
-/

set_option autoImplicit false

namespace Wbfuwunel.Api
open Foundation Core Wire Streams Database Rooms Function

structure Subscribing (Queue : Type) where
  connection : ConnectionId
  user : UserId
  queue : Queue
  id : UInt64
  rooms : List RoomId
  accountWide : Bool
  cgSeq : Option Int64

/-- What the two sides read: the filters of a window for the subscribing user, who ignores whom, what is served of an
event, the bytes of a `Push` and the configuration. -/
structure Serving (Pdu Pack PackError : Type) where
  isIgnored : Pdu → Bool
  canSee : Pdu → Bool
  bundleAggregations : Pdu → Pdu
  toFormat : Pdu → Bytes
  sender : Pdu → UserId
  userIsIgnored : (sender user : UserId) → Bool
  pushPack : List WindowEvent → MakePack Pack PackError
  windowMaxBytes : Nat
  dataMax : Nat
  recentMaxLimit : Nat
  pushMaxEventsPerPack : Nat

inductive Stage (Pdu : Type) where
  | asked
  | refused
  | registered
  /-- Some streams are opened, the others are not. -/
  | reading (streams : RoomId → List (Count × Pdu)) (unread : List RoomId)
  | collected (window : Window)
  /-- The packs still to be pushed, and the push under way. -/
  | pushing (current : Option Nat) (packs : List (List WindowEvent))
  | finished

inductive AppendStage where
  | committed
  | listened
  | chosen (recipients : List ConnectionId)
  | pushing (push : Nat)

structure Append (Pdu : Type) where
  room : RoomId
  count : Count
  pdu : Pdu
  stage : AppendStage

structure Received where
  id : UInt64
  events : List WindowEvent
  gap : Bool

structure CatchUp (Queue Pdu Pack PackError : Type) where
  pushing : Pushing RoomTopic UserId Queue Pack PackError
  rows : RoomId → List (Count × Pdu)
  /-- The positions that were handed out. -/
  used : List Int64
  stage : Stage Pdu
  appends : Nat → Option (Append Pdu)
  /-- What each push carries. -/
  carries : Nat → List WindowEvent
  inbox : List Received
  missed : Int64 → Option Nat
  isOpen : Bool

inductive CatchUpEvent (Pdu : Type) where
  | register
  | recheck (left : List RoomId)
  | openStream
  | collect
  | markCut
  | pushPack (push : Nat)
  | finish
  | commit (append : Nat) (room : RoomId) (count : Count) (pdu : Pdu)
  | askListened (append : Nat)
  | choose (append : Nat)
  | publish (append push : Nat)
  | conclude (append : Nat)
  | take (push : Nat)
  | send (push : Nat) (answer : Except QueueError Unit)
  | mark (push : Nat)

variable {Queue Pdu Pack PackError : Type}

namespace Serving

variable (serving : Serving Pdu Pack PackError) (streams : RoomId → List (Count × Pdu))

def reader : Reader RoomId Pdu Empty where
  pdusRev room before := ((streams room).filter fun item => Reader.isOlderThan item.1 before).map .ok
  isIgnored := serving.isIgnored
  canSee := serving.canSee
  bundleAggregations := serving.bundleAggregations
  toFormat := serving.toFormat
  windowMaxBytes := serving.windowMaxBytes
  dataMax := serving.dataMax

def windowAfter (rooms : List RoomId) (cgSeq : Int64) : Window :=
  (serving.reader streams).collectWindow rooms ⟨serving.recentMaxLimit, some (.fromSigned cgSeq), none⟩

def pushed (count : Count) (pdu : Pdu) : WindowEvent := ⟨count.intoSigned, serving.toFormat pdu⟩

def packs (window : Window) : List (List WindowEvent) :=
  (listPackRanges (window.events.map fun event => event.json.length) serving.pushMaxEventsPerPack serving.dataMax).map
    (packAt window.events)

end Serving

def Subscribing.after (request : Subscribing Queue) : Option Int64 := request.cgSeq.filter (· ≠ 0)

def isPrefixable (events : List WindowEvent) : Bool := events.all fun event => event.json.length < 2 ^ 32

namespace CatchUp

def start (registry : RoomChannels Queue) : CatchUp Queue Pdu Pack PackError where
  pushing := .idle registry
  rows _ := []
  used := []
  stage := .asked
  appends _ := none
  carries _ := []
  inbox := []
  missed _ := none
  isOpen := true

variable (serving : Serving Pdu Pack PackError) (request : Subscribing Queue) (world : CatchUp Queue Pdu Pack PackError)

def registry : RoomChannels Queue := world.pushing.registry

def setRegistry (registry : RoomChannels Queue) : CatchUp Queue Pdu Pack PackError :=
  { world with pushing := { world.pushing with registry } }

def miss (isLost : Int64 → Bool) : CatchUp Queue Pdu Pack PackError :=
  { world with missed := fun gSeq => if isLost gSeq then some world.inbox.length else world.missed gSeq }

def holds (events : List WindowEvent) (gSeq : Int64) : Bool := events.any fun event => event.gSeq = gSeq

def markGap (connections : List ConnectionId) (isLost : Int64 → Bool) : CatchUp Queue Pdu Pack PackError :=
  let marked := world.setRegistry (world.registry.markGap connections)
  if request.connection ∈ connections then marked.miss isLost else marked

def pushInner (push : Nat) (topic : Option RoomTopic) (connections : List ConnectionId) (events : List WindowEvent) :
    CatchUp Queue Pdu Pack PackError :=
  if events.isEmpty then world
  else if isPrefixable events then
    { world with
      pushing := world.pushing.step (.start push topic connections (serving.pushPack events))
      carries := update world.carries push events }
  else world.markGap request connections (holds events)

def setAppend (append : Nat) (entry : Option (Append Pdu)) : CatchUp Queue Pdu Pack PackError :=
  { world with appends := update world.appends append entry }

/-! ## The `Subscribe` -/

def register : CatchUp Queue Pdu Pack PackError :=
  match world.registry.subscribe request.connection request.user request.queue request.id request.rooms
    request.accountWide with
  | (_, none) => { world with stage := .refused }
  -- What was lost before is the last conversation's.
  | (channels, some _) => { world.setRegistry channels with stage := .registered, missed := fun _ => none }

def recheck (left : List RoomId) : CatchUp Queue Pdu Pack PackError :=
  { world.setRegistry (RoomChannels.unsubscribe world.registry request.connection left) with
    stage := match request.after with
      | none => .finished
      | some _ => .reading (fun _ => []) (once request.rooms) }

def collect (streams : RoomId → List (Count × Pdu)) : CatchUp Queue Pdu Pack PackError :=
  match request.after with
  | none => { world with stage := .finished }
  | some cgSeq => { world with stage := .collected (serving.windowAfter streams request.rooms cgSeq) }

def markCut (window : Window) : CatchUp Queue Pdu Pack PackError :=
  let marked := if window.isCutShort then
      world.markGap request [request.connection] fun gSeq => world.used.contains gSeq && !holds window.events gSeq
    else world
  { marked with stage := .pushing none (serving.packs window) }

def isOver (push : Option Nat) : Bool := push.all fun push => (world.pushing.pushes push).isNone

/-! ## An append -/

def commit (append : Nat) (room : RoomId) (count : Count) (pdu : Pdu) : CatchUp Queue Pdu Pack PackError :=
  { world.setAppend append (some ⟨room, count, pdu, .committed⟩) with
    rows := update world.rows room
      ((world.rows room).orderedInsert (fun first second => signed second.1 ≤ signed first.1) (count, pdu))
    used := count.intoSigned :: world.used }

def recipients (entry : Append Pdu) : List ConnectionId :=
  ((world.registry.listeners (.room entry.room)).filter fun listener =>
    !serving.userIsIgnored (serving.sender entry.pdu) listener.2).map Prod.fst

def getPduFromId (room : RoomId) (count : Count) : Option Pdu :=
  ((world.rows room).find? fun item => item.1 = count).map Prod.snd

/-- The event is read back from its row. -/
def publish (append push : Nat) (entry : Append Pdu) (recipients : List ConnectionId) :
    CatchUp Queue Pdu Pack PackError :=
  match world.getPduFromId entry.room entry.count with
  | none => world.setAppend append none
  | some pdu =>
    let event := serving.pushed entry.count pdu
    if serving.dataMax < framedLen event.json.length then world.setAppend append none
    else
      (world.pushInner serving request push (some (.room entry.room)) recipients [event]).setAppend append
        (some { entry with stage := .pushing push })

/-! ## The queue -/

def deliver (target : Target Queue) (events : List WindowEvent) : Outcome → CatchUp Queue Pdu Pack PackError
  | .queued => { world with inbox := world.inbox ++ [⟨target.id, events, target.gap⟩] }
  | .dropped => world.miss (holds events)
  | .gone => { world with isOpen := false }

def send (name : Nat) (push : Push Queue Pack PackError) (target : Target Queue) (turn : Nat)
    (rest : List (Target Queue × Nat)) (answer : Except QueueError Unit) : CatchUp Queue Pdu Pack PackError :=
  let sent := { world with pushing := world.pushing.send name push target turn rest answer }
  if target.connection = request.connection then
    sent.deliver target (world.carries name) (push.makePack.tried target answer)
  else sent

def step : CatchUpEvent Pdu → CatchUp Queue Pdu Pack PackError
  | .register =>
    match world.stage with
    | .asked => world.register request
    | _ => world
  | .recheck left =>
    match world.stage with
    | .registered => world.recheck request left
    | _ => world
  | .openStream =>
    match world.stage with
    | .reading streams (room :: unread) =>
      { world with stage := .reading (update streams room (world.rows room)) unread }
    | _ => world
  | .collect =>
    match world.stage with
    | .reading streams [] => world.collect serving request streams
    | _ => world
  | .markCut =>
    match world.stage with
    | .collected window => world.markCut serving request window
    | _ => world
  | .pushPack push =>
    match world.stage with
    | .pushing current (events :: packs) =>
      if world.isOver current && world.isOver (some push) then
        { world.pushInner serving request push none [request.connection] events with
          stage := .pushing (some push) packs }
      else world
    | _ => world
  | .finish =>
    match world.stage with
    | .pushing current [] => if world.isOver current then { world with stage := .finished } else world
    | _ => world
  | .commit append room count pdu =>
    match world.appends append with
    | some _ => world
    -- No position is handed out twice.
    | none => if count.intoSigned ∈ world.used then world else world.commit append room count pdu
  | .askListened append =>
    match world.appends append with
    | some ⟨room, count, pdu, .committed⟩ =>
      world.setAppend append (if world.registry.isListened (.room room) then some ⟨room, count, pdu, .listened⟩ else none)
    | _ => world
  | .choose append =>
    match world.appends append with
    | some ⟨room, count, pdu, .listened⟩ =>
      let recipients := world.recipients serving ⟨room, count, pdu, .listened⟩
      world.setAppend append (if recipients.isEmpty then none else some ⟨room, count, pdu, .chosen recipients⟩)
    | _ => world
  | .publish append push =>
    match world.appends append with
    | some ⟨room, count, pdu, .chosen recipients⟩ =>
      if world.isOver (some push) then
        world.publish serving request append push ⟨room, count, pdu, .chosen recipients⟩ recipients
      else world
    | _ => world
  | .conclude append =>
    match world.appends append with
    | some ⟨_, _, _, .pushing push⟩ => if world.isOver (some push) then world.setAppend append none else world
    | _ => world
  | .take push => { world with pushing := world.pushing.step (.take push) }
  | .send name answer =>
    match world.pushing.pushes name with
    | some push =>
      match push.candidates, push.targets with
      | [], (target, turn) :: rest => world.send request name push target turn rest answer
      | _, _ => world
    | none => world
  | .mark push => { world with pushing := world.pushing.step (.mark push) }

end CatchUp
end Wbfuwunel.Api
