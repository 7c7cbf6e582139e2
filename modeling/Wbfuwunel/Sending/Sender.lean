import Wbfuwunel.Foundation.Runs
import Wbfuwunel.Foundation.Saturating
import Wbfuwunel.Foundation.Store

/-! The queue to one destination and the worker that empties it: `sending/sender.rs` and `sending/data.rs`.

Events wait in `servernameevent_data`. Those of the transaction under way are in `servercurrentevent_data`, the active
rows, until it succeeds. Keys are what follows the destination's prefix.
-/

set_option autoImplicit false

namespace Wbfuwunel.Sending

open Foundation Store

inductive DestinationKind where
  | appservice
  | push
  | federation
  deriving DecidableEq, Repr

inductive Payload where
  | edu (bytes : Bytes)
  | toDevice (bytes : Bytes)
  | deviceListChanged (bytes : Bytes)
  | badgeRefresh
  deriving DecidableEq, Repr

abbrev QueueItem := Bytes × Option Payload

inductive SendingEvent where
  | pdu (id : Bytes)
  | payload (payload : Payload)
  deriving DecidableEq, Repr

def SendingEvent.pduId : SendingEvent → Option Bytes
  | .pdu id => some id
  | .payload _ => none

def eventOf : QueueItem → SendingEvent
  | (key, none) => .pdu key
  | (_, some payload) => .payload payload

inductive Msg where
  | queued (item : QueueItem)
  | flush
  | badge
  deriving DecidableEq, Repr

inductive TransactionStatus where
  | running
  | runningForceRetry
  | failed (tries : UInt32)
  | retrying (tries : UInt32)
  deriving DecidableEq, Repr

/-- A transaction under way: its events, the rows they came from, and whether the destination was cleaned up since. -/
structure Transaction where
  events : List SendingEvent
  rows : List QueueItem
  cleaned : Bool
  deriving DecidableEq, Repr

def DEQUEUE_LIMIT : Nat := 48

/-- What `select_edus` finds: events that are kept as active rows, presence, which is not, and events for the queue; the
rows have new counts for keys. -/
structure EduSelection where
  durable : List (Bytes × Bytes)
  presence : List Bytes
  overflow : List (Bytes × Bytes)

/-- What the worker finds out while it handles one message: whether the server may be tried, whether a failed pusher has to
wait, when a wake comes and when events are selected, and what ephemeral events there are. -/
structure Conditions where
  shouldAttempt : Bool
  wakeBackoff : Bool
  backoff : Bool
  edus : EduSelection

/-! ## Pushing -/

inductive PusherLookup where
  | found
  | missing
  | failed
  deriving DecidableEq, Repr

inductive PushResult where
  | delivered
  | permanentError
  | transientError
  deriving DecidableEq, Repr

inductive PduFate where
  | gone
  | redacted
  | pushed (result : PushResult)
  deriving DecidableEq, Repr

structure Fate where
  success : Bool
  pusher : PusherLookup
  badge : PushResult
  suppressed : Bool
  pdu : Bytes → PduFate

/-- Whether the transaction succeeds, and the keys of the PDUs that need not be sent again when it does not. -/
def sendEventsDestPush (events : List SendingEvent) (fate : Fate) : Bool × List Bytes :=
  match fate.pusher with
  | .failed => (false, [])
  | .missing => (true, [])
  | .found =>
    if .payload .badgeRefresh ∈ events ∧ fate.badge = .transientError then (false, [])
    -- The events are handed to the queue of suppressed pushes.
    else if fate.suppressed then (true, [])
    else
      let pdus := events.filterMap SendingEvent.pduId
      let failures := pdus.filter fun id => fate.pdu id = .pushed .transientError
      if failures.isEmpty then (true, []) else (false, pdus.filter fun id => id ∉ failures)

def sendEvents (kind : DestinationKind) (events : List SendingEvent) (fate : Fate) : Bool × List Bytes :=
  match kind with
  | .push => sendEventsDestPush events fate
  | _ => (fate.success, [])

/-! ## The worker -/

structure Sender where
  queued : Store Bytes (Option Payload)
  active : Store Bytes (Option Payload)
  status : Option TransactionStatus
  futures : List Transaction
  channel : List Msg
  /-- Whether the worker takes messages, or only waits for what is under way. -/
  working : Bool

def putAll (table : Store Bytes (Option Payload)) (items : List QueueItem) : Store Bytes (Option Payload) :=
  items.foldl (fun table item => table.put item.1 item.2) table

def eduItems (edus : List (Bytes × Bytes)) : List QueueItem := edus.map fun edu => (edu.1, some (.edu edu.2))

namespace Sender

variable (kind : DestinationKind) (sender : Sender)

def markAsActive (items : List QueueItem) : Sender :=
  { sender with
    active := putAll sender.active items
    queued := (items.map Prod.fst).foldl del sender.queued }

def deleteAllActiveRequests : Sender := { sender with active := empty }

def retainQueued (items : List QueueItem) : List QueueItem := items.filter fun item => sender.queued.contains item.1

def selectEdus (edus : EduSelection) (items : List QueueItem) : Sender × Transaction :=
  if kind = .federation then
    ({ sender with queued := putAll sender.queued (eduItems edus.overflow), active := putAll sender.active (eduItems edus.durable) },
      { events := (items ++ eduItems edus.durable).map eventOf ++ edus.presence.map fun edu => .payload (.edu edu)
        rows := items ++ eduItems edus.durable
        cleaned := false })
  else (sender, ⟨items.map eventOf, items, false⟩)

variable (conditions : Conditions)

/-- Whether a transaction may be sent, whether it is the one before again, and the status then. -/
def selectEventsCurrent (force : Bool) (status : Option TransactionStatus) : Bool × Bool × Option TransactionStatus :=
  if kind = .federation ∧ !conditions.shouldAttempt then (false, false, status)
  else
    match status with
    | none => (true, false, some .running)
    | some .running => (false, false, some (if force then .runningForceRetry else .running))
    | some .runningForceRetry => (false, false, some .runningForceRetry)
    | some (.failed tries) =>
      if conditions.backoff then (false, false, some (.failed tries)) else (true, true, some (.retrying tries))
    | some (.retrying tries) =>
      if kind = .push then (false, false, some (.retrying tries)) else (true, true, some .running)

def selectEvents (newEvents : List QueueItem) (force : Bool) : Sender × Option Transaction :=
  let current := selectEventsCurrent kind conditions force sender.status
  let sender := { sender with status := current.2.2 }
  if !current.1 then (sender, none)
  else if current.2.1 then (sender, some ⟨sender.active.rows.map eventOf, sender.active.rows, false⟩)
  else
    let items := sender.retainQueued newEvents
    let selected := (sender.markAsActive items).selectEdus kind conditions.edus items
    (selected.1, some selected.2)

def scheduleEvents (transaction : Transaction) : Sender :=
  if transaction.events.isEmpty then { sender with status := none }
  else { sender with futures := sender.futures ++ [transaction] }

def selectAndSchedule (newEvents : List QueueItem) (force : Bool) : Sender :=
  let selected := sender.selectEvents kind conditions newEvents force
  match selected.2 with
  | none => selected.1
  | some transaction => selected.1.scheduleEvents transaction

def handleRequest : Msg → Sender
  | .queued item => sender.selectAndSchedule kind conditions [item] false
  | .flush => sender.selectAndSchedule kind conditions [] (kind = .appservice)
  | .badge =>
    let newEvents := if sender.status.isSome then [] else sender.queued.rows.take DEQUEUE_LIMIT
    sender.selectAndSchedule kind conditions newEvents false

def handleForceRetry : Sender := sender.selectAndSchedule kind conditions [] false

def handleResponseErr (status : Option TransactionStatus) : Option TransactionStatus × Bool :=
  let after (tries : UInt32) : TransactionStatus := if kind = .push then .failed tries else .retrying tries
  match status with
  | none => (none, false)
  | some .running => (some (after 1), false)
  | some .runningForceRetry => (some (after 1), true)
  | some (.failed tries) | some (.retrying tries) =>
    (some (after (saturatingAdd32 tries 1)), false)

def handleResponseOk : Sender :=
  let sender := sender.deleteAllActiveRequests
  let newEvents := sender.queued.rows.take DEQUEUE_LIMIT
  let selected := (sender.markAsActive newEvents).selectEdus kind conditions.edus newEvents
  if selected.2.events.isEmpty then { selected.1 with status := none }
  else
    { selected.1 with
      status := selected.1.status.map fun _ => .running
      futures := selected.1.futures ++ [selected.2] }

def handleResponse (fate : Fate) : Sender :=
  match sender.futures with
  | [] => sender
  | transaction :: futures =>
    let result := sendEvents kind transaction.events fate
    let sender := { sender with futures }
    if result.1 then sender.handleResponseOk kind conditions
    else
      let handled := handleResponseErr kind sender.status
      let sender := { sender with status := handled.1, active := result.2.foldl del sender.active }
      if kind = .appservice ∧ handled.2 then sender.handleForceRetry kind conditions else sender

def finishResponse (fate : Fate) : Sender :=
  match sender.futures with
  | [] => sender
  | transaction :: futures =>
    let result := sendEvents kind transaction.events fate
    if result.1 then { sender.deleteAllActiveRequests with futures }
    else { sender with futures, active := result.2.foldl del sender.active }

def handleWake : Sender :=
  match kind, sender.status with
  | _, some .running | _, some .runningForceRetry => sender
  | .push, some (.retrying _) => sender
  | .push, some (.failed _) => if conditions.wakeBackoff then sender else sender.handleForceRetry kind conditions
  | .push, none => sender.handleForceRetry kind conditions
  | .federation, _ => if conditions.shouldAttempt then sender.handleRequest kind conditions .flush else sender
  | .appservice, _ => sender

def keptRows (keep : Int) : List QueueItem := if keep ≥ 0 then sender.active.rows.take keep.toNat else sender.active.rows

def resumeActive (netburst : Bool) (keep : Int) : Sender :=
  let rows := sender.keptRows keep
  { queued := sender.queued
    active := sender.active.keep fun key value => (key, value) ∈ rows
    status := if netburst && !rows.isEmpty then some .running else none
    futures := if netburst && !rows.isEmpty then [⟨rows.map eventOf, rows, false⟩] else []
    channel := []
    working := true }

/-- A new process finds the tables as they were left. -/
def startupNetburst (netburst : Bool) (keep : Int) (conditions : Conditions) : Sender :=
  let sender := sender.resumeActive netburst keep
  if netburst && keep ≠ 0 && kind = .push && sender.queued.rows.any (fun row => row.2 = some .badgeRefresh) then
    sender.handleRequest kind conditions .badge
  else sender

/-- `cleanup_events` is for appservices and pushers. -/
def cleanupEvents : Sender :=
  if kind = .federation then sender
  else
    { sender with
      queued := empty
      active := empty
      futures := sender.futures.map fun transaction => { transaction with cleaned := true } }

end Sender

inductive SenderEvent where
  /-- `queue_requests` and `dispatch`. -/
  | queue (item : QueueItem)
  | flush
  /-- The worker takes the next message. -/
  | request (conditions : Conditions)
  /-- A transaction ends. -/
  | response (conditions : Conditions) (fate : Fate)
  | wake (conditions : Conditions)
  | cleanup
  /-- The channel closes; then transactions may end until the timeout. -/
  | shutdown
  | finish (fate : Fate)
  /-- The process ends, after a shutdown or without one, and another starts. -/
  | restart (netburst : Bool) (keep : Int) (conditions : Conditions)

namespace Sender

variable (kind : DestinationKind) (sender : Sender)

def step : SenderEvent → Sender
  | .queue item =>
    { sender with
      queued := sender.queued.put item.1 item.2
      channel := if sender.working then sender.channel ++ [.queued item] else sender.channel }
  | .flush => if sender.working then { sender with channel := sender.channel ++ [.flush] } else sender
  | .request conditions =>
    if sender.working then
      match sender.channel with
      | [] => sender
      | msg :: channel => { sender with channel }.handleRequest kind conditions msg
    else sender
  | .response conditions fate => if sender.working then sender.handleResponse kind conditions fate else sender
  | .wake conditions => if sender.working then sender.handleWake kind conditions else sender
  | .cleanup => sender.cleanupEvents kind
  | .shutdown => { sender with working := false }
  | .finish fate => if sender.working then sender else sender.finishResponse kind fate
  | .restart netburst keep conditions => sender.startupNetburst kind netburst keep conditions

def down (queued active : Store Bytes (Option Payload)) : Sender := ⟨queued, active, none, [], [], false⟩

end Sender

end Wbfuwunel.Sending
