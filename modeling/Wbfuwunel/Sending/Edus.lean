import Wbfuwunel.Database.Counted
import Wbfuwunel.Foundation.Runs
import Wbfuwunel.Rooms.Receipts

/-! The ephemeral events that go along with a transaction to a server: `select_edus` in `sending/sender.rs`.

Three selectors run side by side over what is new since the server's count: device key changes, read receipts and
presence. They share a budget, and the highest count any of them has seen becomes the server's next count. Between two
rows a selector may wait, so the selectors, and the scans of the rooms inside the second, take turns in any order.
-/

set_option autoImplicit false

namespace Wbfuwunel.Sending

open Foundation Database Rooms

abbrev ServerName := String

def EDU_LIMIT : Nat := 100

def SELECT_RECEIPT_LIMIT : Nat := 256

def SELECT_PRESENCE_LIMIT : Nat := 256

structure ReceiptData where
  data : Receipt
  eventIds : List EventId
  deriving DecidableEq, Repr

abbrev ReceiptMap := List (UserId × ReceiptData)

structure PresenceUpdate where
  userId : UserId
  presence : String
  currentlyActive : Bool
  statusMsg : Option String
  lastActiveAgo : Nat
  deriving DecidableEq, Repr

/-- A device list update says nothing but the user's name; the receiver asks for the rest. -/
inductive Edu where
  | deviceListUpdate (user : UserId)
  | receipt (receipts : List (RoomId × ReceiptMap))
  | presence (push : List PresenceUpdate)
  deriving DecidableEq, Repr

/-! ## Tables -/

structure KeyChangeId where
  userOrRoom : String
  count : UInt64
  deriving Repr

namespace KeyChangeId

def bytes (id : KeyChangeId) : Bytes := serializeKey [.str id.userOrRoom, .u64 id.count]

theorem bytes_eq (id : KeyChangeId) : id.bytes = utf8 id.userOrRoom ++ SEP :: (toBeBytes64 id.count ++ []) := by
  simp [bytes, Element.encode]

theorem bytes_injective : Function.Injective bytes := by
  rintro ⟨owner, n⟩ ⟨owner', n'⟩ eq
  rw [bytes_eq, bytes_eq, str_eq_iff] at eq
  simpa using eq

instance keyChangeOrder : LinearOrder KeyChangeId := LinearOrder.lift' bytes bytes_injective

theorem lt_iff (a b : KeyChangeId) : a < b ↔ a.bytes < b.bytes := Iff.rfl

end KeyChangeId

structure PresenceId where
  count : UInt64
  user : UserId
  deriving Repr

namespace PresenceId

def bytes (id : PresenceId) : Bytes := toBeBytes64 id.count ++ utf8 id.user

theorem bytes_injective : Function.Injective bytes := by
  rintro ⟨n, u⟩ ⟨n', u'⟩ eq
  obtain ⟨counts, users⟩ := List.append_inj eq (by simp)
  simp only [toBeBytes64_inj, utf8_inj] at counts users
  rw [counts, users]

instance presenceOrder : LinearOrder PresenceId := LinearOrder.lift' bytes bytes_injective

end PresenceId

/-- A presence value is what its row comes to now; one that does not parse comes to nothing. -/
structure Tables where
  keyChanges : Store KeyChangeId UserId
  receipts : ReceiptTable
  presence : Store PresenceId (Option PresenceUpdate)

/-- What does not change during a call: our name, the rooms shared with the server, whose presence it may see, and the
configuration. -/
structure Surroundings where
  ours : ServerName
  rooms : List RoomId
  distinct : rooms.Nodup
  serverSeesUser : UserId → Bool
  allowOutgoingReadReceipts : Bool
  allowOutgoingPresence : Bool

def Surroundings.userIsLocal (around : Surroundings) (user : UserId) : Bool := serverName user = around.ours

variable (tables : Tables)

def roomKeysChanged (room : RoomId) (since upper : UInt64) : List (UserId × UInt64) :=
  (rowsBetween KeyChangeId.bytes KeyChangeId.userOrRoom KeyChangeId.count tables.keyChanges room since upper).map fun row =>
    (row.2, row.1.count)

abbrev ReceiptItem := UserId × UInt64 × StoredReceipt

def readreceiptsSince (room : RoomId) (since upper : UInt64) : List ReceiptItem :=
  (rowsBetween ReceiptId.bytes ReceiptId.room ReceiptId.count tables.receipts room since upper).map fun row =>
    (row.1.user, row.1.count, row.2)

def presenceSince (since upper : UInt64) : List (UserId × UInt64 × Option PresenceUpdate) :=
  (tables.presence.rows.filter fun row => since < row.1.count && row.1.count ≤ upper).map fun row =>
    (row.1.user, row.1.count, row.2)

/-! ## Selectors -/

structure Selected where
  shipped : List Edu
  overflow : List Edu

/-- Room in the transaction is taken as long as there is some; behind the first that found none all go to the queue. -/
def Selected.push (selected : Selected) (eventsLen : Nat) (edu : Edu) : Selected × Nat :=
  if !selected.overflow.isEmpty then ({ selected with overflow := selected.overflow ++ [edu] }, eventsLen)
  else if eventsLen ≥ EDU_LIMIT then ({ selected with overflow := selected.overflow ++ [edu] }, eventsLen + 1)
  else ({ selected with shipped := selected.shipped ++ [edu] }, eventsLen + 1)

/-- A receipt read from a row. A value that is no receipt event is passed by; one that has no receipt of the user is not
expected, and stops the task. -/
def receiptOf (user : UserId) : StoredReceipt → Option (Option ReceiptData)
  | .unreadable => some none
  | .event event => do
    let first ← event.content.head?
    let read ← first.2.lookup .read
    let receipt ← read.lookup user
    return some { data := receipt, eventIds := [first.1] }

structure RoomScan where
  room : RoomId
  rest : List ReceiptItem
  byUser : List (UserId × List ReceiptData)
  stopped : Bool

namespace RoomScan

variable (scan : RoomScan)

def users : List UserId := scan.byUser.map Prod.fst

def finished : Bool := scan.stopped || scan.rest.isEmpty

/-- `full` says that the limit on users is reached; the user is entered all the same. -/
def enter (full : Bool) (user : UserId) (data : ReceiptData) : RoomScan :=
  if user ∈ scan.users then
    { scan with byUser := scan.byUser.map fun slot => if slot.1 = user then (slot.1, slot.2 ++ [data]) else slot }
  else { scan with byUser := scan.byUser ++ [(user, [data])], stopped := full }

end RoomScan

/-- A user's receipts go into successive ranks. -/
def placeRanks (user : UserId) : List ReceiptMap → List ReceiptData → List ReceiptMap
  | ranks, [] => ranks
  | [], data :: receipts => [(user, data)] :: placeRanks user [] receipts
  | rank :: ranks, data :: receipts => (rank ++ [(user, data)]) :: placeRanks user ranks receipts

def rankedReceipts (byUser : List (UserId × List ReceiptData)) : List ReceiptMap :=
  byUser.foldl (fun ranks slot => placeRanks slot.1 ranks slot.2) []

/-- One event for each rank, with the receipts of that rank from every room. -/
def receiptEdus (scans : List RoomScan) : List Edu :=
  let byRoom := (scans.map fun scan => (scan.room, rankedReceipts scan.byUser)).filter fun entry => !entry.2.isEmpty
  let maxRank := (byRoom.map fun entry => entry.2.length).foldr max 0
  (List.range maxRank).filterMap fun rank =>
    let receipts := byRoom.filterMap fun entry => entry.2[rank]?.map fun map => (entry.1, map)
    if receipts.isEmpty then none else some (.receipt receipts)

structure Selecting where
  eventsLen : Nat
  maxEduCount : UInt64
  changes : List (UserId × UInt64)
  deviceListChanges : List UserId
  devices : Selected
  num : Nat
  scans : List RoomScan
  receipts : Option Selected
  presenceRows : List (UserId × UInt64 × Option PresenceUpdate)
  presenceUpdates : List (UserId × PresenceUpdate)
  presence : Option (Option Edu)
  panicked : Bool

inductive Turn where
  | deviceChanges
  | receiptsRoom (index : Nat)
  | receipts
  | presence
  deriving DecidableEq, Repr

namespace Selecting

variable (around : Surroundings) (state : Selecting)

def deviceChangesTurn : Selecting :=
  match state.changes with
  | [] => state
  | (user, count) :: changes =>
    let state := { state with changes, maxEduCount := max state.maxEduCount count }
    if user ∈ state.deviceListChanges then state
    else
      let pushed := state.devices.push state.eventsLen (.deviceListUpdate user)
      { state with deviceListChanges := user :: state.deviceListChanges, devices := pushed.1, eventsLen := pushed.2 }

def receiptsRoomTurn (index : Nat) : Selecting :=
  match state.scans[index]? with
  | none => state
  | some scan =>
    if scan.stopped then state
    else
      match scan.rest with
      | [] => state
      | (user, count, value) :: rest =>
        let scan := { scan with rest }
        let state := { state with maxEduCount := max state.maxEduCount count }
        if !around.userIsLocal user then { state with scans := state.scans.set index scan }
        else
          match receiptOf user value with
          | none => { state with panicked := true }
          | some none => { state with scans := state.scans.set index scan }
          | some (some data) =>
            { state with
              num := if user ∈ scan.users then state.num else state.num + 1
              scans := state.scans.set index (scan.enter (state.num ≥ SELECT_RECEIPT_LIMIT) user data) }

/-- The ranks are made when every room has been read. -/
def receiptsTurn : Selecting :=
  if state.receipts.isSome || !state.scans.all RoomScan.finished then state
  else
    let pushed := (receiptEdus state.scans).foldl (fun selected edu => selected.1.push selected.2 edu)
      (⟨[], []⟩, state.eventsLen)
    { state with receipts := some pushed.1, eventsLen := pushed.2 }

/-- Presence that finds no room in the transaction is dropped. -/
def presenceDone : Selecting :=
  if state.presenceUpdates.isEmpty then { state with presence := some none }
  else
    { state with
      eventsLen := state.eventsLen + 1
      presence := some (if state.eventsLen ≥ EDU_LIMIT then none else
        some (.presence (state.presenceUpdates.map Prod.snd))) }

def presenceTurn : Selecting :=
  if state.presence.isSome then state
  else
    match state.presenceRows with
    | [] => state.presenceDone
    | (user, count, update) :: presenceRows =>
      let state := { state with presenceRows, maxEduCount := max state.maxEduCount count }
      if !around.userIsLocal user || !around.serverSeesUser user then state
      else
        match update with
        | none => state
        | some update =>
          let state := { state with
            presenceUpdates := (state.presenceUpdates.filter fun other => other.1 ≠ user) ++ [(user, update)] }
          if state.presenceUpdates.length ≥ SELECT_PRESENCE_LIMIT then state.presenceDone else state

def step (turn : Turn) : Selecting :=
  if state.panicked then state
  else
    match turn with
    | .deviceChanges => state.deviceChangesTurn
    | .receiptsRoom index => state.receiptsRoomTurn around index
    | .receipts => state.receiptsTurn
    | .presence => state.presenceTurn around

def finished : Bool := !state.panicked && state.changes.isEmpty && state.receipts.isSome && state.presence.isSome

end Selecting

def beginSelect (around : Surroundings) (tables : Tables) (since upper : UInt64) (budgetUsed : Nat) : Selecting where
  eventsLen := budgetUsed
  maxEduCount := since
  changes := (around.rooms.flatMap fun room => roomKeysChanged tables room since upper).filter fun change =>
    around.userIsLocal change.1
  deviceListChanges := []
  devices := ⟨[], []⟩
  num := 0
  scans := if around.allowOutgoingReadReceipts then
      around.rooms.map fun room => ⟨room, readreceiptsSince tables room since upper, [], false⟩
    else []
  receipts := if around.allowOutgoingReadReceipts then none else some ⟨[], []⟩
  presenceRows := if around.allowOutgoingPresence then presenceSince tables since upper else []
  presenceUpdates := []
  presence := if around.allowOutgoingPresence then none else some none
  panicked := false

/-- What a call returns and writes: the events for the transaction, the active rows and the queue rows, and the server's
count. -/
structure Selection where
  events : List Edu
  activeRows : List Edu
  queuedRows : List Edu
  educount : UInt64
  deriving DecidableEq

/-- Presence goes last and is not kept. -/
def Selecting.selection (state : Selecting) (since : UInt64) : Selection :=
  let receipts := state.receipts.getD ⟨[], []⟩
  let durable := state.devices.shipped ++ receipts.shipped
  { events := durable ++ (state.presence.getD none).toList
    activeRows := durable
    queuedRows := state.devices.overflow ++ receipts.overflow
    educount := if state.maxEduCount > since then state.maxEduCount else since }

/-- A call that has its selectors take turns in this order; none when they are not done by then. `since` is the server's
stored count, `upper` the count of the server. -/
def selectEdus (around : Surroundings) (tables : Tables) (since upper : UInt64) (budgetUsed : Nat) (turns : List Turn) :
    Option Selection :=
  if since = upper then some ⟨[], [], [], since⟩
  else
    let last := run (Selecting.step around) (beginSelect around tables since upper budgetUsed) turns
    if last.finished then some (last.selection since) else none

end Wbfuwunel.Sending
