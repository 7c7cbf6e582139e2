import Wbfuwunel.Foundation.Runs
import Wbfuwunel.Rooms.Effects

/-! Appending and backfilling side by side: `append_pdu` and `backfill_pdu`, step by step.

A call takes the room's insert lock, reads the room's counters and takes a count from the server, and stores its event
with both in one transaction. Calls of other rooms, and whatever else takes counts, run in between. A call may fail at
any point before its transaction.
-/

set_option autoImplicit false

namespace Wbfuwunel.Rooms

open Foundation Function

inductive Work where
  | append (arrival : Arrival)
  | backfill (pdu : Pdu) (mediaRefs : List String)

namespace Work

def pdu : Work → Pdu
  | append arrival => arrival.pdu
  | backfill pdu _ => pdu

variable (work : Work)

def room : RoomId := work.pdu.roomId

def pduCount (count : Nat) : PduCount :=
  match work with
  | append _ => .normal count
  | backfill _ _ => .backfilled count

/-- Counts from before the origin have to fit a signed word. -/
def fits (count : Nat) : Bool :=
  match work with
  | append _ => true
  | backfill _ _ => count < 2 ^ 63

def take (bounds : SeqBounds) : Int × SeqBounds :=
  match work with
  | append _ => bounds.takeForward
  | backfill _ _ => bounds.takeBackfilled

end Work

/-- Where a call is. A copy is a row its effects have read and not yet written back. -/
inductive Phase where
  | waiting
  | locked (count : Option Nat) (bounds : Option SeqBounds)
  | stored (pduId : PduId) (copy : Option (PduId × Pdu))

structure Call where
  work : Work
  shortroomid : Nat
  phase : Phase := .waiting

variable (call : Call)

def Call.pduId (count : Nat) : PduId := ⟨call.shortroomid, call.work.pduCount count⟩

def Call.positions (count : Nat) (bounds : SeqBounds) : Positions :=
  ⟨(call.work.take bounds).1, (call.pduId count).count.intoSigned⟩

def Call.count? : Option Nat :=
  match call.phase with
  | .locked count _ => count
  | _ => none

def Call.bounds? : Option SeqBounds :=
  match call.phase with
  | .locked _ bounds => bounds
  | _ => none

def Call.copy? : Option (PduId × Pdu) :=
  match call.phase with
  | .stored _ copy => copy
  | _ => none

def Call.isLocked : Bool :=
  match call.phase with
  | .locked _ _ => true
  | _ => false

structure Inserting where
  server : Server
  mutexInsert : RoomId → Option Nat := fun _ => none
  calls : Nat → Option Call := fun _ => none

namespace Inserting

variable (state : Inserting) (id : Nat)

def become (call : Option Call) : Inserting := { state with calls := update state.calls id call }

def unlock (room : RoomId) : Inserting := { state with mutexInsert := update state.mutexInsert room none }

variable (call : Call)

def drop : Inserting :=
  (if call.isLocked then state.unlock call.work.room else state).become id none

/-- The room has to be known; history that is in the timeline already is left alone. -/
def start (work : Work) : Inserting :=
  match state.calls id, state.server.roomidShortroomid work.room, work with
  | none, some shortroomid, .append _ => state.become id (some { work, shortroomid })
  | none, some shortroomid, .backfill pdu _ =>
    if state.server.eventidPduid pdu.eventId = none then state.become id (some { work, shortroomid }) else state
  | _, _, _ => state

def lock : Inserting :=
  match call.phase, state.mutexInsert call.work.room with
  | .waiting, none =>
    { state with mutexInsert := update state.mutexInsert call.work.room (some id) }.become id
      (some { call with phase := .locked none none })
  | _, _ => state

/-- The next count of the server, for whoever takes it. -/
def tick : Inserting := { state with server := { state.server with count := state.server.count + 1 } }

/-- An append takes its count before it reads the counters, a backfill after it. -/
def dispatch : Inserting :=
  match call.phase, call.work with
  | .locked none none, .append _ => taken
  | .locked none (some _), .backfill _ _ => taken
  | _, _ => state
where
  taken : Inserting :=
    let count := state.server.count + 1
    if call.work.fits count then state.tick.become id (some { call with phase := .locked (some count) call.bounds? })
    else state.tick.drop id call

def readBounds : Inserting :=
  match call.phase, call.work with
  | .locked (some _) none, .append _ => read
  | .locked none none, .backfill _ _ => read
  | _, _ => state
where
  read : Inserting := state.become id
    (some { call with phase := .locked call.count? (some (state.server.roomidSeqbounds call.work.room)) })

def insert (pduId : PduId) (positions : Positions) (bounds : SeqBounds) : Server :=
  let server := state.server
  { (match call.work with
      | .append arrival => server.appendPduJson pduId positions bounds arrival
      | .backfill pdu mediaRefs => server.prependBackfillPdu pduId positions bounds pdu mediaRefs) with
    count := server.count }

def store (count : Nat) (bounds : SeqBounds) : Inserting :=
  let pduId := call.pduId count
  let server := state.insert call pduId (call.positions count bounds) (call.work.take bounds).2
  ({ state with server }.unlock call.work.room).become id (some { call with phase := .stored pduId none })

def commit : Inserting :=
  match call.phase with
  | .locked (some count) (some bounds) => state.store id call count bounds
  | _ => state

def fail : Inserting :=
  match call.phase with
  | .stored _ _ => state
  | _ => state.drop id call

def effects (env : Env) (id : Nat) (call : Call) : Inserting :=
  match call.phase, call.work with
  | .stored pduId _, .append arrival =>
    { state with server := (state.server.appendPduEffects env pduId arrival call.shortroomid).2 }.become id none
  | .stored pduId _, .backfill pdu _ =>
    { state with server := state.server.indexBackfilled env call.shortroomid pduId pdu }.become id none
  | _, _ => state

def copyRow (target : PduId) : Inserting :=
  match call.phase, call.work with
  | .stored pduId _, .append _ => state.become id
      (some { call with phase := .stored pduId ((state.server.pduidPdu target).map fun pdu => (target, pdu)) })
  | _, _ => state

/-- The copy goes back stripped, or with one more reply, whatever came in between. -/
def rewriteRow (redacted : Option RoomRules) : Inserting :=
  match call.phase with
  | .stored pduId (some (target, copy)) =>
    let pdu := redacted.elim (Server.bundleReply copy call.work.pdu) fun rules =>
      Server.stripped copy rules call.work.pdu
    { state with server := (state.server.replacePdu target pdu).2 }.become id
      (some { call with phase := .stored pduId none })
  | _ => state

end Inserting

/-! ## Steps -/

/-- One step of a call, of whoever else takes a count, or of the rooms' state. -/
inductive Insertion where
  | start (id : Nat) (work : Work)
  | lock (id : Nat)
  | dispatch (id : Nat)
  | readBounds (id : Nat)
  | commit (id : Nat)
  | fail (id : Nat)
  | effects (id : Nat)
  | copyRow (id : Nat) (target : PduId)
  | rewriteRow (id : Nat) (redacted : Option RoomRules)
  | tick
  | settle (rooms : RoomId → RoomState) (shorts : RoomId → Option Nat)

namespace Inserting

def step (env : Env) (state : Inserting) : Insertion → Inserting
  | .start id work => state.start id work
  | .lock id => (state.calls id).elim state (state.lock id)
  | .dispatch id => (state.calls id).elim state (state.dispatch id)
  | .readBounds id => (state.calls id).elim state (state.readBounds id)
  | .commit id => (state.calls id).elim state (state.commit id)
  | .fail id => (state.calls id).elim state (state.fail id)
  | .effects id => (state.calls id).elim state (state.effects env id)
  | .copyRow id target => (state.calls id).elim state fun call => state.copyRow id call target
  | .rewriteRow id redacted => (state.calls id).elim state fun call => state.rewriteRow id call redacted
  | .tick => state.tick
  | .settle rooms shorts => { state with server := { state.server with rooms, roomidShortroomid := shorts } }

/-! ## A call on its own -/

def appendSteps (id : Nat) (arrival : Arrival) : List Insertion :=
  [.start id (.append arrival), .lock id, .dispatch id, .readBounds id, .commit id, .effects id]

def backfillSteps (id : Nat) (pdu : Pdu) (mediaRefs : List String) : List Insertion :=
  [.start id (.backfill pdu mediaRefs), .lock id, .readBounds id, .dispatch id, .commit id, .effects id]

variable {env : Env} {server : Server} {short : Nat}

theorem append_alone {arrival : Arrival} (known : server.roomidShortroomid arrival.pdu.roomId = some short) (id : Nat) :
    (run (step env) { server } (appendSteps id arrival)).server = (server.appendPdu env arrival).2 := by
  have joins : start { server } id (.append arrival) =
      become { server } id (some { work := .append arrival, shortroomid := short }) := by
    simp [start, Work.room, Work.pdu, known]
  have runs : (run (step env) { server } (appendSteps id arrival)).server =
      ((server.store short arrival).appendPduEffects env (server.nextId short) arrival short).2 := by
    simp only [appendSteps, run_cons, step, joins, become, Option.elim_some, update_self, lock, dispatch,
      dispatch.taken, Work.fits, if_true, readBounds, readBounds.read, Call.count?, Call.bounds?, commit, store]
    rfl
  simp only [Server.appendPdu, known]
  split <;> simp_all

theorem backfill_alone {pdu : Pdu} (known : server.roomidShortroomid pdu.roomId = some short)
    (absent : server.eventidPduid pdu.eventId = none) (fits : server.count + 1 < 2 ^ 63) (id : Nat)
    (mediaRefs : List String) :
    (run (step env) { server } (backfillSteps id pdu mediaRefs)).server = server.backfillPdu env pdu mediaRefs := by
  have joins : start { server } id (.backfill pdu mediaRefs) =
      become { server } id (some { work := .backfill pdu mediaRefs, shortroomid := short }) := by
    simp [start, Work.room, Work.pdu, known, absent]
  simp only [backfillSteps, run_cons, step, joins, become, Option.elim_some, update_self, lock, dispatch,
    dispatch.taken, Work.fits, fits, decide_true, if_true, readBounds, readBounds.read, Call.count?, Call.bounds?,
    commit, store, Server.backfillPdu, known, absent]
  rfl

end Inserting

end Wbfuwunel.Rooms
