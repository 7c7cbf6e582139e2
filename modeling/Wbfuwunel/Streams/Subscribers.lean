import Mathlib.Data.Finset.Sort
import Wbfuwunel.Foundation.Index

/-! Who listens to what on one stream, and the counters of each subscription. One lock guards the whole registry, so
each operation is one step of it. -/

set_option autoImplicit false

namespace Wbfuwunel.Streams
open Foundation Function

/-- Handed out once a connection and only compared. -/
abbrev ConnectionId := Nat

/-- One connection's conversation: `id` names it, `seq` counts in it, `gap` says that a push was dropped. -/
structure Subscriber (User Queue : Type) where
  user : User
  queue : Queue
  id : UInt64
  seq : UInt32
  gap : Bool

inductive Occupancy where
  | many
  | oneTheLatest
  deriving DecidableEq

structure Target (Queue : Type) where
  connection : ConnectionId
  queue : Queue
  id : UInt64
  seq : UInt32
  gap : Bool

structure Displaced (Queue : Type) where
  connection : ConnectionId
  queue : Queue
  id : UInt64
  seq : UInt32

structure Entered (Topic Queue : Type) where
  topics : List Topic
  displaced : List (Displaced Queue)

structure Registry (Topic User Queue : Type) where
  topics : Index Topic ConnectionId
  subscribers : ConnectionId → Option (Subscriber User Queue)
  byUser : Index User ConnectionId
  ended : Finset ConnectionId

namespace Subscriber

variable {User Queue : Type}

def opened (user : User) (queue : Queue) (id : UInt64) : Subscriber User Queue :=
  { user, queue, id, seq := 0, gap := false }

variable (existing : Subscriber User Queue)

/-- A new id starts its own push sequence. -/
def refresh (queue : Queue) (id : UInt64) : Subscriber User Queue :=
  if existing.id ≠ id then { existing with id, seq := 0, gap := false, queue } else { existing with queue }

/-- `fetch_add`, which wraps around. -/
def advance : Subscriber User Queue := { existing with seq := existing.seq + 1 }

@[simp] theorem refresh_user (queue : Queue) (id : UInt64) : (existing.refresh queue id).user = existing.user := by
  unfold refresh
  split <;> rfl

end Subscriber

namespace Registry

variable {Topic User Queue : Type}

def new : Registry Topic User Queue := ⟨.empty, fun _ => none, .empty, ∅⟩

variable (registry : Registry Topic User Queue) (connection : ConnectionId)

def userOf : Option User :=
  (registry.subscribers connection).map Subscriber.user

def modify (change : Subscriber User Queue → Subscriber User Queue) : Registry Topic User Queue :=
  { registry with
    subscribers := update registry.subscribers connection ((registry.subscribers connection).map change) }

def isSubscribed : Bool :=
  (registry.subscribers connection).isSome

variable (topic : Topic)

def isListened : Bool := (registry.topics.rows topic).isSome

def listeners : List (ConnectionId × User) :=
  match registry.topics.rows topic with
  | none => []
  | some connections => connections.sort.filterMap fun connection =>
    (registry.subscribers connection).map fun subscriber => (connection, subscriber.user)

def markGap (connections : List ConnectionId) : Registry Topic User Queue :=
  connections.foldl (fun registry connection => registry.modify connection fun existing => { existing with gap := true })
    registry

def takeTarget (state : Registry Topic User Queue × List (Target Queue)) (connection : ConnectionId) :
    Registry Topic User Queue × List (Target Queue) :=
  match state.1.subscribers connection with
  | none => state
  | some subscriber =>
    (state.1.modify connection fun existing => { existing.advance with gap := false },
      state.2 ++ [⟨connection, subscriber.queue, subscriber.id, subscriber.seq, subscriber.gap⟩])

def isStillInTopic (topic : Option Topic) (connection : ConnectionId) : Bool :=
  match topic with
  | none => true
  | some topic => ((registry.topics.rows topic).map fun listeners => decide (connection ∈ listeners)).getD false

def takeTargets (topic : Option Topic) (connections : List ConnectionId) :
    Registry Topic User Queue × List (Target Queue) :=
  (connections.filter (registry.isStillInTopic topic)).foldl takeTarget (registry, [])

variable [DecidableEq Topic]

def leaveTopic : Registry Topic User Queue :=
  { registry with topics := registry.topics.erase topic connection }

def unsubscribe (topics : List Topic) : Registry Topic User Queue :=
  topics.foldl (fun registry topic => registry.leaveTopic connection topic) registry

def displace (state : Registry Topic User Queue × List (Displaced Queue)) (loser : ConnectionId) :
    Registry Topic User Queue × List (Displaced Queue) :=
  match state.1.subscribers loser with
  | none => (state.1.leaveTopic loser topic, state.2)
  | some subscriber =>
    ((state.1.modify loser Subscriber.advance).leaveTopic loser topic,
      state.2 ++ [⟨loser, subscriber.queue, subscriber.id, subscriber.seq⟩])

def takeTopicOver (newcomer : ConnectionId) (topic : Topic) : Registry Topic User Queue × List (Displaced Queue) :=
  match registry.topics.rows topic with
  | none => (registry, [])
  | some holders => (holders.sort.filter (· ≠ newcomer)).foldl (displace topic) (registry, [])

variable (occupancy : Occupancy)

def makeRoom (registry : Registry Topic User Queue) (newcomer : ConnectionId) (topic : Topic) :
    Registry Topic User Queue × List (Displaced Queue) :=
  match occupancy with
  | .many => (registry, [])
  | .oneTheLatest => registry.takeTopicOver newcomer topic

def enterTopic (connection : ConnectionId) (state : Registry Topic User Queue × Entered Topic Queue) (topic : Topic) :
    Registry Topic User Queue × Entered Topic Queue :=
  let (registry, displaced) := makeRoom occupancy state.1 connection topic
  let entered := if connection ∈ registry.topics.members topic then [] else [topic]
  ({ registry with topics := registry.topics.add topic connection },
    ⟨state.2.topics ++ entered, state.2.displaced ++ displaced⟩)

/-- Everyone who is in `source` and a subscriber, into `target` as well. -/
def copyTopic (source target : Topic) : Registry Topic User Queue :=
  match registry.topics.rows source with
  | none => registry
  | some connections =>
    -- Occupancy is not asked here: a copied topic may hold several connections.
    let movers := connections.sort.filter registry.isSubscribed
    { registry with topics := movers.foldl (fun topics connection => topics.add target connection) registry.topics }

variable [DecidableEq User]

def removeConnection : Registry Topic User Queue :=
  match registry.subscribers connection with
  | none => registry
  | some subscriber =>
    { registry with
      subscribers := update registry.subscribers connection none
      byUser := registry.byUser.erase subscriber.user connection
      topics := registry.topics.eraseAll connection }

def endConnection : Registry Topic User Queue :=
  let registry := registry.removeConnection connection
  { registry with ended := insert connection registry.ended }

def forgetConnection : Registry Topic User Queue :=
  let registry := registry.removeConnection connection
  { registry with ended := registry.ended.erase connection }

variable (user : User)

def leaveTopicOfUser (topic : Topic) : Registry Topic User Queue :=
  match registry.byUser.rows user with
  | none => registry
  | some connections => connections.sort.foldl (fun registry connection => registry.leaveTopic connection topic) registry

def isAnotherIdentity : Bool :=
  ((registry.subscribers connection).map fun existing => decide (existing.user ≠ user)).getD false

/-- A connection that subscribes as somebody else starts over. -/
def startOver : Registry Topic User Queue :=
  if registry.isAnotherIdentity connection user then registry.removeConnection connection else registry

def register (queue : Queue) (id : UInt64) : Registry Topic User Queue :=
  let subscriber := match registry.subscribers connection with
    | some existing => existing.refresh queue id
    | none => .opened user queue id
  { registry with
    subscribers := update registry.subscribers connection (some subscriber)
    byUser := registry.byUser.add user connection }

/-- Nothing is entered for a connection whose session ended. -/
def subscribe (connection : ConnectionId) (user : User) (queue : Queue) (id : UInt64) (topics : List Topic) :
    Registry Topic User Queue × Option (Entered Topic Queue) :=
  if connection ∈ registry.ended then (registry, none)
  else
    -- The entry is made even for an empty list of topics.
    let registered := (registry.startOver connection user).register connection user queue id
    let (registry, entered) := topics.foldl (enterTopic occupancy connection) (registered, ⟨[], []⟩)
    (registry, some entered)

end Registry

inductive Operation (Topic User Queue : Type) where
  | subscribe (connection : ConnectionId) (user : User) (queue : Queue) (id : UInt64) (topics : List Topic)
  | unsubscribe (connection : ConnectionId) (topics : List Topic)
  | removeConnection (connection : ConnectionId)
  | endConnection (connection : ConnectionId)
  | forgetConnection (connection : ConnectionId)
  | copyTopic (source target : Topic)
  | leaveTopicOfUser (user : User) (topic : Topic)
  | takeTargets (topic : Option Topic) (connections : List ConnectionId)
  | markGap (connections : List ConnectionId)

def Operation.isCopy {Topic User Queue : Type} : Operation Topic User Queue → Bool
  | .copyTopic .. => true
  | _ => false

def Registry.step {Topic User Queue : Type} [DecidableEq Topic] [DecidableEq User] (occupancy : Occupancy)
    (registry : Registry Topic User Queue) : Operation Topic User Queue → Registry Topic User Queue
  | .subscribe connection user queue id topics => (registry.subscribe occupancy connection user queue id topics).1
  | .unsubscribe connection topics => registry.unsubscribe connection topics
  | .removeConnection connection => registry.removeConnection connection
  | .endConnection connection => registry.endConnection connection
  | .forgetConnection connection => registry.forgetConnection connection
  | .copyTopic source target => registry.copyTopic source target
  | .leaveTopicOfUser user topic => registry.leaveTopicOfUser user topic
  | .takeTargets topic connections => (registry.takeTargets topic connections).1
  | .markGap connections => registry.markGap connections

end Wbfuwunel.Streams
