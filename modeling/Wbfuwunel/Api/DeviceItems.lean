import Wbfuwunel.Foundation.Bytes
import Wbfuwunel.Streams.SubscriberRuns

/-! `Device/ItemsDestroy`, while other connections of the device take its to-device queue over. From
`client/wbf/device.rs`, `users/device.rs` and `streams/devices.rs`.

A request asks once who holds the queue. Its answer and every deletion come after an await, so each of them is a step
of its own, and so is each operation on the registry of the device stream.
-/

set_option autoImplicit false

namespace Wbfuwunel.Api
open Foundation Streams Function

inductive RejectCode where
  | unauthorized
  | forbidden
  | invalidRequest
  deriving DecidableEq, Repr

structure Reject where
  code : RejectCode
  reason : String
  deriving DecidableEq, Repr

/-! ## The request -/

def countLen : Nat := 8

/-- The whole chunks of a byte string; what is left of it is not looked at. -/
def chunksExact (width : Nat) (data : Bytes) : List Bytes :=
  (List.range (data.length / width)).map fun index => (data.drop (index * width)).take width

def parseCounts (tc : Nat) (data : Bytes) : Except Reject (List UInt64) :=
  let declared := min (tc * countLen) (2 ^ 64 - 1)
  if declared ≠ data.length then
    .error ⟨.invalidRequest, "Device/ItemsDestroy says " ++ toString tc ++ " items (" ++ toString declared ++
      " bytes) but carries " ++ toString data.length ++ " bytes of data"⟩
  else .ok ((chunksExact countLen data).map fromBeBytes64)

structure DeviceTopic (User Device : Type) where
  user : User
  device : Device
  deriving DecidableEq

structure Destroying (User Device : Type) where
  connection : ConnectionId
  topic : DeviceTopic User Device
  /-- The counts whose rows are still to be deleted. -/
  pending : List UInt64
  /-- The count whose row was deleted last, before it is looked up again. -/
  deleted : Option UInt64
  /-- The counts found gone. -/
  destroyed : List UInt64
  deriving DecidableEq

section Request

variable {User Device Queue : Type} (devices : Registry (DeviceTopic User Device) User Queue)

def deviceHolder (topic : DeviceTopic User Device) : Option ConnectionId :=
  (devices.listeners topic).head?.map Prod.fst

def checkDestroy (connection : ConnectionId) (session : Option (DeviceTopic User Device)) (tc : Except Reject Nat)
    (data : Bytes) : Except Reject (Destroying User Device) := do
  let some topic := session | .error ⟨.unauthorized, "log in first: this connection has no session"⟩
  let tc ← tc
  if deviceHolder devices topic ≠ some connection then
    .error ⟨.forbidden, "only the connection holding this device's to-device queue may destroy from it"⟩
  else
    let counts ← parseCounts tc data
    return { connection, topic, pending := counts, deleted := none, destroyed := [] }

theorem checkDestroy_ok {devices : Registry (DeviceTopic User Device) User Queue} {c : ConnectionId}
    {session : Option (DeviceTopic User Device)} {tc : Except Reject Nat} {data : Bytes}
    {q : Destroying User Device} (passed : checkDestroy devices c session tc data = .ok q) :
    deviceHolder devices q.topic = some q.connection := by
  unfold checkDestroy at passed
  cases session with
  | none => cases passed
  | some t =>
    cases tc with
    | error refused => cases passed
    | ok tc =>
      by_cases h : deviceHolder devices t = some c
      · cases parsed : parseCounts tc data with
        | error refused => simp [bind, Except.bind, h, parsed] at passed
        | ok counts =>
          simp only [bind, Except.bind, h, parsed, pure, Except.pure, ne_eq, not_true_eq_false, if_false,
            Except.ok.injEq] at passed
          subst passed
          exact h
      · simp [bind, Except.bind, h] at passed

end Request

/-! ## The queues and the requests on their way -/

structure DeviceQueues (User Device Queue Item : Type) where
  devices : Registry (DeviceTopic User Device) User Queue
  todeviceidEvents : DeviceTopic User Device → UInt64 → Option Item
  /-- By a name for each request. -/
  requests : Nat → Option (Destroying User Device)

inductive DeviceCall (User Device Queue : Type) where
  | subscribeDevice (connection : ConnectionId) (user : User) (device : Device) (queue : Queue) (id : UInt64)
  | unsubscribeDevice (connection : ConnectionId)
  | endConnection (connection : ConnectionId)
  | forgetConnection (connection : ConnectionId)
  | push (topic : DeviceTopic User Device) (holder : List ConnectionId)
  | markGap (holder : List ConnectionId)

def DeviceCall.operation {User Device Queue : Type} :
    DeviceCall User Device Queue → Operation (DeviceTopic User Device) User Queue
  | .subscribeDevice connection user device queue id => .subscribe connection user queue id [⟨user, device⟩]
  | .unsubscribeDevice connection => .removeConnection connection
  | .endConnection connection => .endConnection connection
  | .forgetConnection connection => .forgetConnection connection
  | .push topic holder => .takeTargets (some topic) holder
  | .markGap holder => .markGap holder

theorem DeviceCall.not_isCopy {User Device Queue : Type} (c : DeviceCall User Device Queue) : ¬c.operation.isCopy := by
  cases c <;> simp [operation, Operation.isCopy]

inductive DeviceEvent (User Device Queue Item : Type) where
  | call (call : DeviceCall User Device Queue)
  /-- An item lands in a device's queue. -/
  | add (topic : DeviceTopic User Device) (count : UInt64) (item : Item)
  /-- A request is checked, and refused or let into the loop. -/
  | request (name : Nat) (connection : ConnectionId) (session : Option (DeviceTopic User Device))
      (tc : Except Reject Nat) (data : Bytes)
  /-- The next row of a request's loop is deleted. -/
  | delete (name : Nat)
  /-- The row deleted last is looked up. -/
  | lookUp (name : Nat)
  /-- A request answers, or its connection goes away under it. -/
  | finish (name : Nat)

namespace DeviceQueues

variable {User Device Queue Item : Type}

def new : DeviceQueues User Device Queue Item := ⟨.new, fun _ _ => none, fun _ => none⟩

structure Held (queues : DeviceQueues User Device Queue Item) : Prop where
  consistent : queues.devices.Consistent
  single : queues.devices.Single
  inside : ∀ name, ∀ request ∈ queues.requests name, request.pending ≠ [] →
    request.connection ∈ queues.devices.topics.members request.topic

theorem new_held : (new : DeviceQueues User Device Queue Item).Held where
  consistent := Registry.new_consistent
  single t := by simp [new, Registry.new]
  inside name q hit := by cases hit

variable {queues : DeviceQueues User Device Queue Item}

theorem Held.deviceHolder_iff (held : queues.Held) {t : DeviceTopic User Device} {c : ConnectionId} :
    deviceHolder queues.devices t = some c ↔ c ∈ queues.devices.topics.members t := by
  rw [deviceHolder, ← List.head?_map, held.consistent.map_listeners]
  rcases Finset.card_le_one_iff_subset_singleton.mp (held.single t) with ⟨x, alone⟩
  rcases Finset.subset_singleton_iff.mp alone with nobody | h
  · simp [nobody]
  · simp [h, eq_comm]

/-- A request in its loop may move on as it likes: it stays the same connection's, with fewer rows to delete. -/
theorem Held.update (held : queues.Held) (name : Nat) {q : Destroying User Device}
    {es : DeviceTopic User Device → UInt64 → Option Item}
    (inside : q.pending ≠ [] → q.connection ∈ queues.devices.topics.members q.topic) :
    Held { queues with
      todeviceidEvents := es
      requests := update queues.requests name (some q) } where
  consistent := held.consistent
  single := held.single
  inside o got hit := by
    by_cases eq : o = name
    · subst eq
      dsimp only at hit
      rw [update_self] at hit
      obtain rfl := Option.some.inj hit
      exact inside
    · exact held.inside o got (by simpa [eq] using hit)

variable [DecidableEq User] [DecidableEq Device]

section Steps

variable (queues : DeviceQueues User Device Queue Item)

def delete (name : Nat) (request : Destroying User Device)
    (count : UInt64) (rest : List UInt64) : DeviceQueues User Device Queue Item :=
  { queues with
    todeviceidEvents := update queues.todeviceidEvents request.topic
      (update (queues.todeviceidEvents request.topic) count none)
    requests := update queues.requests name (some { request with pending := rest, deleted := some count }) }

def lookUp (name : Nat) (request : Destroying User Device) (count : UInt64) : DeviceQueues User Device Queue Item :=
  let destroyed := if (queues.todeviceidEvents request.topic count).isSome then request.destroyed
    else request.destroyed ++ [count]
  { queues with requests := update queues.requests name (some { request with deleted := none, destroyed }) }

def step : DeviceEvent User Device Queue Item → DeviceQueues User Device Queue Item
  | .call call => { queues with devices := queues.devices.step .oneTheLatest call.operation }
  | .add topic count item =>
    { queues with
      todeviceidEvents := update queues.todeviceidEvents topic
        (update (queues.todeviceidEvents topic) count (some item)) }
  | .request name connection session tc data =>
    match queues.requests name, checkDestroy queues.devices connection session tc data with
    | none, .ok request => { queues with requests := update queues.requests name (some request) }
    | _, _ => queues
  | .delete name =>
    match queues.requests name with
    | some request =>
      match request.deleted, request.pending with
      | none, count :: rest => queues.delete name request count rest
      | _, _ => queues
    | none => queues
  | .lookUp name =>
    match queues.requests name with
    | some request =>
      match request.deleted with
      | some count => queues.lookUp name request count
      | none => queues
    | none => queues
  | .finish name => { queues with requests := update queues.requests name none }

/-- An item that this event destroys is destroyed while the queue is the requesting connection's. -/
def DestroysAsHolder : DeviceEvent User Device Queue Item → Prop
  | .delete name => ∀ request ∈ queues.requests name, ∀ count ∈ request.pending.head?, request.deleted = none →
      (queues.todeviceidEvents request.topic count).isSome →
        deviceHolder queues.devices request.topic = some request.connection
  | _ => True

/-- The event takes no queue from a connection that still has rows of it to delete: no other connection subscribes to
the device, and this one neither lets go nor becomes somebody else's. -/
def SparesRequests : DeviceEvent User Device Queue Item → Prop
  | .call call => ∀ name, ∀ request ∈ queues.requests name, request.pending ≠ [] →
      queues.devices.Subscribes call.operation request.connection request.topic ∨
        Registry.Undisturbed request.connection request.topic queues.devices call.operation
  | _ => True

end Steps

theorem Held.call (held : queues.Held) {c : DeviceCall User Device Queue}
    (spares : queues.SparesRequests (.call c)) : (queues.step (.call c)).Held where
  consistent := held.consistent.step c.operation
  single := held.single.step held.consistent c.not_isCopy
  inside name q hit pending := by
    refine (held.consistent.mem_step_latest c.not_isCopy).mpr ?_
    rcases spares name q hit pending with again | calm
    · exact .inl again
    · exact .inr ⟨held.inside name q hit pending, calm⟩

theorem Held.step (held : queues.Held) {e : DeviceEvent User Device Queue Item}
    (spares : queues.SparesRequests e) : (queues.step e).Held := by
  cases e with
  | call call => exact held.call spares
  | add t n item => exact ⟨held.consistent, held.single, held.inside⟩
  | request name connection session tc data =>
    simp only [DeviceQueues.step]
    split
    next request _ passed =>
      exact held.update name fun _ => held.deviceHolder_iff.mp (checkDestroy_ok passed)
    · exact held
  | delete name =>
    simp only [DeviceQueues.step]
    split
    next request hit =>
      split
      next n rest _ pending =>
        exact held.update name fun _ => held.inside name request hit (by simp [pending])
      · exact held
    · exact held
  | lookUp name =>
    simp only [DeviceQueues.step]
    split
    next request hit =>
      split
      · exact held.update name (held.inside name request hit)
      · exact held
    · exact held
  | finish name =>
    refine ⟨held.consistent, held.single, fun o request hit => held.inside o request ?_⟩
    by_cases eq : o = name
    · simp [DeviceQueues.step, eq] at hit
    · simpa [DeviceQueues.step, eq] using hit

/-- In every run that takes no queue from a request on its way, an item is destroyed by the queue's holder only. -/
theorem destroys_as_holder {events : List (DeviceEvent User Device Queue Item)}
    (spares : Admits step SparesRequests new events) : Admits step DestroysAsHolder new events := by
  refine Admits.imp_of_keeps (fun _ _ held spares => held.step spares) (fun queues e held _ => ?_) new_held spares
  cases e with
  | delete name =>
    intro request hit n next _ _
    have pending : request.pending ≠ [] := fun none => by simp [none] at next
    exact held.deviceHolder_iff.mpr (held.inside name request hit pending)
  | call | add | request | lookUp | finish => trivial

/-- A device's queue goes from connection 2 to connection 1, which asks for the one item in it to be destroyed. -/
def asked : List (DeviceEvent Nat Nat Unit Unit) :=
  [.call (.subscribeDevice 2 10 20 () 7), .call (.subscribeDevice 1 10 20 () 42), .add ⟨10, 20⟩ 500 (),
    .request 0 1 (some ⟨10, 20⟩) (.ok 1) [0, 0, 0, 0, 0, 0, 1, 244]]

theorem asked_requests : (run step new asked).requests =
    update (fun _ => none) 0 (some ⟨1, ⟨10, 20⟩, [500], none, []⟩) := by
  have passed : checkDestroy (run step new (asked.take 3)).devices 1 (some ⟨10, 20⟩) (.ok 1) [0, 0, 0, 0, 0, 0, 1, 244] =
      .ok ⟨1, ⟨10, 20⟩, [500], none, []⟩ := by decide +kernel
  have whole : run step new asked = step (run step new (asked.take 3))
      (.request 0 1 (some ⟨10, 20⟩) (.ok 1) [0, 0, 0, 0, 0, 0, 1, 244]) := rfl
  rw [whole]
  simp only [step, passed]
  rfl

/-- While the request is in its loop, a third connection takes another device's queue and a pack goes to connection 1. -/
def meanwhile : List (DeviceEvent Nat Nat Unit Unit) :=
  [.call (.subscribeDevice 3 10 21 () 9), .call (.push ⟨10, 20⟩ [1]), .delete 0, .lookUp 0]

theorem destroys_as_holder_meanwhile :
    Admits step SparesRequests new (asked ++ meanwhile) ∧ Admits step DestroysAsHolder new (asked ++ meanwhile) := by
  have only : ∀ name q, (run step new asked).requests name = some q → q = ⟨1, ⟨10, 20⟩, [500], none, []⟩ := by
    intro name q hit
    rw [asked_requests, update_apply] at hit
    split at hit <;> cases hit
    rfl
  have spares : Admits step SparesRequests new (asked ++ meanwhile) := by
    refine ⟨?_, ?_, trivial, trivial, ?_, ?_, trivial, trivial, trivial⟩
    · intro name q hit
      cases show none = some q from hit
    · intro name q hit
      cases show none = some q from hit
    · intro name q hit pending
      obtain rfl := only name q hit
      exact .inr ⟨fun leaves => absurd leaves.1 (by decide), fun other takes => absurd takes.2.2 (by decide)⟩
    · intro name q hit pending
      exact .inr ⟨id, fun _ => id⟩
  exact ⟨spares, destroys_as_holder spares⟩

/-- Connection 2 takes the queue back between the check and the deletion. -/
theorem destroyed_after_takeover :
    ¬Admits step DestroysAsHolder new (asked ++ [.call (.subscribeDevice 2 10 20 () 7), .delete 0]) := by
  rintro ⟨-, -, -, -, -, destroys, -⟩
  have x := destroys ⟨1, ⟨10, 20⟩, [500], none, []⟩ (by decide +kernel) 500 (by decide) rfl (by decide +kernel)
  revert x
  decide +kernel

end DeviceQueues

end Wbfuwunel.Api
