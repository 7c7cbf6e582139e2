import Mathlib.Data.List.Sort
import Wbfuwunel.Foundation.Bytes
import Wbfuwunel.Rooms.Pdu

/-! Device versions of accounts and of rooms: `device_versions`.

A room's version is a hash over its members and their device versions, kept by the room state it came from. Readers
compute it and key changes bump a member's version; each moves one moment at a time, a look at a row, a lock, a write,
and between two of its moments any other task may move.
-/

set_option autoImplicit false

namespace Wbfuwunel.DeviceVersions

open Foundation Rooms Function

abbrev ShortStateHash := UInt64

structure DeviceVersion where
  seq : UInt64
  hash : String
  pos : UInt64
  deriving DecidableEq, Repr

def DeviceVersion.toWire (version : DeviceVersion) : String := s!"{version.seq}-{version.hash}"

inductive Error where
  | content
  | noUser (event : EventId)
  | unreadableVersion
  | tooLargeToHash
  | shortDigest
  deriving DecidableEq

/-- A member event: its membership where the content parses, and the user its state key names, if it names one. -/
structure MemberEvent where
  eventId : EventId
  membership : Option MembershipState
  user : Option UserId

/-- The rooms' states, which the listing of a user's rooms follows: it has every room the user is joined to. -/
structure Env where
  shortstatehash : RoomId → Option ShortStateHash
  memberEvents : ShortStateHash → List MemberEvent
  roomsJoined : UserId → List RoomId
  sha256 : Bytes → Bytes
  listed : ∀ room state user, shortstatehash room = some state →
    (∃ event ∈ memberEvents state, event.membership = some .join ∧ event.user = some user) → room ∈ roomsJoined user

/-! ## The version of a room -/

def isMembershipCounted : MembershipState → Bool
  | .join | .leave | .ban => true
  | _ => false

def membershipName : MembershipState → String
  | .join => "join"
  | .invite => "invite"
  | .leave => "leave"
  | .knock => "knock"
  | .ban => "ban"
  | .custom value => value

/-- Whom an event counts for, if it counts. -/
def counted (event : MemberEvent) : Except Error (Option (UserId × MembershipState)) :=
  match event.membership with
  | none => .error .content
  | some membership =>
    if isMembershipCounted membership then
      match event.user with
      | none => .error (.noUser event.eventId)
      | some user => .ok (some (user, membership))
    else .ok none

def joinItem (version : DeviceVersion) : Bytes := utf8 (membershipName .join) ++ 0xFF :: utf8 version.toWire

def gather (lookup : UserId → Except Error DeviceVersion) :
    List (UserId × Bytes) → List MemberEvent → Except Error (List (UserId × Bytes))
  | items, [] => .ok items
  | items, event :: left =>
    match counted event with
    | .error error => .error error
    | .ok none => gather lookup items left
    | .ok (some (user, membership)) =>
      if membership = .join then
        match lookup user with
        | .error error => .error error
        | .ok version => gather lookup (items ++ [(user, joinItem version)]) left
      else gather lookup (items ++ [(user, utf8 (membershipName membership))]) left

def lengthPrefixed (part : Bytes) : Except Error Bytes :=
  if part.length < 2 ^ 32 then .ok (toBeBytes32 (UInt32.ofNat part.length) ++ part) else .error .tooLargeToHash

def frame : List (UserId × Bytes) → Except Error Bytes
  | [] => .ok []
  | (user, item) :: items =>
    match lengthPrefixed (utf8 user), lengthPrefixed item, frame items with
    | .ok user, .ok item, .ok rest => .ok (user ++ item ++ rest)
    | .error error, _, _ | _, .error error, _ | _, _, .error error => .error error

def toRoomVersionHash (sha256 : Bytes → Bytes) (items : List (UserId × Bytes)) : Except Error UInt64 :=
  match frame (items.insertionSort fun left right => utf8 left.1 ≤ utf8 right.1) with
  | .error error => .error error
  | .ok framed =>
    let digest := sha256 framed
    if 8 ≤ digest.length then .ok (fromBeBytes64 (digest.take 8)) else .error .shortDigest

def computeRoomDeviceVersion (sha256 : Bytes → Bytes) (lookup : UserId → Except Error DeviceVersion)
    (memberEvents : List MemberEvent) : Except Error UInt64 :=
  (gather lookup [] memberEvents).bind (toRoomVersionHash sha256)

/-! ## Tasks -/

/-- A computation under way. `before` is the change counter as it was loaded, `since` how often each account's bumps had
moved it by then. -/
structure Reading where
  room : RoomId
  state : ShortStateHash
  before : UInt64
  since : UserId → Nat
  items : List (UserId × Bytes)

def Reading.add (reading : Reading) (item : UserId × Bytes) : Reading := { reading with items := reading.items ++ [item] }

/-- What a task is about to do: first `get_room_device_version` with the `get_device_version` in it, then
`bump_device_version`. -/
inductive Task where
  | loading (room : RoomId) (state : ShortStateHash)
  | gathering (reading : Reading) (left : List MemberEvent)
  | locking (reading : Reading) (user : UserId) (left : List MemberEvent)
  | rereading (reading : Reading) (user : UserId) (left : List MemberEvent)
  | writing (reading : Reading) (user : UserId) (left : List MemberEvent)
  | comparing (reading : Reading) (version : UInt64)
  | inserting (reading : Reading) (version : UInt64)
  | waiting (user : UserId) (pos : UInt64)
  | sizing (user : UserId) (pos : UInt64)
  | storing (user : UserId) (seq pos : UInt64)
  | advancing (user : UserId)
  | removing (user : UserId)
  | announcing (user : UserId)

def Task.holds : Task → Option UserId
  | rereading _ user _ | writing _ user _ => some user
  | sizing user _ | storing user _ _ | advancing user | removing user | announcing user => some user
  | _ => none

def Task.isBump : Task → Bool
  | waiting .. | sizing .. | storing .. | advancing _ | removing _ | announcing _ => true
  | _ => false

/-- `changes` counts the moves of `deviceChanges`, which may wrap around, by the account that changed. A row of `versions`
that cannot be read is `some none`. -/
structure World where
  versions : UserId → Option (Option DeviceVersion)
  roomVersions : RoomId → Option (ShortStateHash × UInt64)
  deviceChanges : UInt64
  changes : UserId → Nat
  userLocks : UserId → Option Nat
  tasks : Nat → Option Task

namespace World

def resting (versions : UserId → Option (Option DeviceVersion)) : World where
  versions := versions
  roomVersions _ := none
  deviceChanges := 0
  changes _ := 0
  userLocks _ := none
  tasks _ := none

variable (env : Env) (world : World) (id : Nat)

def become (task : Option Task) : World := { world with
  tasks := update world.tasks id task }

variable (user : UserId)

def take (next : Task) : World :=
  if world.userLocks user = none then
    { world with userLocks := update world.userLocks user (some id) }.become id (some next)
  else world

def unlock : World := { world with
  userLocks := update world.userLocks user none }

def put (version : DeviceVersion) : World := { world with
  versions := update world.versions user (some (some version)) }

def lookup (fresh : UserId → DeviceVersion) (user : UserId) : Except Error DeviceVersion :=
  match world.versions user with
  | some (some version) => .ok version
  | some none => .error .unreadableVersion
  | none => .ok (fresh user)

def gatherNext (reading : Reading) (event : MemberEvent) (left : List MemberEvent) : World :=
  match counted event with
  | .error _ => world.become id none
  | .ok none => world.become id (some (.gathering reading left))
  | .ok (some (user, membership)) =>
    if membership = .join then
      match world.versions user with
      | some (some version) => world.become id (some (.gathering (reading.add (user, joinItem version)) left))
      | some none => world.become id none
      | none => world.become id (some (.locking reading user left))
    else world.become id (some (.gathering (reading.add (user, utf8 (membershipName membership))) left))

/-- The stored version is looked for once more under the lock. -/
def reread (reading : Reading) (user : UserId) (left : List MemberEvent) : World :=
  match world.versions user with
  | some (some version) => (world.unlock user).become id (some (.gathering (reading.add (user, joinItem version)) left))
  | some none => (world.unlock user).become id none
  | none => world.become id (some (.writing reading user left))

/-- An account that cannot be read restarts from the position. -/
def nextSeq (pos : UInt64) : UInt64 :=
  match world.versions user with
  | some (some stored) => saturatingAdd64 stored.seq 1
  | none => 1
  | some none => pos

/-- The next moment of a task. `hash` is that of the account's keys now, `lastChange` the position of its last change. -/
def advance (hash : String) (lastChange : UInt64) : Task → World
  | .loading room state =>
    world.become id (some (.gathering ⟨room, state, world.deviceChanges, world.changes, []⟩ (env.memberEvents state)))
  | .gathering reading (event :: left) => world.gatherNext id reading event left
  | .gathering reading [] =>
    match toRoomVersionHash env.sha256 reading.items with
    | .error _ => world.become id none
    | .ok version => world.become id (some (.comparing reading version))
  | .locking reading user left => world.take id user (.rereading reading user left)
  | .rereading reading user left => world.reread id reading user left
  | .writing reading user left =>
    let version : DeviceVersion := ⟨1, hash, lastChange⟩
    ((world.put user version).unlock user).become id (some (.gathering (reading.add (user, joinItem version)) left))
  | .comparing reading version =>
    if world.deviceChanges = reading.before then world.become id (some (.inserting reading version))
    else world.become id none
  -- The counter is not looked at again under the cache's lock.
  | .inserting reading version =>
    { world with
      roomVersions := update world.roomVersions reading.room (some (reading.state, version)) }.become id none
  | .waiting user pos => world.take id user (.sizing user pos)
  | .sizing user pos => world.become id (some (.storing user (world.nextSeq user pos) pos))
  | .storing user seq pos => (world.put user ⟨seq, hash, pos⟩).become id (some (.advancing user))
  | .advancing user =>
    { world with
      deviceChanges := world.deviceChanges + 1
      changes := update world.changes user (world.changes user + 1) }.become id (some (.removing user))
  | .removing user =>
    { world with
      roomVersions := fun room => if room ∈ env.roomsJoined user then none else world.roomVersions room }.become id
      (some (.announcing user))
  -- The reads for the announcement are readers like any other.
  | .announcing user => (world.unlock user).become id none

inductive Moment where
  | read (id : Nat) (room : RoomId)
  | bump (id : Nat) (user : UserId) (pos : UInt64)
  | advance (id : Nat) (hash : String) (lastChange : UInt64)

def start (task : Task) : World :=
  if world.tasks id = none then world.become id (some task) else world

def step : Moment → World
  | .read id room =>
    match env.shortstatehash room with
    | none => world
    -- A version kept from this very state is answered at once.
    | some state =>
      if (world.roomVersions room).map Prod.fst = some state then world else world.start id (.loading room state)
  | .bump id user pos => world.start id (.waiting user pos)
  | .advance id hash lastChange => (world.tasks id).elim world (world.advance env id hash lastChange)

end World

end Wbfuwunel.DeviceVersions
