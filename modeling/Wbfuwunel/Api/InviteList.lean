import Wbfuwunel.Core.TwoPhaseCounter
import Wbfuwunel.Rooms.InviteRows
import Wbfuwunel.Streams.Underway

/-! The pending invites of a user and a client's list of them: `update_membership`, `push_invited`, `push_invite_gone` and
`handle_invite_fetch`, split where they can overlap.

An update draws its count, reads whether the user was invited, writes the tables and tells the user's connections. The
number it drew stays pending until its permit is dropped. A pass of `Invite/Fetch` is bounded by the count that was
current when it was asked for; it reads the rooms, then each count, then each state.
-/

set_option autoImplicit false

namespace Wbfuwunel.Api
open Foundation Core Streams Database Rooms

structure Notice where
  room : RoomId
  is : Nat
  isPending : Bool
  deriving DecidableEq

/-- The rule of the client: for each room the notice with the largest `is` counts. -/
def isPendingIn (notices : List Notice) (room : RoomId) : Bool :=
  ((notices.filter fun notice => notice.room = room).argmax Notice.is).any Notice.isPending

/-! ## An update -/

inductive UpdateStage where
  | drawn
  | begun (wasInvited : Bool)
  | entered (wasInvited : Bool)
  /-- The invite's user was found to have a listener. -/
  | listened
  | pushing (push : Nat)
  /-- Nothing is left but the recount. -/
  | announced
  | returned
  /-- The permit of its count is dropped. -/
  | released
  deriving DecidableEq

structure Updating where
  update : MembershipUpdate
  stage : UpdateStage

namespace Updating

variable (updating : Updating)

def room : RoomId := updating.update.roomId

def notice : Notice := ⟨updating.room, updating.update.count.toNat, decide (updating.update.membership = .invite)⟩

def isActive : Bool :=
  match updating.stage with
  | .returned | .released => false
  | _ => true

def announces : Bool :=
  match updating.stage with
  | .entered wasInvited =>
    decide (updating.update.membership = .invite) || wasInvited && StateCache.isInviteEndedBy updating.update.membership
  | .listened => true
  | _ => false

end Updating

/-! ## A pass -/

inductive PassStage where
  | asked
  | counting (unread : List RoomId) (pending : List Notice)
  | reading (left entries : List Notice)
  | finished (entries : List Notice)

structure Pass where
  /-- The packs after the first so many are laid on top of the result. -/
  since : Nat
  /-- How many packs there were when the pass was asked for. -/
  asked : Nat
  upperBound : Nat
  stage : PassStage

namespace Pass

variable (cache : StateCache) (user : UserId) (pass : Pass)

def found : List Notice :=
  match pass.stage with
  | .asked => []
  | .counting _ pending => pending
  | .reading left entries => left ++ entries
  | .finished entries => entries

def isFinished : Bool :=
  match pass.stage with
  | .finished _ => true
  | _ => false

def listPending (room : RoomId) (pending : List Notice) : List Notice :=
  match cache.getInviteCount user room with
  | none => pending
  | some count => if pass.upperBound < count.toNat then pending else pending ++ [⟨room, count.toNat, true⟩]

def readEntry (invite : Notice) (entries : List Notice) : List Notice :=
  if cache.isInvited user invite.room then entries ++ [invite] else entries

def advance : Pass :=
  { pass with stage := match pass.stage with
    | .asked => .counting (cache.roomsInvited user) []
    | .counting (room :: unread) pending => .counting unread (pass.listPending cache user room pending)
    | .counting [] pending => .reading (pending.insertionSort fun first second => first.is ≤ second.is) []
    | .reading (invite :: left) entries => .reading left (readEntry cache user invite entries)
    | .reading [] entries => .finished entries
    | .finished entries => .finished entries }

end Pass

/-! ## The whole -/

structure InviteSetting (Queue : Type) where
  connection : ConnectionId
  user : UserId
  queue : Queue
  id : UInt64
  services : MembershipServices
  userIsLocal : UserId → Bool

structure Inviting (Queue Pack PackError : Type) where
  cache : StateCache
  globals : Globals
  pushing : Pushing UserId UserId Queue Pack PackError
  /-- In the order in which they drew their counts. -/
  updates : List Updating
  /-- What each push tells. -/
  carries : Nat → Notice
  isRegistered : Bool
  /-- What the connection's queue took since it subscribed, each with its `gap`. -/
  inbox : List (Notice × Bool)
  /-- What was dropped: its room, and how many packs the queue had taken. -/
  losses : List (RoomId × Nat)
  isOpen : Bool
  pass : Option Pass

inductive InviteEvent (Pack PackError : Type) where
  | draw (update : MembershipUpdate)
  | check (update : Nat)
  | enter (update : Nat)
  | look (update : Nat)
  | publish (update push : Nat) (makePack : MakePack Pack PackError)
  | recount (update : Nat)
  | release (update : Nat)
  | deleteRoom (room : RoomId) (force : Bool)
  | subscribe
  | ask (since : Nat)
  | advance
  | take (push : Nat)
  | send (push : Nat) (answer : Except QueueError Unit)
  | mark (push : Nat)

variable {Queue Pack PackError : Type}

namespace Inviting

def start (registry : Registry UserId UserId Queue) (count : Nat) : Inviting Queue Pack PackError where
  cache := .empty
  globals := .new count
  pushing := .idle registry
  updates := []
  carries _ := ⟨"", 0, false⟩
  isRegistered := false
  inbox := []
  losses := []
  isOpen := true
  pass := none

variable (setting : InviteSetting Queue) (world : Inviting Queue Pack PackError) (name : Nat) (updating : Updating)

def setStage (stage : UpdateStage) : Inviting Queue Pack PackError :=
  { world with updates := world.updates.set name { updating with stage } }

def draw (update : MembershipUpdate) : Inviting Queue Pack PackError :=
  let count := world.globals.counter.dispatched + 1
  if count < 2 ^ 64 then
    { world with
      globals := world.globals.nextCount .stored
      updates := world.updates ++ [⟨{ update with userId := setting.user, count := .ofNat count }, .drawn⟩] }
  else world

def enter (wasInvited : Bool) : Inviting Queue Pack PackError :=
  match setting.services.ensureRemoteUser setting.user with
  | .error _ => world.setStage name updating .returned
  | .ok () =>
    match world.cache.enterMembership setting.services updating.update with
    | (.ok true, cache) => { world.setStage name updating (.entered wasInvited) with cache }
    | (.ok false, cache) | (.error _, cache) => { world.setStage name updating .returned with cache }

def listeners : List ConnectionId := (world.pushing.registry.listeners setting.user).map Prod.fst

def announce (push : Nat) (updating : Updating) (makePack : MakePack Pack PackError) : Inviting Queue Pack PackError :=
  let connections := world.listeners setting
  if connections.isEmpty then world.setStage name updating .announced
  else
    { world.setStage name updating (.pushing push) with
      pushing := world.pushing.step (.start push (some setting.user) connections makePack)
      carries := Function.update world.carries push updating.notice }

def publish (push : Nat) (updating : Updating) (makePack : MakePack Pack PackError) : Inviting Queue Pack PackError :=
  match updating.stage with
  | .listened =>
    -- The stripped state is read back.
    if world.cache.isInvited setting.user updating.room then world.announce setting name push updating makePack
    else world.setStage name updating .announced
  | .entered _ =>
    -- An invite looks for listeners first.
    if updating.update.membership = .invite then world
    else if updating.announces then world.announce setting name push updating makePack
    else world.setStage name updating .announced
  | _ => world

def isOver (push : Nat) : Bool := (world.pushing.pushes push).isNone

def recount : Inviting Queue Pack PackError :=
  { world.setStage name updating .returned with
    cache := if updating.update.updateJoinedCount then world.cache.updateJoinedCount updating.room else world.cache }

def subscribe : Inviting Queue Pack PackError :=
  match world.pushing.registry.subscribe .many setting.connection setting.user setting.queue setting.id [setting.user] with
  | (_, none) => world
  | (registry, some _) =>
    -- What came before is the last conversation's.
    { world with pushing := { world.pushing with registry }, isRegistered := true, inbox := [], losses := [] }

def ask (since : Nat) : Inviting Queue Pack PackError :=
  { world with pass := some ⟨since, world.inbox.length, world.globals.counter.current, .asked⟩ }

def deliver (target : Target Queue) (notice : Notice) : Outcome → Inviting Queue Pack PackError
  | .queued => { world with inbox := world.inbox ++ [(notice, target.gap)] }
  | .dropped => { world with losses := world.losses ++ [(notice.room, world.inbox.length)] }
  | .gone => { world with isOpen := false }

def send (name : Nat) (push : Push Queue Pack PackError) (target : Target Queue) (turn : Nat)
    (rest : List (Target Queue × Nat)) (answer : Except QueueError Unit) : Inviting Queue Pack PackError :=
  let sent := { world with pushing := world.pushing.send name push target turn rest answer }
  if target.connection = setting.connection then
    sent.deliver target (world.carries name) (push.makePack.tried target answer)
  else sent

def step : InviteEvent Pack PackError → Inviting Queue Pack PackError
  | .draw update => world.draw setting update
  | .check name =>
    match world.updates[name]? with
    | some ⟨update, .drawn⟩ =>
      world.setStage name ⟨update, .drawn⟩ (.begun (world.cache.isInvited setting.user update.roomId))
    | _ => world
  | .enter name =>
    match world.updates[name]? with
    | some ⟨update, .begun wasInvited⟩ => world.enter setting name ⟨update, .begun wasInvited⟩ wasInvited
    | _ => world
  | .look name =>
    match world.updates[name]? with
    | some ⟨update, .entered wasInvited⟩ =>
      if update.membership = .invite then
        world.setStage name ⟨update, .entered wasInvited⟩
          (if (world.listeners setting).isEmpty then .announced else .listened)
      else world
    | _ => world
  | .publish name push makePack =>
    match world.updates[name]? with
    | some updating => if world.isOver push then world.publish setting name push updating makePack else world
    | none => world
  | .recount name =>
    match world.updates[name]? with
    | some ⟨update, .announced⟩ => world.recount name ⟨update, .announced⟩
    | some ⟨update, .pushing push⟩ => if world.isOver push then world.recount name ⟨update, .pushing push⟩ else world
    | _ => world
  | .release name =>
    match world.updates[name]? with
    | some ⟨update, .returned⟩ =>
      { world.setStage name ⟨update, .returned⟩ .released with globals := world.globals.dropPermit update.count.toNat }
    | _ => world
  | .deleteRoom room force =>
    { world with cache := world.cache.deleteRoomJoinCounts setting.userIsLocal room force }
  | .subscribe => if world.isRegistered then world else world.subscribe setting
  | .ask since =>
    if world.isRegistered && world.pass.all Pass.isFinished && since ≤ world.inbox.length then world.ask since
    else world
  | .advance => { world with pass := world.pass.map (Pass.advance world.cache setting.user) }
  | .take push => { world with pushing := world.pushing.step (.take push) }
  | .send name answer =>
    match world.pushing.pushes name with
    | some push =>
      match push.candidates, push.targets with
      | [], (target, turn) :: rest => world.send setting name push target turn rest answer
      | _, _ => world
    | none => world
  | .mark push => { world with pushing := world.pushing.step (.mark push) }

/-! ## The client -/

/-- The list of a client that replaces it by the finished pass and lays the later packs on top. -/
def clientHolds (room : RoomId) : Bool :=
  world.pass.any fun pass => isPendingIn (pass.found ++ (world.inbox.drop pass.since).map Prod.fst) room

def isQuiet : Bool := world.updates.all (fun updating => !updating.isActive) && world.pass.any Pass.isFinished

end Inviting
end Wbfuwunel.Api
