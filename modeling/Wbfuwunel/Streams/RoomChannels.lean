import Wbfuwunel.Rooms.MembershipTables
import Wbfuwunel.Streams.SubscriberRuns

/-! The room channels: `streams/rooms.rs`, and the two hooks that keep them in step with the membership tables.

Who may be in a room's channel is decided by the tables. A join copies the account-wide subscriptions of its user into
the channel, a leave or a ban turns the user's connections out of it; no other change of the tables has a hook.
-/

set_option autoImplicit false

namespace Wbfuwunel.Streams

open Foundation Database Rooms Option Registry StateCache

inductive RoomTopic where
  | room (room : RoomId)
  | followsJoins (user : UserId)
  deriving DecidableEq

def RoomTopic.isRoom : RoomTopic → Bool
  | room _ => true
  | followsJoins _ => false

/-- A room may be listened to by as many connections as there are. -/
abbrev RoomChannels (Queue : Type) := Registry RoomTopic UserId Queue

namespace RoomChannels

variable {Queue : Type}

/-- The channels entered anew, or nothing for a session that ended. -/
def subscribe (channels : RoomChannels Queue) (connection : ConnectionId) (user : UserId) (queue : Queue) (id : UInt64)
    (rooms : List RoomId) (accountWide : Bool) : RoomChannels Queue × Option Nat :=
  let topics := rooms.map .room ++ if accountWide then [.followsJoins user] else []
  let (channels, entered) := Registry.subscribe channels .many connection user queue id topics
  (channels, entered.map fun entered => entered.topics.countP RoomTopic.isRoom)

def unsubscribe (channels : RoomChannels Queue) (connection : ConnectionId) (rooms : List RoomId) : RoomChannels Queue :=
  Registry.unsubscribe channels connection (rooms.map .room)

variable (channels : RoomChannels Queue)

def unsubscribeAllRooms (connection : ConnectionId) : RoomChannels Queue :=
  channels.removeConnection connection

def follow (user : UserId) (room : RoomId) : RoomChannels Queue :=
  channels.copyTopic (.followsJoins user) (.room room)

def evict (user : UserId) (room : RoomId) : RoomChannels Queue :=
  channels.leaveTopicOfUser user (.room room)

end RoomChannels

structure Projection (Queue : Type) where
  cache : StateCache
  channels : RoomChannels Queue

namespace Projection

variable {Queue : Type} (services : MembershipServices)

def empty : Projection Queue := ⟨.empty, .new⟩

def handleJoin (state : Projection Queue) (room : RoomId) (user : UserId) (count : UInt64) :
    Except Error Unit × Projection Queue :=
  match state.cache.handleJoin services room user count with
  | (.error error, cache) => (.error error, { state with cache })
  | (.ok (), cache) => (.ok (), ⟨cache, state.channels.follow user room⟩)

def handleLeave (state : Projection Queue) (room : RoomId) (user : UserId) (count : UInt64) : Projection Queue :=
  ⟨state.cache.handleLeave services room user count, state.channels.evict user room⟩

def enterMembership (state : Projection Queue) (update : MembershipUpdate) : Except Error Bool × Projection Queue :=
  match update.membership with
  | .join =>
    match state.handleJoin services update.roomId update.userId update.count with
    | (.error error, state) => (.error error, state)
    | (.ok (), state) => (.ok true, state)
  | .leave | .ban => (.ok true, state.handleLeave services update.roomId update.userId update.count)
  | .invite | .knock | .custom _ =>
    let (goesOn, cache) := state.cache.enterMembership services update
    (goesOn, { state with cache })

def updateMembership (state : Projection Queue) (update : MembershipUpdate) : Except Error Unit × Projection Queue :=
  match services.ensureRemoteUser update.userId with
  | .error error => (.error error, state)
  | .ok () =>
    match state.enterMembership services update with
    | (.error error, state) => (.error error, state)
    | (.ok false, state) => (.ok (), state)
    | (.ok true, state) => (.ok (), if update.updateJoinedCount then
        { state with cache := state.cache.updateJoinedCount update.roomId } else state)

inductive Event (Queue : Type) where
  | updateMembership (update : MembershipUpdate)
  | deleteRoomJoinCounts (room : RoomId) (force : Bool)
  | subscribe (connection : ConnectionId) (user : UserId) (queue : Queue) (id : UInt64) (rooms : List RoomId)
    (accountWide : Bool)
  | unsubscribe (connection : ConnectionId) (rooms : List RoomId)
  | unsubscribeAllRooms (connection : ConnectionId)
  | endConnection (connection : ConnectionId)
  | forgetConnection (connection : ConnectionId)

variable (userIsLocal : UserId → Bool)

def step (state : Projection Queue) : Event Queue → Projection Queue
  | .updateMembership update => (state.updateMembership services update).2
  | .deleteRoomJoinCounts room force =>
    { state with cache := state.cache.deleteRoomJoinCounts userIsLocal room force }
  | .subscribe connection user queue id rooms accountWide =>
    { state with channels := (state.channels.subscribe connection user queue id rooms accountWide).1 }
  | .unsubscribe connection rooms => { state with channels := RoomChannels.unsubscribe state.channels connection rooms }
  | .unsubscribeAllRooms connection => { state with channels := state.channels.unsubscribeAllRooms connection }
  | .endConnection connection => { state with channels := state.channels.endConnection connection }
  | .forgetConnection connection => { state with channels := state.channels.forgetConnection connection }

/-! ## What an event does -/

def operationOf (state : Projection Queue) : Event Queue → Option (Operation RoomTopic UserId Queue)
  | .updateMembership update =>
    match state.cache.entersMembership services update with
    | some .joined => some (.copyTopic (.followsJoins update.userId) (.room update.roomId))
    | some .left => some (.leaveTopicOfUser update.userId (.room update.roomId))
    | some .invited | some .knocked | none => none
  | .deleteRoomJoinCounts .. => none
  | .subscribe connection user queue id rooms accountWide =>
    some (.subscribe connection user queue id (rooms.map .room ++ if accountWide then [.followsJoins user] else []))
  | .unsubscribe connection rooms => some (.unsubscribe connection (rooms.map .room))
  | .unsubscribeAllRooms connection => some (.removeConnection connection)
  | .endConnection connection => some (.endConnection connection)
  | .forgetConnection connection => some (.forgetConnection connection)

theorem updateMembership_eq (s : Projection Queue) (update : MembershipUpdate) :
    (s.updateMembership services update).2 = ⟨(s.cache.updateMembership services update).2,
      match s.cache.entersMembership services update with
      | some .joined => s.channels.follow update.userId update.roomId
      | some .left => s.channels.evict update.userId update.roomId
      | some .invited | some .knocked | none => s.channels⟩ := by
  unfold updateMembership StateCache.updateMembership StateCache.entersMembership
  cases services.ensureRemoteUser update.userId with
  | error error => rfl
  | ok ensured =>
    simp only [enterMembership, StateCache.enterMembership]
    cases joins : update.membership with
    | join =>
      simp only [handleJoin, StateCache.handleJoin]
      cases s.cache.onceJoined update.userId update.roomId <;>
        cases services.copyPredecessorData update.roomId update.userId <;>
        cases update.updateJoinedCount <;> rfl
    | invite =>
      cases services.userIsIgnored update.sender update.userId <;> cases update.updateJoinedCount <;> rfl
    | leave | ban | knock | custom => cases update.updateJoinedCount <;> rfl

theorem channels_step (s : Projection Queue) (e : Event Queue) : (s.step services userIsLocal e).channels =
      match s.operationOf services e with
      | some op => Registry.step .many s.channels op
      | none => s.channels := by
  cases e with
  | updateMembership update =>
    simp only [step, updateMembership_eq, operationOf]
    cases s.cache.entersMembership services update with
    | none => rfl
    | some m => cases m <;> rfl
  | _ => rfl

/-! ## The projection -/

variable (state : Projection Queue)

def Projects : Prop := ∀ room user, ∀ connection ∈ state.channels.topics.members (.room room),
  state.channels.userOf connection = some user → state.cache.isJoined user room

def Named : Event Queue → Prop
  | .subscribe _ user _ _ rooms _ => ∀ room ∈ rooms, state.cache.isJoined user room
  | _ => True

/-- Where the tables change without a hook, nobody is left in the channel to turn out. -/
def Deserted : Event Queue → Prop
  | .updateMembership update =>
    state.cache.entersMembership services update = some .invited ∨
        state.cache.entersMembership services update = some .knocked →
      ∀ connection ∈ state.channels.topics.members (.room update.roomId),
        state.channels.userOf connection ≠ some update.userId
  | .deleteRoomJoinCounts room _ => state.channels.topics.members (.room room) = ∅
  | _ => True

/-- What holds in every state: a connection that follows a user's joins is that user's. -/
structure Sound : Prop where
  consistent : state.channels.Consistent
  sorted : state.cache.Sorted
  follows : ∀ user, ∀ connection ∈ state.channels.topics.members (.followsJoins user),
    state.channels.userOf connection = some user

theorem sound_empty : (empty : Projection Queue).Sound where
  consistent := new_consistent
  sorted := sorted_empty
  follows := by simp [empty, new]

variable {services} {userIsLocal} {s : Projection Queue}

theorem operationOf_subscribe {e : Event Queue} {conn : ConnectionId} {u : UserId} {queue : Queue} {id : UInt64}
    {topics : List RoomTopic} (comes : s.operationOf services e = some (.subscribe conn u queue id topics)) :
    ∃ rooms accountWide, e = .subscribe conn u queue id rooms accountWide ∧
      topics = rooms.map .room ++ if accountWide then [.followsJoins u] else [] := by
  cases e with
  | subscribe conn u queue id rooms accountWide =>
    cases comes
    exact ⟨rooms, accountWide, rfl, rfl⟩
  | updateMembership update =>
    simp only [operationOf] at comes
    split at comes <;> cases comes
  | deleteRoomJoinCounts | unsubscribe | unsubscribeAllRooms | endConnection | forgetConnection => cases comes

theorem operationOf_copyTopic {e : Event Queue} {source t : RoomTopic}
    (comes : s.operationOf services e = some (.copyTopic source t)) :
    ∃ update, e = .updateMembership update ∧ s.cache.entersMembership services update = some .joined ∧
      source = .followsJoins update.userId ∧ t = .room update.roomId := by
  cases e with
  | updateMembership update =>
    simp only [operationOf] at comes
    split at comes <;> cases comes
    rename_i joins
    exact ⟨update, rfl, joins, rfl, rfl⟩
  | deleteRoomJoinCounts | subscribe | unsubscribe | unsubscribeAllRooms | endConnection | forgetConnection => cases comes

section

variable (h : s.Sound)
include h

theorem Sound.follows_step {e : Event Queue} {op : Operation RoomTopic UserId Queue}
    (comes : s.operationOf services e = some op) (u : UserId) (who : ConnectionId)
    (mem : who ∈ (Registry.step .many s.channels op).topics.members (.followsJoins u)) :
    (Registry.step .many s.channels op).userOf who = some u := by
  rcases (h.consistent.mem_step_many op).mp mem with subscribes | copies | ⟨mem, stays⟩
  · obtain ⟨owner, queue, id, topics, rfl, named, entered⟩ := subscribes.userOf
    obtain ⟨rooms, accountWide, rfl, rfl⟩ := operationOf_subscribe comes
    have eq : u = owner := by
      cases accountWide with
      | true => simpa using named
      | false => simp at named
    rw [entered, eq]
  · -- what is copied into is a room
    obtain ⟨source, rfl, -⟩ := copies.source
    obtain ⟨update, -, -, -, room⟩ := operationOf_copyTopic comes
    cases room
  · rw [h.consistent.userOf_of_stays mem stays]
    exact h.follows u who mem

theorem Sound.step (e : Event Queue) : (s.step services userIsLocal e).Sound where
  consistent := by
    rw [channels_step]
    cases s.operationOf services e with
    | none => exact h.consistent
    | some op => exact h.consistent.step op
  sorted := by
    cases e with
    | updateMembership update =>
      rw [Projection.step, updateMembership_eq]
      exact h.sorted.updateMembership services update
    | deleteRoomJoinCounts r force => exact h.sorted.deleteRoomJoinCounts userIsLocal r force
    | _ => exact h.sorted
  follows u who := by
    rw [channels_step]
    cases comes : s.operationOf services e with
    | none => exact h.follows u who
    | some op => exact h.follows_step comes u who

/-! ## One event -/

theorem Sound.mem_room_step (e : Event Queue) {who : ConnectionId} {r : RoomId} {u : UserId}
    (mem : who ∈ (s.step services userIsLocal e).channels.topics.members (.room r))
    (owned : (s.step services userIsLocal e).channels.userOf who = some u) :
    (∃ queue id rooms accountWide, e = .subscribe who u queue id rooms accountWide ∧ r ∈ rooms) ∨
      (∃ update, e = .updateMembership update ∧ s.cache.entersMembership services update = some .joined ∧
        u = update.userId ∧ r = update.roomId) ∨
      who ∈ s.channels.topics.members (.room r) ∧ s.channels.userOf who = some u ∧
        ∀ op ∈ s.operationOf services e, ¬s.channels.Leaves op who (.room r) := by
  rw [channels_step] at mem owned
  cases comes : s.operationOf services e with
  | none =>
    rw [comes] at mem owned
    exact .inr (.inr ⟨mem, owned, by simp⟩)
  | some op =>
    rw [comes] at mem owned
    rcases (h.consistent.mem_step_many op).mp mem with subscribes | copies | ⟨mem, stays⟩
    · obtain ⟨owner, queue, id, topics, rfl, named, entered⟩ := subscribes.userOf
      obtain ⟨rooms, accountWide, rfl, rfl⟩ := operationOf_subscribe comes
      obtain rfl : owner = u := some.inj (entered.symm.trans owned)
      have ls : r ∈ rooms := by cases accountWide <;> simpa using named
      exact .inl ⟨queue, id, rooms, accountWide, rfl, ls⟩
    · obtain ⟨source, rfl, follower⟩ := copies.source
      obtain ⟨update, rfl, joins, rfl, target⟩ := operationOf_copyTopic comes
      have old : s.channels.userOf who = some u := by
        rwa [userOf_step] at owned
      have own : u = update.userId := some.inj (old.symm.trans (h.follows _ who follower))
      cases target
      exact .inr (.inl ⟨update, rfl, joins, own, rfl⟩)
    · rw [h.consistent.userOf_of_stays mem stays] at owned
      refine .inr (.inr ⟨mem, owned, fun o eq => ?_⟩)
      cases eq
      exact stays

theorem isJoined_step (e : Event Queue) (u : UserId) (r : RoomId) :
    (s.step services userIsLocal e).cache.isJoined u r = match e with
      | .updateMembership update =>
        if u = update.userId ∧ r = update.roomId then
          match s.cache.entersMembership services update with
          | some m => decide (m = .joined)
          | none => s.cache.isJoined u r
        else s.cache.isJoined u r
      | .deleteRoomJoinCounts t _ => decide (r ≠ t) && s.cache.isJoined u r
      | _ => s.cache.isJoined u r := by
  cases e with
  | updateMembership update =>
    rw [step, updateMembership_eq]
    exact s.cache.isJoined_updateMembership services update u r
  | deleteRoomJoinCounts t force => exact h.sorted.isJoined_deleteRoomJoinCounts userIsLocal t force u r
  | _ => rfl

theorem Sound.deserted_of_projects {e : Event Queue} (after : (s.step services userIsLocal e).Projects) :
    Deserted services s e := by
  have joined (u : UserId) (r : RoomId) : (s.step services userIsLocal e).cache.isJoined u r = _ :=
    isJoined_step h e u r
  have channels := channels_step services userIsLocal s e
  cases e with
  | updateMembership update =>
    intro hookless conn mem owned
    have unmoved : s.operationOf services (.updateMembership update) = none := by
      rcases hookless with enters | enters <;> simp only [operationOf, enters]
    rw [unmoved] at channels
    have listens := after update.roomId update.userId conn (channels ▸ mem) (channels ▸ owned)
    rw [joined] at listens
    rcases hookless with enters | enters <;> simp [enters] at listens
  | deleteRoomJoinCounts r force =>
    refine Finset.eq_empty_of_forall_notMem fun conn mem => ?_
    obtain ⟨subscriber, found⟩ :=
      isSome_iff_exists.mp (h.consistent.listed (.room r) conn mem)
    have owned : s.channels.userOf conn = some subscriber.user := by simp [userOf, found]
    have listens := after r subscriber.user conn mem owned
    simp [joined] at listens
  | _ => trivial

theorem Sound.projects_of_deserted (projects : s.Projects) {e : Event Queue} (named : s.Named e)
    (deserted : Deserted services s e) : (s.step services userIsLocal e).Projects := by
  intro r u who mem owned
  rw [isJoined_step h]
  rcases h.mem_room_step e mem owned with
    ⟨queue, id, rooms, accountWide, rfl, ls⟩ | ⟨update, rfl, joins, rfl, rfl⟩ | ⟨hit, mine, stays⟩
  · exact named r ls
  · simp [joins]
  · have old := projects r u who hit mine
    cases e with
    | updateMembership update =>
      simp only
      split_ifs with own
      · obtain ⟨rfl, rfl⟩ := own
        cases enters : s.cache.entersMembership services update with
        | none => exact old
        | some m =>
          cases m with
          | joined => rfl
          | left =>
            -- the hook has turned this connection out
            have hook : Operation.leaveTopicOfUser update.userId (.room update.roomId) ∈
                s.operationOf services (.updateMembership update) := by simp [operationOf, enters]
            exact absurd ⟨rfl, mine⟩ (stays _ hook)
          | invited => exact absurd mine (deserted (.inl enters) who hit)
          | knocked => exact absurd mine (deserted (.inr enters) who hit)
      · exact old
    | deleteRoomJoinCounts t force =>
      have o : r ≠ t := by
        rintro rfl
        have nobody : s.channels.topics.members (.room r) = ∅ := deserted
        simp [nobody] at hit
      simp [o, old]
    | _ => exact old

end

/-- Over every run whose `Subscribe`s name rooms of their users, the channels are a projection of the memberships just
when each membership that is replaced by an invite or a knock, and each room that is deleted, has nobody listening. -/
theorem channels_project_iff (services : MembershipServices) (userIsLocal : UserId → Bool) (events : List (Event Queue))
    (named : Admits (step services userIsLocal) Named empty events) :
    Along (step services userIsLocal) Projects empty events ↔
      Admits (step services userIsLocal) (Deserted services) empty events := by
  have keeps (s : Projection Queue) (e : Event Queue) (h : s.Sound) (_ : s.Named e) :
      (s.step services userIsLocal e).Sound := h.step e
  refine along_iff_admits keeps (fun s e h projects named => ?_) sound_empty (by simp [Projects, empty, new]) named
  exact ⟨h.deserted_of_projects, h.projects_of_deserted projects named⟩

def willing : MembershipServices where
  ensureRemoteUser _ := .ok ()
  userIsIgnored _ _ := false
  copyPredecessorData _ _ := .ok ()
  forgetsUponLeave _ _ := false

theorem entersMembership_willing (c : StateCache) (update : MembershipUpdate) :
    c.entersMembership willing update = match update.membership with
      | .join => some .joined
      | .invite => some .invited
      | .leave | .ban => some .left
      | .knock => some .knocked
      | .custom _ => none := by
  unfold entersMembership
  cases update.membership with
  | join => cases c.onceJoined update.userId update.roomId <;> rfl
  | _ => rfl

def aliceBecomes (membership : MembershipState) (count : UInt64) : Event Unit :=
  .updateMembership
    { roomId := "!r:localhost", userId := "@alice:localhost", membership, sender := "@bob:localhost",
      updateJoinedCount := true, count }

theorem isJoined_aliceBecomes (s : Projection Unit) (m : MembershipState) (n : UInt64) :
    (s.step willing (fun _ => true) (aliceBecomes m n)).cache.isJoined "@alice:localhost" "!r:localhost" = match m with
      | .join => true
      | .custom _ => s.cache.isJoined "@alice:localhost" "!r:localhost"
      | _ => false := by
  simp only [step, aliceBecomes, updateMembership_eq, isJoined_updateMembership, entersMembership_willing]
  cases m <;> rfl

/-- Alice joins, listens, and leaves: nobody listens. -/
theorem channels_project_leave : Along (step willing fun _ => true) Projects empty
      [aliceBecomes .join 1, .subscribe 7 "@alice:localhost" () 42 ["!r:localhost"] true, aliceBecomes .leave 2] := by
  refine (channels_project_iff willing (fun _ => true) _ ?_).mpr ?_
  · refine ⟨trivial, fun r mem => ?_, trivial, trivial⟩
    obtain rfl : r = "!r:localhost" := by simpa using mem
    exact isJoined_aliceBecomes empty .join 1
  · simp [Admits, Deserted, aliceBecomes, entersMembership_willing]

/-- Alice joins, listens, and is invited by a later state of the room: her connection still listens. -/
theorem invited_still_listens : let events : List (Event Unit) :=
      [aliceBecomes .join 1, .subscribe 7 "@alice:localhost" () 42 ["!r:localhost"] false, aliceBecomes .invite 2]
    let s := run (step willing fun _ => true) empty events
    Admits (step willing fun _ => true) Named empty events ∧
      7 ∈ s.channels.topics.members (.room "!r:localhost") ∧ s.channels.userOf 7 = some "@alice:localhost" ∧
      s.cache.isJoined "@alice:localhost" "!r:localhost" = false := by
  intro events s
  -- the join finds nobody to copy, and the invite has no hook
  have listening : s.channels =
      Registry.step .many .new (.subscribe 7 "@alice:localhost" () 42 [.room "!r:localhost"]) := by
    rfl
  refine ⟨⟨trivial, fun r mem => ?_, trivial, trivial⟩, ?_, ?_, isJoined_aliceBecomes _ .invite 2⟩
  · obtain rfl : r = "!r:localhost" := by simpa using mem
    exact isJoined_aliceBecomes empty .join 1
  · decide
  · decide

end Projection

end Wbfuwunel.Streams
