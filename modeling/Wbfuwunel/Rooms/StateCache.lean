import Wbfuwunel.Database.Pairs
import Wbfuwunel.Rooms.Pdu

/-! The membership tables: `rooms/state_cache`.

Each membership has a table by user and a table by room, written together. The listings of a user's rooms scan the
table by user from the raw user id.
-/

set_option autoImplicit false

namespace Wbfuwunel.Rooms

open Foundation Database PairTable

/-- The memberships that have tables of their own. A ban is kept as a leave. -/
inductive Membership where
  | joined
  | invited
  | left
  | knocked
  deriving DecidableEq, Repr

/-- `userroomid_joinedcount`, `_invitestate`, `_leftstate`, `_knockedstate` and `roomuserid_joinedcount`,
`_invitecount`, `_leftcount`, `_knockedcount`. -/
structure StateCache where
  userroomid : Membership → PairTable
  roomuserid : Membership → PairTable
  roomuseroncejoinedids : PairTable
  roomserverids : PairTable
  serverroomids : PairTable

namespace StateCache

def empty : StateCache := ⟨fun _ => .empty, fun _ => .empty, .empty, .empty, .empty⟩

/-! ## Writing -/

variable (cache : StateCache)

def enter (membership : Membership) (user : UserId) (room : RoomId) (value : Bytes) (count : UInt64) :
    StateCache := { cache with
  userroomid := fun table =>
    if table = membership then (cache.userroomid table).insert user room value
    else (cache.userroomid table).del user room
  roomuserid := fun table =>
    if table = membership then (cache.roomuserid table).insert room user (toBeBytes64 count)
    else (cache.roomuserid table).del room user }

section

variable (user : UserId) (room : RoomId) (count : UInt64)

def markAsJoined : StateCache :=
  cache.enter .joined user room (toBeBytes64 count) count

def markAsLeft : StateCache :=
  cache.enter .left user room (utf8 "[]") count

def markAsKnocked (knockedState : Bytes) : StateCache :=
  cache.enter .knocked user room knockedState count

def markAsInvited (inviteState : Bytes) : StateCache :=
  cache.enter .invited user room inviteState count

end

def forget (room : RoomId) (user : UserId) : StateCache := { cache with
  userroomid := fun table =>
    if table = .left then (cache.userroomid table).del user room else cache.userroomid table
  roomuserid := fun table =>
    if table = .left then (cache.roomuserid table).del room user else cache.roomuserid table }

def markAsOnceJoined (user : UserId) (room : RoomId) : StateCache := { cache with
  roomuseroncejoinedids := cache.roomuseroncejoinedids.insert user room [] }

/-! ## Reading -/

section Reading

variable (cache : StateCache) (user : UserId) (room : RoomId)

def isJoined : Bool := (cache.userroomid .joined).contains user room
def isInvited : Bool := (cache.userroomid .invited).contains user room
def isKnocked : Bool := (cache.userroomid .knocked).contains user room
def isLeft : Bool := (cache.userroomid .left).contains user room
def onceJoined : Bool := cache.roomuseroncejoinedids.contains user room

def roomsJoined : List RoomId := (cache.userroomid .joined).keysRawPrefix user
def roomsInvited : List RoomId := (cache.userroomid .invited).keysRawPrefix user
def roomsKnocked : List RoomId := (cache.userroomid .knocked).keysRawPrefix user
def roomsLeft : List RoomId := (cache.userroomid .left).keysRawPrefix user

def roomMembers : List UserId := (cache.roomuserid .joined).keysPrefix room
def roomMembersKnocked : List UserId := (cache.roomuserid .knocked).keysPrefix room

def getInviteCount : Option UInt64 := ((cache.roomuserid .invited).get room user).map fromBeBytes64
def getLeftCount : Option UInt64 := ((cache.roomuserid .left).get room user).map fromBeBytes64

def roomServers : List String := cache.roomserverids.keysPrefix room

def serverInRoom (server : String) (room : RoomId) : Bool := cache.serverroomids.contains server room

end Reading

variable (cache : StateCache)

/-- The servers of the members now: gone ones lose their rows, new ones get them. -/
def updateJoinedCount (room : RoomId) : StateCache :=
  let joinedServers := ((cache.roomMembers room).map serverName).dedup
  let gone := (cache.roomServers room).filter (· ∉ joinedServers)
  let new := joinedServers.filter (· ∉ cache.roomServers room)
  { cache with
    roomserverids := (cache.roomserverids.delAll (gone.map fun server => (room, server))).insertAll
      (new.map fun server => (room, server))
    serverroomids := (cache.serverroomids.delAll (gone.map fun server => (server, room))).insertAll
      (new.map fun server => (server, room)) }

/-- Every row of the room, found by the tables by room, with its mirror. A local user's left row stays unless `force`. -/
def deleteRoomJoinCounts (userIsLocal : UserId → Bool) (cache : StateCache) (room : RoomId) (force : Bool) : StateCache :=
  let servers := cache.roomServers room
  let listed (table : Membership) := ((cache.roomuserid table).keysPrefix room).filter fun user =>
    table ≠ .left || force || !userIsLocal user
  { cache with
    roomserverids := cache.roomserverids.delAll (servers.map fun server => (room, server))
    serverroomids := cache.serverroomids.delAll (servers.map fun server => (server, room))
    roomuserid := fun table => (cache.roomuserid table).delAll ((listed table).map fun user => (room, user))
    userroomid := fun table => (cache.userroomid table).delAll ((listed table).map fun user => (user, room)) }

/-! ## The listings of a user -/

def Lists (rooms : List RoomId) (holds : RoomId → Bool) : Prop := (∀ room, room ∈ rooms ↔ holds room) ∧ rooms.Nodup

structure ListingsExact (user : UserId) : Prop where
  joined : Lists (cache.roomsJoined user) (cache.isJoined user)
  invited : Lists (cache.roomsInvited user) (cache.isInvited user)
  knocked : Lists (cache.roomsKnocked user) (cache.isKnocked user)
  left : Lists (cache.roomsLeft user) (cache.isLeft user)

structure SameListings (cache other : StateCache) (user : UserId) : Prop where
  joined : cache.roomsJoined user = other.roomsJoined user
  invited : cache.roomsInvited user = other.roomsInvited user
  knocked : cache.roomsKnocked user = other.roomsKnocked user
  left : cache.roomsLeft user = other.roomsLeft user

def Unextended (user : UserId) : Prop := ∀ membership, (cache.userroomid membership).Unextended user

theorem listingsExact_iff (cache : StateCache) (u : UserId) : cache.ListingsExact u ↔ cache.Unextended u := by
  constructor
  · intro exact m
    cases m with
    | joined => exact keysRawPrefix_exact_iff.mp exact.joined
    | invited => exact keysRawPrefix_exact_iff.mp exact.invited
    | left => exact keysRawPrefix_exact_iff.mp exact.left
    | knocked => exact keysRawPrefix_exact_iff.mp exact.knocked
  · intro unextended
    have lists := fun m => keysRawPrefix_exact_iff.mpr (unextended m)
    exact ⟨lists .joined, lists .invited, lists .knocked, lists .left⟩

theorem sameListings_iff (cache o : StateCache) (u : UserId) : cache.SameListings o u ↔
    ∀ m, (cache.userroomid m).keysRawPrefix u = (o.userroomid m).keysRawPrefix u := by
  constructor
  · intro eq m
    cases m with
    | joined => exact eq.joined
    | invited => exact eq.invited
    | left => exact eq.left
    | knocked => exact eq.knocked
  · intro eq
    exact ⟨eq .joined, eq .invited, eq .knocked, eq .left⟩

inductive Change where
  | markAsJoined (user : UserId) (room : RoomId) (count : UInt64)
  | markAsLeft (user : UserId) (room : RoomId) (count : UInt64)
  | markAsKnocked (user : UserId) (room : RoomId) (count : UInt64) (knockedState : Bytes)
  | markAsInvited (user : UserId) (room : RoomId) (count : UInt64) (inviteState : Bytes)
  | forget (room : RoomId) (user : UserId)
  deriving DecidableEq

def Change.user : Change → UserId
  | markAsJoined user _ _ | markAsLeft user _ _ | markAsKnocked user _ _ _ | markAsInvited user _ _ _ | forget _ user => user

def Change.enters : Change → Bool
  | forget _ _ => false
  | _ => true

def apply (cache : StateCache) : Change → StateCache
  | .markAsJoined user room count => cache.markAsJoined user room count
  | .markAsLeft user room count => cache.markAsLeft user room count
  | .markAsKnocked user room count knockedState => cache.markAsKnocked user room count knockedState
  | .markAsInvited user room count inviteState => cache.markAsInvited user room count inviteState
  | .forget room user => cache.forget room user

variable {change : Change} {user : UserId}

theorem apply_of_enters (cache : StateCache) (enters : change.enters) :
    ∃ m r v n, cache.apply change = cache.enter m change.user r v n := by
  cases change with
  | markAsJoined user r n => exact ⟨_, _, _, _, rfl⟩
  | markAsLeft user r n => exact ⟨_, _, _, _, rfl⟩
  | markAsKnocked user r n knockedState => exact ⟨_, _, _, _, rfl⟩
  | markAsInvited user r n inviteState => exact ⟨_, _, _, _, rfl⟩
  | forget r user => cases enters

theorem get_apply_of_ne (cache : StateCache) (change : Change) (m : Membership) (r : RoomId) (ne : user ≠ change.user) :
    ((cache.apply change).userroomid m).get user r = (cache.userroomid m).get user r := by
  by_cases enters : change.enters
  · obtain ⟨entered, t, v, n, applied⟩ := cache.apply_of_enters enters
    rw [applied]
    simp only [enter]
    split <;> simp [get_insert, get_del, ne]
  · cases change with
    | forget t owner =>
      simp only [apply, forget]
      split
      · rw [get_del, if_neg fun eq => ne eq.1]
      · rfl
    | _ => exact absurd rfl enters

theorem contains_enter_self (cache : StateCache) (m : Membership) (user : UserId) (r : RoomId) (v : Bytes) (n : UInt64) :
    ((cache.enter m user r v n).userroomid m).contains user r := by
  simp [enter]

theorem sameListings_apply {cache : StateCache} (unextended : cache.Unextended user) (ne : change.user ≠ user)
    (harmless : ¬(change.enters ∧ Extends user change.user)) : (cache.apply change).SameListings cache user := by
  refine (sameListings_iff _ _ user).mpr fun m => seconds_congr fun owner r pre => ?_
  rw [utf8_begins_pairKey] at pre
  by_cases eq : owner = change.user
  · -- the id of the change extends the user's, so there is no row of it, and the change only removes one
    subst eq
    have absent : ∀ table r, (cache.userroomid table).get change.user r = none := by
      intro table r
      by_contra hit
      exact unextended table change.user r (Option.isSome_iff_ne_none.mpr hit) ⟨pre, ne⟩
    cases change with
    | forget t owner =>
      simp only [apply, forget] at absent ⊢
      split
      · rw [get_del, absent, ite_self]
      · rfl
    | _ => exact absurd ⟨rfl, pre, ne⟩ harmless
  · exact cache.get_apply_of_ne change m r eq

theorem not_sameListings_apply {cache : StateCache} (unextended : cache.Unextended user) (enters : change.enters)
    (extended : Extends user change.user) : ¬(cache.apply change).SameListings cache user := by
  intro eq
  obtain ⟨m, r, v, n, applied⟩ := cache.apply_of_enters enters
  have unchanged := (sameListings_iff _ _ user).mp eq m
  have entered : ((cache.apply change).userroomid m).contains change.user r := by
    rw [applied]
    exact cache.contains_enter_self m change.user r v n
  have ls : r ∈ ((cache.apply change).userroomid m).keysRawPrefix user :=
    mem_seconds.mpr ⟨change.user, entered, utf8_begins_pairKey.mpr extended.1⟩
  obtain ⟨lists, distinct⟩ := keysRawPrefix_exact_iff.mpr (unextended m)
  rw [unchanged, lists] at ls
  -- the room is now listed for the user and for the other one
  have own : ((cache.apply change).userroomid m).contains user r := by
    rw [contains, cache.get_apply_of_ne change m r extended.2.symm]
    exact ls
  rw [← unchanged] at distinct
  exact extended.2 (nodup_seconds.mp distinct change.user user r entered own
    (utf8_begins_pairKey.mpr extended.1) (utf8_begins_pairKey.mpr List.prefix_rfl))

/-- What is listed for a user is exact, and stays as it is while another user's memberships change, as long as neither
the tables nor the change enter a membership of a user whose id extends this one's. -/
theorem listings_exact_iff (cache : StateCache) (user : UserId) (change : Change) :
    (cache.ListingsExact user ∧ (change.user ≠ user → (cache.apply change).SameListings cache user)) ↔
      cache.Unextended user ∧ ¬(change.enters ∧ Extends user change.user) := by
  rw [listingsExact_iff]
  refine and_congr_right fun unextended => ?_
  constructor
  · rintro unseen ⟨enters, extended⟩
    exact not_sameListings_apply unextended enters extended (unseen extended.2)
  · intro harmless o
    exact sameListings_apply unextended o harmless

/-- A room of `@alice:example.org` is listed for `@alice:example`, who is not in it. -/
theorem example_lists_org :
    "!staff:example.org" ∈ (empty.markAsJoined "@alice:example.org" "!staff:example.org" 1).roomsJoined "@alice:example" ∧
      (empty.markAsJoined "@alice:example.org" "!staff:example.org" 1).isJoined "@alice:example" "!staff:example.org" =
        false := by
  have pre : utf8 "@alice:example" <+: utf8 "@alice:example.org" := by
    exact List.prefix_append _ _
  constructor
  · exact mem_seconds.mpr ⟨"@alice:example.org", empty.contains_enter_self .joined _ _ _ _, utf8_begins_pairKey.mpr pre⟩
  · simp [isJoined, markAsJoined, enter, empty]

end StateCache

end Wbfuwunel.Rooms
