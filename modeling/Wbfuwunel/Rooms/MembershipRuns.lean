import Mathlib.Data.Set.Card
import Wbfuwunel.Foundation.Runs
import Wbfuwunel.Rooms.StateCache
import Wbfuwunel.Rooms.Timeline

/-! Membership events and the tables they leave: `state_cache/update.rs`.

The servers in a room are kept beside its members and recounted after them.
-/

set_option autoImplicit false

namespace Wbfuwunel.Rooms

open Foundation Database PairTable

structure MembershipServices where
  ensureRemoteUser : UserId → Except Error Unit
  userIsIgnored : UserId → UserId → Bool
  copyPredecessorData : RoomId → UserId → Except Error Unit
  forgetsUponLeave : RoomId → UserId → Bool

structure MembershipUpdate where
  roomId : RoomId
  userId : UserId
  membership : MembershipState
  sender : UserId
  lastState : Option Bytes := none
  updateJoinedCount : Bool
  count : UInt64

namespace StateCache

variable (services : MembershipServices) (cache : StateCache) (room : RoomId)

def handleJoin (user : UserId) (count : UInt64) : Except Error Unit × StateCache :=
  if cache.onceJoined user room then (.ok (), cache.markAsJoined user room count)
  else
    match services.copyPredecessorData room user with
    -- The once-joined row is written before the predecessor's data are copied.
    | .error error => (.error error, cache.markAsOnceJoined user room)
    | .ok () => (.ok (), (cache.markAsOnceJoined user room).markAsJoined user room count)

def handleLeave (user : UserId) (count : UInt64) : StateCache :=
  if services.forgetsUponLeave room user then (cache.markAsLeft user room count).forget room user
  else cache.markAsLeft user room count

/-- The tables after the membership's own arm, and whether the update goes on to the recount. -/
def enterMembership (update : MembershipUpdate) : Except Error Bool × StateCache :=
  match update.membership with
  | .join =>
    match cache.handleJoin services update.roomId update.userId update.count with
    | (.error error, cache) => (.error error, cache)
    | (.ok (), cache) => (.ok true, cache)
  | .invite =>
    -- The update returns at once, without the recount.
    if services.userIsIgnored update.sender update.userId then (.ok false, cache)
    else (.ok true, cache.markAsInvited update.userId update.roomId update.count (update.lastState.getD (utf8 "[]")))
  | .leave | .ban => (.ok true, cache.handleLeave services update.roomId update.userId update.count)
  | .knock => (.ok true, cache.markAsKnocked update.userId update.roomId update.count (update.lastState.getD (utf8 "[]")))
  | .custom _ => (.ok true, cache)

def updateMembership (update : MembershipUpdate) : Except Error Unit × StateCache :=
  match services.ensureRemoteUser update.userId with
  | .error error => (.error error, cache)
  | .ok () =>
    match cache.enterMembership services update with
    | (.error error, cache) => (.error error, cache)
    | (.ok false, cache) => (.ok (), cache)
    | (.ok true, cache) => (.ok (), if update.updateJoinedCount then cache.updateJoinedCount update.roomId else cache)

/-! ## Members and their servers -/

def hasMember (user : UserId) : Bool := (cache.roomuserid .joined).contains room user

variable {cache : StateCache}

theorem mem_joinedServers (cache : StateCache) (room : RoomId) (v : String) :
    v ∈ ((cache.roomMembers room).map serverName).dedup ↔ ∃ u, cache.hasMember room u ∧ serverName u = v := by
  rw [List.mem_dedup, List.mem_map]
  simp only [roomMembers, mem_keysPrefix, hasMember]

theorem serverInRoom_updateJoinedCount (cache : StateCache) (room other : RoomId) (v : String)
    (mirrored : cache.roomserverids.contains room v = cache.serverroomids.contains v room) :
    (cache.updateJoinedCount room).serverInRoom v other ↔
      if other = room then ∃ u, cache.hasMember room u ∧ serverName u = v
      else cache.serverInRoom v other := by
  have ls : v ∈ cache.roomServers room ↔ cache.serverroomids.contains v room := by
    rw [roomServers, mem_keysPrefix, mirrored]
  have paired : ∀ servers : List String, (v, other) ∈ servers.map (fun name => (name, room)) ↔
      other = room ∧ v ∈ servers := by
    intro servers
    aesop
  simp only [← cache.mem_joinedServers room v, updateJoinedCount, serverInRoom, contains_insertAll,
    contains_delAll, paired, Bool.or_eq_true, Bool.and_eq_true, Bool.not_eq_true', decide_eq_true_eq,
    decide_eq_false_iff_not, List.mem_filter]
  split
  next eq =>
    rw [eq]
    tauto
  · tauto

theorem mirrored_updateJoinedCount (room : RoomId)
    (mirrored : ∀ room v, cache.roomserverids.contains room v = cache.serverroomids.contains v room)
    (o : RoomId) (v : String) : (cache.updateJoinedCount room).roomserverids.contains o v =
      (cache.updateJoinedCount room).serverroomids.contains v o := by
  have swapped : ∀ servers : List String, (o, v) ∈ servers.map (fun name => (room, name)) ↔
      (v, o) ∈ servers.map (fun name => (name, room)) := by
    intro servers
    simp only [List.mem_map, Prod.mk.injEq, and_comm]
  simp only [updateJoinedCount, contains_insertAll, contains_delAll, mirrored, swapped]

/-! ## The recount in one pass over the old rows -/

/-- `roomid_joinedcount`, `roomid_invitedcount` and `roomid_knockedcount`; those who left are not counted. A room's rows
are fewer than the `u64` at which the source's counters stop. -/
abbrev MemberCounts := Membership → RoomId → Option Nat

/-- One old row: a server that is still there leaves the set, another is gone. -/
def passServer (passed : List String × List String) (old : String) : List String × List String :=
  if old ∈ passed.1 then (passed.1.erase old, passed.2) else (passed.1, passed.2 ++ [old])

/-- `update_joined_count`: the counts, and the servers that are new and gone in one pass over the old rows. -/
def recount (counts : MemberCounts) (cache : StateCache) (room : RoomId) : MemberCounts × StateCache :=
  let joinedServers := ((cache.roomMembers room).map serverName).dedup
  let passed := (cache.roomServers room).foldl passServer (joinedServers, [])
  (fun table other => if other = room ∧ table ≠ .left then some ((cache.roomuserid table).keysPrefix room).length
    else counts table other,
  { cache with
    roomserverids := (cache.roomserverids.delAll (passed.2.map fun server => (room, server))).insertAll
      (passed.1.map fun server => (room, server))
    serverroomids := (cache.serverroomids.delAll (passed.2.map fun server => (server, room))).insertAll
      (passed.1.map fun server => (server, room)) })

/-- What is left of the set and what was found gone, from any point of the pass on. -/
theorem foldl_passServer {old : List String} (distinct : old.Nodup) (servers gone : List String) (set : servers.Nodup) :
    old.foldl passServer (servers, gone) = (servers.filter (· ∉ old), gone ++ old.filter (· ∉ servers)) := by
  induction old generalizing servers gone with
  | nil => simp
  | cons v old ih =>
    obtain ⟨fresh, distinct⟩ := List.nodup_cons.mp distinct
    rw [List.foldl_cons, passServer]
    split
    next mem =>
      rw [ih distinct _ _ (set.erase v), set.erase_eq_filter, List.filter_filter,
        List.filter_cons_of_neg (by simpa using mem)]
      refine Prod.ext (List.filter_congr fun o _ => ?_) (congrArg (gone ++ ·) (List.filter_congr fun o later => ?_))
      · simp [Bool.and_comm, bne, beq_eq_decide]
      · have ne : o ≠ v := fun eq => fresh (eq ▸ later)
        simp [ne]
    next out =>
      rw [ih distinct _ _ set, List.filter_cons_of_pos (by simpa using out), List.append_assoc]
      refine Prod.ext (List.filter_congr fun o mem => ?_) rfl
      have ne : o ≠ v := fun eq => out (eq ▸ mem)
      simp [ne]

theorem recount_eq (counts : MemberCounts) (cache : StateCache) (room : RoomId) :
    (cache.recount counts room).2 = cache.updateJoinedCount room := by
  have distinct : (cache.roomServers room).Nodup := nodup_keysPrefix
  simp only [recount, updateJoinedCount, foldl_passServer distinct _ _ (List.nodup_dedup _), List.nil_append]

/-- After the recount the servers of the room are those of its members, in both tables, the counts are the numbers of its
users, and no row of another room has changed. -/
theorem recount_exact (counts : MemberCounts)
    (mirrored : ∀ room server, cache.roomserverids.contains room server = cache.serverroomids.contains server room)
    (room : RoomId) :
    let recounted := cache.recount counts room
    (∀ server, (recounted.2.roomserverids.contains room server ↔ ∃ u, cache.hasMember room u ∧ serverName u = server) ∧
      recounted.2.serverroomids.contains server room = recounted.2.roomserverids.contains room server) ∧
    (∀ table, table ≠ .left → recounted.1 table room = some {u | (cache.roomuserid table).contains room u = true}.ncard) ∧
    ∀ o, o ≠ room → ∀ server, recounted.2.roomserverids.get o server = cache.roomserverids.get o server ∧
      recounted.2.serverroomids.get server o = cache.serverroomids.get server o ∧
      ∀ table, recounted.1 table o = counts table o := by
  intro recounted
  have eq : recounted.2 = cache.updateJoinedCount room := recount_eq counts cache room
  rw [eq]
  refine ⟨fun server => ⟨?_, (mirrored_updateJoinedCount room mirrored room server).symm⟩, fun table counts => ?_,
    fun o ne server => ⟨?_, ?_, fun table => if_neg fun own => ne own.1⟩⟩
  · have ok := cache.serverInRoom_updateJoinedCount room room server (mirrored room server)
    rw [if_pos rfl] at ok
    rw [mirrored_updateJoinedCount room mirrored]
    exact ok
  · have ls : {u | (cache.roomuserid table).contains room u = true} =
        (((cache.roomuserid table).keysPrefix room).toFinset : Set UserId) := by
      ext u
      simp [mem_keysPrefix]
    rw [ls, Set.ncard_coe_finset, List.toFinset_card_of_nodup nodup_keysPrefix]
    exact if_pos ⟨rfl, counts⟩
  · rw [updateJoinedCount, get_insertAll_of_not_mem _ _ _ (by simp [ne.symm]),
      get_delAll_of_not_mem _ _ _ (by simp [ne.symm])]
  · rw [updateJoinedCount, get_insertAll_of_not_mem _ _ _ (by simp [ne.symm]),
      get_delAll_of_not_mem _ _ _ (by simp [ne.symm])]

/-- One server stays in the room, one goes with its only member, and one is new. -/
theorem recount_exact_of_moved :
    let old := ((empty.markAsJoined "@a:x" "!r:x" 1).markAsJoined "@b:y" "!r:x" 2).updateJoinedCount "!r:x"
    let cache := (old.markAsLeft "@b:y" "!r:x" 3).markAsJoined "@c:z" "!r:x" 4
    let recounted := (cache.recount (fun _ _ => none) "!r:x").2
    cache.roomServers "!r:x" = ["x", "y"] ∧ recounted.roomserverids.contains "!r:x" "x" ∧
      recounted.serverroomids.contains "y" "!r:x" = false ∧ recounted.roomserverids.contains "!r:x" "z" := by
  intro old cache recounted
  have mirrored (room : RoomId) (server : String) :
      cache.roomserverids.contains room server = cache.serverroomids.contains server room :=
    mirrored_updateJoinedCount "!r:x" (fun _ _ => rfl) room server
  have servers := (recount_exact (fun _ _ => none) mirrored "!r:x").1
  refine ⟨by decide +kernel, (servers "x").1.mpr ⟨"@a:x", by decide +kernel, by decide +kernel⟩, ?_,
    (servers "z").1.mpr ⟨"@c:z", by decide +kernel, by decide +kernel⟩⟩
  rw [(servers "y").2]
  decide +kernel

end StateCache

end Wbfuwunel.Rooms
