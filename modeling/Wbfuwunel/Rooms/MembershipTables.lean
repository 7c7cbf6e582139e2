import Wbfuwunel.Rooms.MembershipRuns

/-! The eight membership tables over every sequence of changes: nobody is in two states of one room, and the tables by
user and by room say the same. -/

set_option autoImplicit false

namespace Wbfuwunel.Rooms

open Foundation Database PairTable

namespace StateCache

def Change.room : Change → RoomId
  | markAsJoined _ room _ | markAsLeft _ room _ | markAsKnocked _ room _ _ | markAsInvited _ room _ _ | forget room _ => room

def Change.entered : Change → Option Membership
  | markAsJoined .. => some .joined
  | markAsLeft .. => some .left
  | markAsKnocked .. => some .knocked
  | markAsInvited .. => some .invited
  | forget .. => none

def Change.leaves (change : Change) (table : Membership) (before : Bool) : Bool :=
  match change.entered with
  | some membership => table = membership
  | none => before && table ≠ .left

variable (cache : StateCache) (change : Change) (table : Membership) {user : UserId} {room : RoomId}

theorem get_apply_of_other (ne : ¬(user = change.user ∧ room = change.room)) :
    ((cache.apply change).userroomid table).get user room = (cache.userroomid table).get user room ∧
      ((cache.apply change).roomuserid table).get room user = (cache.roomuserid table).get room user := by
  have swapped : ¬(room = change.room ∧ user = change.user) := fun eq => ne eq.symm
  cases change <;> simp only [Change.user, Change.room] at ne swapped <;>
    simp only [apply, markAsJoined, markAsLeft, markAsKnocked, markAsInvited, enter, forget] <;>
    split <;> simp [get_insert, get_del, ne, swapped]

theorem contains_apply_self : ((cache.apply change).userroomid table).contains change.user change.room =
        change.leaves table ((cache.userroomid table).contains change.user change.room) ∧
      ((cache.apply change).roomuserid table).contains change.room change.user =
        change.leaves table ((cache.roomuserid table).contains change.room change.user) := by
  cases change <;>
    simp only [apply, markAsJoined, markAsLeft, markAsKnocked, markAsInvited, enter, forget, Change.leaves, Change.entered,
      Change.user, Change.room] <;>
    split <;> simp_all

theorem contains_apply (user : UserId) (room : RoomId) : ((cache.apply change).userroomid table).contains user room =
        (if user = change.user ∧ room = change.room then change.leaves table ((cache.userroomid table).contains user room)
        else (cache.userroomid table).contains user room) ∧
      ((cache.apply change).roomuserid table).contains room user =
        (if user = change.user ∧ room = change.room then change.leaves table ((cache.roomuserid table).contains room user)
        else (cache.roomuserid table).contains room user) := by
  split_ifs with own
  · obtain ⟨rfl, rfl⟩ := own
    exact cache.contains_apply_self change table
  · obtain ⟨byUser, byRoom⟩ := cache.get_apply_of_other change table own
    simp only [contains, byUser, byRoom, and_self]

structure Sorted (cache : StateCache) : Prop where
  exclusive : ∀ user room first second, (cache.userroomid first).contains user room →
    (cache.userroomid second).contains user room → first = second
  mirrored : ∀ membership user room,
    (cache.userroomid membership).contains user room = (cache.roomuserid membership).contains room user

theorem sorted_empty : empty.Sorted where
  exclusive user room a b has := by simp [empty] at has
  mirrored _ _ _ := rfl

theorem Change.leaves_exclusive {change : Change} {a b : Membership} {old after : Bool}
    (held : change.entered = none → old → after → a = b)
    (one : change.leaves a old) (two : change.leaves b after) : a = b := by
  unfold Change.leaves at one two
  cases entered : change.entered with
  | some m =>
    simp only [entered, decide_eq_true_eq] at one two
    exact one.trans two.symm
  | none =>
    simp only [entered, Bool.and_eq_true] at one two
    exact held entered one.1 two.1

theorem Sorted.apply {cache : StateCache} (ord : cache.Sorted) (change : Change) : (cache.apply change).Sorted where
  exclusive user room a b one two := by
    rw [(cache.contains_apply change _ user room).1] at one two
    split_ifs at one two
    · exact Change.leaves_exclusive (fun _ => ord.exclusive user room a b) one two
    · exact ord.exclusive user room a b one two
  mirrored m user room := by
    rw [(cache.contains_apply change _ user room).1, (cache.contains_apply change _ user room).2, ord.mirrored]

/-- After every sequence of changes: at most one membership of each user in each room, each table with its mirror, and
the next change leaves the rows of every other pair as they are. -/
theorem memberships_hold (changes : List Change) : let cache := run apply empty changes
    (∀ user room a b, (cache.userroomid a).contains user room → (cache.userroomid b).contains user room → a = b) ∧
      (∀ m user room, (cache.userroomid m).contains user room = (cache.roomuserid m).contains room user) ∧
      ∀ change m user room, ¬(user = change.user ∧ room = change.room) →
        ((cache.apply change).userroomid m).get user room = (cache.userroomid m).get user room ∧
          ((cache.apply change).roomuserid m).get room user = (cache.roomuserid m).get room user := by
  intro cache
  have always : Admits apply (fun _ _ => True) empty changes := admits_of_forall fun _ _ _ => trivial
  have throughout : Along apply Sorted empty changes :=
    along_of_keeps (fun _ change ord _ => Sorted.apply ord change) sorted_empty always
  have ord : cache.Sorted := throughout.last
  exact ⟨ord.exclusive, ord.mirrored, fun change m _ _ => cache.get_apply_of_other change m⟩

/-! ## Membership events -/

def entersMembership (services : MembershipServices) (cache : StateCache) (update : MembershipUpdate) : Option Membership :=
  match services.ensureRemoteUser update.userId, update.membership with
  | .error _, _ | .ok (), .custom _ => none
  | .ok (), .join =>
    match cache.onceJoined update.userId update.roomId, services.copyPredecessorData update.roomId update.userId with
    | false, .error _ => none
    | true, _ | false, .ok () => some .joined
  | .ok (), .invite => if services.userIsIgnored update.sender update.userId then none else some .invited
  | .ok (), .leave | .ok (), .ban => some .left
  | .ok (), .knock => some .knocked

structure SameTables (cache other : StateCache) : Prop where
  userroomid : other.userroomid = cache.userroomid
  roomuserid : other.roomuserid = cache.roomuserid

theorem Sorted.sameTables {cache o : StateCache} (ord : cache.Sorted) (eq : cache.SameTables o) : o.Sorted where
  exclusive := by
    rw [eq.userroomid]
    exact ord.exclusive
  mirrored := by
    rw [eq.userroomid, eq.roomuserid]
    exact ord.mirrored

/-- To the tables an update is at most two changes: one that enters, and one that forgets what a leave entered. -/
def changesOf (services : MembershipServices) (cache : StateCache) (update : MembershipUpdate) : List Change :=
  match cache.entersMembership services update with
  | none => []
  | some .joined => [.markAsJoined update.userId update.roomId update.count]
  | some .invited => [.markAsInvited update.userId update.roomId update.count (update.lastState.getD (utf8 "[]"))]
  | some .knocked => [.markAsKnocked update.userId update.roomId update.count (update.lastState.getD (utf8 "[]"))]
  | some .left => .markAsLeft update.userId update.roomId update.count ::
    if services.forgetsUponLeave update.roomId update.userId then [.forget update.roomId update.userId] else []

variable (services : MembershipServices) (update : MembershipUpdate)

def tableOf : MembershipState → Option Membership
  | .join => some .joined
  | .invite => some .invited
  | .leave | .ban => some .left
  | .knock => some .knocked
  | .custom _ => none

/-- An update that goes on enters its own table; one that returns early, by a failed join or an ignored invite, none. -/
theorem entersMembership_cases (ensured : services.ensureRemoteUser update.userId = .ok ()) :
    ((cache.enterMembership services update).1 = .ok true →
        cache.entersMembership services update = tableOf update.membership) ∧
      ((cache.enterMembership services update).1 ≠ .ok true → cache.entersMembership services update = none) := by
  unfold entersMembership enterMembership
  rw [ensured]
  cases update.membership with
  | join =>
    simp only [handleJoin]
    cases cache.onceJoined update.userId update.roomId <;>
      cases services.copyPredecessorData update.roomId update.userId <;> simp [tableOf]
  | invite => cases services.userIsIgnored update.sender update.userId <;> simp [tableOf]
  | leave | ban | knock | custom => simp [tableOf]

theorem tables_enterMembership (ensured : services.ensureRemoteUser update.userId = .ok ()) :
    (run apply cache (cache.changesOf services update)).SameTables (cache.enterMembership services update).2 ∧
      (cache.enterMembership services update).2.roomserverids = cache.roomserverids ∧
      (cache.enterMembership services update).2.serverroomids = cache.serverroomids := by
  unfold changesOf entersMembership enterMembership
  rw [ensured]
  cases update.membership with
  | join =>
    simp only [handleJoin]
    cases cache.onceJoined update.userId update.roomId with
    | true => exact ⟨⟨rfl, rfl⟩, rfl, rfl⟩
    | false => cases services.copyPredecessorData update.roomId update.userId <;> exact ⟨⟨rfl, rfl⟩, rfl, rfl⟩
  | invite => cases services.userIsIgnored update.sender update.userId <;> exact ⟨⟨rfl, rfl⟩, rfl, rfl⟩
  | leave | ban =>
    simp only [handleLeave]
    cases services.forgetsUponLeave update.roomId update.userId <;> exact ⟨⟨rfl, rfl⟩, rfl, rfl⟩
  | knock | custom => exact ⟨⟨rfl, rfl⟩, rfl, rfl⟩

theorem sameTables_updateMembership :
    (run apply cache (cache.changesOf services update)).SameTables (cache.updateMembership services update).2 := by
  unfold updateMembership
  cases ensured : services.ensureRemoteUser update.userId with
  | error error => simp [changesOf, entersMembership, ensured, SameTables.mk]
  | ok done =>
    have eq := (tables_enterMembership cache services update ensured).1
    simp only
    split <;> rename_i entered <;> rw [entered] at eq
    · exact eq
    · exact eq
    · -- the recount is about servers
      split_ifs <;> exact ⟨eq.userroomid, eq.roomuserid⟩

theorem Sorted.run {cache : StateCache} (ord : cache.Sorted) (changes : List Change) :
    (Foundation.run StateCache.apply cache changes).Sorted := by
  have always : Admits StateCache.apply (fun _ _ => True) cache changes := admits_of_forall fun _ _ _ => trivial
  have throughout : Along StateCache.apply Sorted cache changes :=
    along_of_keeps (fun _ change ord _ => Sorted.apply ord change) ord always
  exact throughout.last

/-- What a change makes of a membership. Only one that was left is forgotten. -/
def Change.becomes (change : Change) (before : Option Membership) : Option Membership :=
  match change.entered with
  | some membership => some membership
  | none => if before = some .left then none else before

def membershipAfter (user : UserId) (room : RoomId) (before : Option Membership) (changes : List Change) : Option Membership :=
  changes.foldl (fun before change => if user = change.user ∧ room = change.room then change.becomes before else before) before

theorem Change.leaves_eq (change : Change) (before : Option Membership) (table : Membership) :
    change.leaves table (decide (before = some table)) = decide (change.becomes before = some table) := by
  unfold Change.leaves Change.becomes
  cases change.entered <;> grind

theorem contains_run {cache : StateCache} {before : Option Membership} {user : UserId} {room : RoomId}
    (agrees : ∀ table, (cache.userroomid table).contains user room = decide (before = some table)) (changes : List Change)
    (table : Membership) : ((run apply cache changes).userroomid table).contains user room =
      decide (membershipAfter user room before changes = some table) := by
  induction changes generalizing cache before with
  | nil => exact agrees table
  | cons change changes ih =>
    refine ih fun table => ?_
    rw [(cache.contains_apply change table user room).1, agrees, Change.leaves_eq]
    dsimp only
    split <;> rfl

/-- The eight tables are one membership of each user in each room, what the changes of that pair make of none. -/
theorem tables_refine_membership (changes : List Change) (user : UserId) (room : RoomId) (table : Membership) :
    let cache := run apply empty changes
    ((cache.userroomid table).contains user room ↔ membershipAfter user room none changes = some table) ∧
      ((cache.roomuserid table).contains room user ↔ membershipAfter user room none changes = some table) := by
  intro cache
  have byUser := @contains_run empty none user room (fun _ => rfl) changes table
  rw [← (sorted_empty.run changes).mirrored table user room, byUser, decide_eq_true_eq]
  exact ⟨Iff.rfl, Iff.rfl⟩

theorem Sorted.updateMembership {cache : StateCache} (ord : cache.Sorted) :
    (cache.updateMembership services update).2.Sorted :=
  (ord.run _).sameTables (sameTables_updateMembership cache services update)

theorem isJoined_updateMembership (user : UserId) (room : RoomId) :
    (cache.updateMembership services update).2.isJoined user room = if user = update.userId ∧ room = update.roomId then
        match cache.entersMembership services update with
        | some m => decide (m = .joined)
        | none => cache.isJoined user room
      else cache.isJoined user room := by
  rw [isJoined, (sameTables_updateMembership cache services update).userroomid, changesOf]
  cases cache.entersMembership services update with
  | none => simp [isJoined]
  | some m =>
    cases m with
    | joined | invited | knocked =>
      simp [(contains_apply _ _ _ _ _).1, Change.user, Change.room, Change.leaves, Change.entered, isJoined]
    | left =>
      -- what a forced forget takes away is not the joined row
      cases services.forgetsUponLeave update.roomId update.userId <;> by_cases own : user = update.userId ∧ room = update.roomId <;>
        simp [(contains_apply _ _ _ _ _).1, Change.user, Change.room, Change.leaves, Change.entered, isJoined]

/-! ## Room deletions -/

section Deletions

variable (userIsLocal : UserId → Bool) (target : RoomId) (force : Bool)

def deletes (user : UserId) (room : RoomId) : Bool :=
  decide (room = target) && (cache.roomuserid table).contains room user && (table ≠ .left || force || !userIsLocal user)

theorem mem_listed (user : UserId) (room : RoomId) :
    (room = target ∧ user ∈ ((cache.roomuserid table).keysPrefix target).filter fun user =>
      table ≠ .left || force || !userIsLocal user) ↔ cache.deletes table userIsLocal target force user room := by
  simp only [deletes, List.mem_filter, mem_keysPrefix, Bool.and_eq_true, decide_eq_true_eq]
  constructor
  · rintro ⟨rfl, mem, goes⟩
    exact ⟨⟨rfl, mem⟩, goes⟩
  · rintro ⟨⟨rfl, mem⟩, goes⟩
    exact ⟨rfl, mem, goes⟩

theorem contains_deleteRoomJoinCounts (user : UserId) (room : RoomId) :
    ((cache.deleteRoomJoinCounts userIsLocal target force).userroomid table).contains user room =
        (!cache.deletes table userIsLocal target force user room && (cache.userroomid table).contains user room) ∧
      ((cache.deleteRoomJoinCounts userIsLocal target force).roomuserid table).contains room user =
        (!cache.deletes table userIsLocal target force user room && (cache.roomuserid table).contains room user) := by
  have paired (ls : List UserId) : (user, room) ∈ ls.map (fun user => (user, target)) ↔ room = target ∧ user ∈ ls := by
    aesop
  have swapped (ls : List UserId) : (room, user) ∈ ls.map (fun user => (target, user)) ↔ room = target ∧ user ∈ ls := by
    aesop
  simp only [deleteRoomJoinCounts, contains_delAll, paired, swapped, mem_listed, Bool.decide_eq_true, and_self]

theorem Sorted.deleteRoomJoinCounts {cache : StateCache} (ord : cache.Sorted) :
    (cache.deleteRoomJoinCounts userIsLocal target force).Sorted where
  exclusive user room a b one two := by
    rw [(contains_deleteRoomJoinCounts ..).1, Bool.and_eq_true] at one two
    exact ord.exclusive user room a b one.2 two.2
  mirrored m user room := by
    rw [(contains_deleteRoomJoinCounts ..).1, (contains_deleteRoomJoinCounts ..).2, ord.mirrored]

theorem Sorted.isJoined_deleteRoomJoinCounts {cache : StateCache} (ord : cache.Sorted) (user : UserId) (room : RoomId) :
    (cache.deleteRoomJoinCounts userIsLocal target force).isJoined user room =
      (decide (room ≠ target) && cache.isJoined user room) := by
  rw [isJoined, (contains_deleteRoomJoinCounts ..).1, deletes, ← ord.mirrored, ← isJoined]
  by_cases eq : room = target <;> cases cache.isJoined user room <;> simp [eq]

end Deletions

end StateCache

end Wbfuwunel.Rooms
