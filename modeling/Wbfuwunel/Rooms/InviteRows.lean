import Wbfuwunel.Rooms.MembershipTables

/-! The rows of a user's pending invites, and what the changes to the membership tables do to them. -/

set_option autoImplicit false

namespace Wbfuwunel.Rooms
open Foundation Database PairTable

namespace StateCache

variable {c : StateCache} {u : UserId} {r : RoomId}

/-! ## Reading -/

theorem Sorted.isSome_getInviteCount (ord : c.Sorted) : (c.getInviteCount u r).isSome = c.isInvited u r := by
  rw [isInvited, ord.mirrored, getInviteCount, Option.isSome_map]
  rfl

theorem mem_roomsInvited (invited : c.isInvited u r) : r ∈ c.roomsInvited u :=
  mem_seconds.mpr ⟨u, invited, utf8_begins_pairKey.mpr List.prefix_rfl⟩

/-! ## Writing -/

theorem getInviteCount_enter (m : Membership) (v : Bytes) (n : UInt64) (owner : UserId) (t : RoomId) :
    (c.enter m owner t v n).getInviteCount u r = if u = owner ∧ r = t then if m = .invited then some n else none
      else c.getInviteCount u r := by
  have swapped : r = t ∧ u = owner ↔ u = owner ∧ r = t := and_comm
  by_cases invites : m = .invited
  · simp only [getInviteCount, enter, invites, if_pos, get_insert, swapped]
    split <;> simp
  · simp only [getInviteCount, enter, if_neg (Ne.symm invites), get_del, swapped]
    split <;> simp

theorem getInviteCount_forget (owner : UserId) (t : RoomId) :
    (c.forget t owner).getInviteCount u r = c.getInviteCount u r := rfl

theorem getInviteCount_deleteRoomJoinCounts (userIsLocal : UserId → Bool) {t : RoomId} (force : Bool)
    (absent : c.getInviteCount u t = none) :
    (c.deleteRoomJoinCounts userIsLocal t force).getInviteCount u r = c.getInviteCount u r := by
  simp only [getInviteCount, deleteRoomJoinCounts]
  rw [get_delAll_of_not_mem]
  intro mem
  obtain ⟨member, ls, same⟩ := List.mem_map.mp mem
  obtain ⟨rfl, rfl⟩ := Prod.mk.inj same
  -- The scan by room would have found the user's own row.
  have row := mem_keysPrefix.mp (List.mem_filter.mp ls).1
  simp only [getInviteCount, Option.map_eq_none_iff] at absent
  simp [contains, absent] at row

/-! ## Membership events -/

def isInviteEndedBy : MembershipState → Bool
  | .join | .leave | .ban | .knock => true
  | .invite | .custom _ => false

section Updates

variable (services : MembershipServices) {update : MembershipUpdate}
  (ensured : services.ensureRemoteUser update.userId = .ok ())
include ensured

theorem getInviteCount_enterMembership : (c.enterMembership services update).2.getInviteCount u r =
    if u = update.userId ∧ r = update.roomId then
      match c.entersMembership services update with
      | some m => if m = .invited then some update.count else none
      | none => c.getInviteCount u r
    else c.getInviteCount u r := by
  rw [getInviteCount, (tables_enterMembership c services update ensured).1.roomuserid, ← getInviteCount, changesOf]
  cases c.entersMembership services update with
  | none => simp
  | some m =>
    cases m with
    | joined | invited | knocked => exact getInviteCount_enter ..
    | left =>
      cases services.forgetsUponLeave update.roomId update.userId with
      | true => exact (getInviteCount_forget ..).trans (getInviteCount_enter ..)
      | false => exact getInviteCount_enter ..

theorem getInviteCount_of_goesOn (goesOn : (c.enterMembership services update).1 = .ok true) :
    (c.enterMembership services update).2.getInviteCount u r = if u = update.userId ∧ r = update.roomId then
        if update.membership = .invite then some update.count
        else if isInviteEndedBy update.membership then none
        else c.getInviteCount u r
      else c.getInviteCount u r := by
  rw [getInviteCount_enterMembership services ensured, (entersMembership_cases c services update ensured).1 goesOn]
  cases update.membership <;> rfl

theorem getInviteCount_of_endsEarly (early : (c.enterMembership services update).1 ≠ .ok true) :
    (c.enterMembership services update).2.getInviteCount u r = c.getInviteCount u r := by
  rw [getInviteCount_enterMembership services ensured, (entersMembership_cases c services update ensured).2 early]
  simp

theorem Sorted.enterMembership (ord : c.Sorted) : (c.enterMembership services update).2.Sorted :=
  (ord.run _).sameTables (tables_enterMembership c services update ensured).1

end Updates

end StateCache
end Wbfuwunel.Rooms
