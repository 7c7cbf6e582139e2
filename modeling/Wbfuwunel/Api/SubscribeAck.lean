import Wbfuwunel.Api.RecentRuns
import Wbfuwunel.Streams.RoomChannels

/-! What a `Subscribe` acknowledges: `handle_subscribe` of `api/client/wbf/subscribe.rs`, up to its `Ack`.

The user's memberships are asked for twice, before the connection enters the channels and after it. A room left in between
is taken off the number of rooms entered, whether it is one of these or was entered before.
-/

set_option autoImplicit false

namespace Wbfuwunel.Api

open Foundation Rooms Streams List Registry RoomTopic

variable {Queue : Type}

/-- The request, and what its user's memberships are like while it is handled: the rooms they are in at the first check,
and those they leave before the connection is registered and after it. What `rooms_joined` lists is read by the raw id of
the user, so it may have rooms of users whose ids begin with this one, and a room twice. -/
structure SubscribeCall (Queue : Type) where
  connection : ConnectionId
  user : UserId
  queue : Queue
  id : UInt64
  named : Option (List RoomId)
  joinedRooms : List RoomId
  listed : List RoomId
  leftBefore : List RoomId
  leftAfter : List RoomId

structure SubscribeAck where
  joined : Nat
  skipped : List RoomId
  deriving DecidableEq

namespace SubscribeCall

variable (call : SubscribeCall Queue) (channels : RoomChannels Queue)

def rooms : List RoomId :=
  call.named.elim call.listed fun named => (once named).filter (· ∈ call.joinedRooms)

def listRoomsNoLongerJoined : List RoomId :=
  call.rooms.filter fun room => room ∉ call.joinedRooms ∨ room ∈ call.leftBefore ∨ room ∈ call.leftAfter

/-- The channels when the connection is registered: each leave has turned the user out of its room. -/
def found : RoomChannels Queue := call.leftBefore.foldl (fun channels room => channels.evict call.user room) channels

/-- The channels when the memberships are asked for again; nothing for a session that has ended. -/
def registered : RoomChannels Queue × Option Nat :=
  let (channels, entered) := (call.found channels).subscribe call.connection call.user call.queue call.id call.rooms
    call.named.isNone
  (call.leftAfter.foldl (fun channels room => channels.evict call.user room) channels, entered)

def handleSubscribe : RoomChannels Queue × Option SubscribeAck :=
  let (channels, entered) := call.registered channels
  (channels.unsubscribe call.connection call.listRoomsNoLongerJoined, entered.map fun entered => {
    joined := entered - call.listRoomsNoLongerJoined.length
    skipped := call.named.elim [] (fun named => (once named).filter (· ∉ call.joinedRooms)) ++ call.listRoomsNoLongerJoined })

/-- The rooms whose channels the request enters anew. -/
def entered : Finset RoomId := call.rooms.toFinset.filter fun room =>
  call.connection ∉ ((call.found channels).startOver call.connection call.user).topics.members (.room room)

/-- Those of them that the connection is in at the end. -/
def kept : Finset RoomId := (call.entered channels).filter fun room =>
  call.connection ∈ (call.handleSubscribe channels).1.topics.members (.room room)

end SubscribeCall

/-! ## The rooms entered -/

theorem entered_topics {Topic User : Type} [DecidableEq Topic] (conn : ConnectionId) (topics : List Topic)
    (s : Registry Topic User Queue × Entered Topic Queue) :
    ∃ entered, (topics.foldl (enterTopic .many conn) s).2.topics = s.2.topics ++ entered ∧
      entered.Nodup ∧ ∀ topic, topic ∈ entered ↔ topic ∈ topics ∧ conn ∉ s.1.topics.members topic := by
  induction topics generalizing s with
  | nil => exact ⟨[], by simp⟩
  | cons a topics ih =>
    obtain ⟨entered, eq, distinct, mem_iff⟩ := ih (enterTopic .many conn s a)
    rw [foldl_cons, eq]
    simp only [enterTopic, makeRoom, Index.mem_add] at mem_iff ⊢
    by_cases mem : conn ∈ s.1.topics.members a
    · refine ⟨entered, by simp [mem], distinct, fun topic => ?_⟩
      rw [mem_iff]
      by_cases own : topic = a <;> simp [own, mem]
    · refine ⟨a :: entered, by simp [mem], nodup_cons.mpr ⟨by simp [mem_iff], distinct⟩, fun topic => ?_⟩
      rw [mem_cons, mem_iff]
      by_cases own : topic = a <;> simp [own, mem]

namespace SubscribeCall

theorem mem_foldl_evict {u : UserId} {rooms : List RoomId} {r : RoomId} (stays : r ∉ rooms)
    (channels : RoomChannels Queue) (conn : ConnectionId) :
    conn ∈ (rooms.foldl (fun channels r => channels.evict u r) channels).topics.members (.room r) ↔
      conn ∈ channels.topics.members (.room r) := by
  induction rooms generalizing channels with
  | nil => rfl
  | cons a rooms ih =>
    rw [mem_cons, not_or] at stays
    rw [foldl_cons, ih stays.2, RoomChannels.evict, (leaveTopicOfUser_moves ..).mem_iff]
    simp [stays.1]

variable {call : SubscribeCall Queue} {channels : RoomChannels Queue}

theorem registered_eq (alive : call.connection ∉ (call.found channels).ended) :
    (call.registered channels).2 = some (call.entered channels).card ∧ ∀ room ∈ call.rooms, room ∉ call.leftAfter →
        call.connection ∈ (call.registered channels).1.topics.members (.room room) := by
  have moves := @Registry.subscribe_moves _ _ _ _ _ (call.found channels) .many call.connection call.user call.queue call.id
    (call.rooms.map .room ++ if call.named.isNone then [.followsJoins call.user] else []) alive
  obtain ⟨entered, eq, distinct, mem_iff⟩ := entered_topics call.connection
    (call.rooms.map .room ++ if call.named.isNone then [.followsJoins call.user] else [])
    (((call.found channels).startOver call.connection call.user).register call.connection call.user call.queue call.id, ⟨[], []⟩)
  constructor
  · have rooms : (entered.filter isRoom).toFinset = (call.entered channels).image .room := by
      ext topic
      rw [mem_toFinset, mem_filter, mem_iff]
      cases topic with
      | room room => simp [SubscribeCall.entered, isRoom, register]
      | followsJoins user => simp [isRoom]
    have card := toFinset_card_of_nodup (distinct.filter isRoom)
    rw [rooms, Finset.card_image_of_injective _ fun _ _ => room.inj, ← countP_eq_length_filter] at card
    simp only [registered, RoomChannels.subscribe, subscribe, if_neg alive, Option.map_some, eq, card]
    simp
  · intro room mem stays
    simp only [registered]
    rw [mem_foldl_evict stays]
    exact (moves.mem_iff _ _).mpr (.inl ⟨by simp [mem], rfl⟩)

theorem joined_eq {ack : SubscribeAck} (handled : (call.handleSubscribe channels).2 = some ack) :
    ack.joined = (call.entered channels).card - call.listRoomsNoLongerJoined.length ∧
      call.kept channels = call.entered channels \ call.listRoomsNoLongerJoined.toFinset := by
  have alive : call.connection ∉ (call.found channels).ended := by
    intro ended
    simp [handleSubscribe, registered, RoomChannels.subscribe, subscribe, ended] at handled
  obtain ⟨n, still⟩ := registered_eq alive
  constructor
  · simp only [handleSubscribe, n, Option.map_some, Option.some.injEq] at handled
    rw [← handled]
  · rw [Finset.sdiff_eq_filter]
    refine Finset.filter_congr fun r inside => ?_
    have mem : r ∈ call.rooms := by simpa using (Finset.mem_filter.mp inside).1
    simp only [handleSubscribe, RoomChannels.unsubscribe]
    rw [(unsubscribe_moves ..).mem_iff]
    simp only [mem_toFinset, mem_map, room.injEq, exists_eq_right, and_true, false_or]
    refine and_iff_right_of_imp fun stays => still r mem fun left => stays ?_
    exact mem_filter.mpr ⟨mem, by simp [left]⟩

theorem card_sub_length_eq_iff (all : Finset RoomId) (taken : List RoomId) :
    all.card - taken.length = (all \ taken.toFinset).card ↔
      taken.Nodup ∧ taken.toFinset ⊆ all ∨ all ⊆ taken.toFinset := by
  have apart := Finset.card_sdiff_add_card_inter all taken.toFinset
  have fewer := taken.toFinset_card_le
  have inside := Finset.card_le_card (@Finset.inter_subset_right _ _ all taken.toFinset)
  constructor
  · intro eq
    rcases (all \ taken.toFinset).eq_empty_or_nonempty with none | some
    · exact .inr (Finset.sdiff_eq_empty_iff_subset.mp none)
    · have positive := some.card_pos
      -- nothing is lost to saturation here, so what was taken is in the intersection, each once
      have whole := Finset.eq_of_subset_of_card_le (@Finset.inter_subset_right _ _ all taken.toFinset) (by omega)
      have single : taken.toFinset.card = taken.length := by omega
      exact .inl ⟨Multiset.coe_nodup.mp (Multiset.toFinset_card_eq_card_iff_nodup.mp single), Finset.inter_eq_right.mp whole⟩
  · rintro (⟨distinct, subset⟩ | subset)
    · rw [Finset.inter_eq_right.mpr subset, toFinset_card_of_nodup distinct] at apart
      omega
    · have more := Finset.card_le_card subset
      rw [Finset.sdiff_eq_empty_iff_subset.mpr subset, Finset.card_empty]
      omega

/-- The number acknowledged is that of the rooms entered anew and kept just if the rooms left meanwhile, each listed once,
are among those entered anew, or all of these were left. -/
theorem subscribe_joined_iff (call : SubscribeCall Queue) (channels : RoomChannels Queue) (ack : SubscribeAck)
    (handled : (call.handleSubscribe channels).2 = some ack) :
    ack.joined = (call.kept channels).card ↔
      (call.listRoomsNoLongerJoined.Nodup ∧ ∀ room ∈ call.listRoomsNoLongerJoined, room ∈ call.entered channels) ∨
        ∀ room ∈ call.entered channels, room ∈ call.listRoomsNoLongerJoined := by
  obtain ⟨joined, kept⟩ := joined_eq handled
  rw [joined, kept, card_sub_length_eq_iff]
  simp only [Finset.subset_iff, mem_toFinset]

/-- Two rooms are named, and the user leaves the first of them once the connection is registered. -/
def leaving : SubscribeCall Unit := ⟨1, "@a:s", (), 7, some ["!a:s", "!b:s"], ["!a:s", "!b:s"], ["!a:s", "!b:s"], [], ["!a:s"]⟩

theorem subscribe_joined_of_first : (leaving.kept .new).card = 1 :=
  ((subscribe_joined_iff leaving .new ⟨1, ["!a:s"]⟩ (by decide +kernel)).mpr (.inl (by decide +kernel))).symm

/-- The connection was in that room before: nothing is acknowledged as joined. -/
theorem subscribe_joined_of_again :
    (leaving.handleSubscribe (RoomChannels.subscribe .new 1 "@a:s" () 7 ["!a:s"] false).1).2 = some ⟨0, ["!a:s"]⟩ ∧
      leaving.kept (RoomChannels.subscribe .new 1 "@a:s" () 7 ["!a:s"] false).1 = {"!b:s"} := by
  decide +kernel

end SubscribeCall

end Wbfuwunel.Api
