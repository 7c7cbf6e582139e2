import Mathlib.Data.Finset.Basic
import Mathlib.Data.List.ReduceOption
import Mathlib.Data.String.Basic
import Wbfuwunel.AccountData.Updates
import Wbfuwunel.Foundation.Checks
import Wbfuwunel.Rooms.Receipts

/-! Room ranges of a sliding sync: `api/client/sync/v5/range.rs`, with the receipts that `rooms/read_receipt` packs.

A range takes what a room has behind its cursor: the payload, the receipts of others and of the reader, and account data.
Any failure withholds the whole range, so that the cursor stays.
-/

set_option autoImplicit false

namespace Wbfuwunel.SlidingSync

open Foundation Database Rooms List Store ReceiptId

inductive Error where
  | notFound
  | database (message : String)
  | json
  deriving DecidableEq, Repr

def Error.isNotFound (error : Error) : Bool := error = .notFound

/-! ## Packing -/

abbrev Receipts := List (ReceiptType × List (UserId × Receipt))

/-- The content of a receipt event; `none` is an event that does not deserialize as one. -/
abbrev RawReceipt := Option (List (EventId × Receipts))

abbrev Packed := Store EventId Receipts

def packContent (json : Packed) (content : List (EventId × Receipts)) : Packed :=
  content.foldl (fun json entry => json.put entry.1 entry.2) json

def packReceiptsFallible (receipts : List RawReceipt) : Except Error Packed :=
  receipts.foldlM (fun json value => value.elim (.error .json) fun content => .ok (packContent json content)) .empty

/-! ## Private read markers -/

/-- A row of a marker table: its thread, its position in the timeline and its time. -/
structure Marker where
  threadKind : String
  count : UInt64
  ts : Option UInt64
  deriving DecidableEq, Repr

/-- What the marker tables answer for the reader in a room while a range is put together. `active` are the readable rows
of the live table, its unthreaded row apart; the version of the announced rows is read before and after them. -/
structure PrivateReads where
  update : Except Error UInt64
  snapshot : Except Error UInt64
  confirmed : Except Error UInt64
  legacy : Option (UInt64 × Option UInt64)
  active : List Marker
  announced : List (Except Error Marker)

/-- What the services answer while the ranges of a user are put together. -/
structure Services where
  senderUser : UserId
  readreceiptidReadreceipt : ReceiptTable
  accountData : AccountData.Tables
  ignoredUsers : Except Error (Option (List UserId))
  privateReads : RoomId → PrivateReads
  shortroomid : RoomId → Option Nat
  pduEventId : PduId → Except Error EventId
  isEventId : String → Bool

variable (services : Services)

def threadKindToReceipt (threadKind : String) : Except Error ReceiptThread :=
  if threadKind = "" then .ok .unthreaded
  else if threadKind = "main" then .ok .main
  else if services.isEventId threadKind then .ok (.thread threadKind)
  else .error (.database "Invalid private receipt thread")

/-- `UInt::new`: the numbers that canonical JSON can hold. -/
def uint (number : UInt64) : Option UInt64 := if (number.toNat : Int) ≤ maxSafeInt then some number else none

variable (shortroomid : Nat)

def buildPrivateReadEventFrom (count : UInt64) (ts : Option UInt64) (user : UserId) (thread : ReceiptThread) :
    Except Error RawReceipt :=
  (services.pduEventId ⟨shortroomid, .normal count.toNat⟩).map fun event =>
    some [(event, [(.readPrivate, [(user, { ts, thread })])])]

def buildPrivateReadEvent (user : UserId) (marker : Marker) : Option RawReceipt :=
  let thread := (threadKindToReceipt services marker.threadKind).toOption.getD .unthreaded
  (buildPrivateReadEventFrom services shortroomid marker.count (marker.ts.bind uint) user thread).toOption

def buildPrivateReadEventFallible (user : UserId) (marker : Marker) : Except Error RawReceipt := do
  let thread ← threadKindToReceipt services marker.threadKind
  let ts ← marker.ts.elim (.ok none) fun ts =>
    (uint ts).elim (.error (.database "Invalid private receipt timestamp")) fun ts => .ok (some ts)
  buildPrivateReadEventFrom services shortroomid marker.count ts user thread

/-- A marker whose event is gone is skipped. -/
def buildPrivateReadEventSkippable (user : UserId) (marker : Marker) : Except Error (Option RawReceipt) :=
  match buildPrivateReadEventFallible services shortroomid user marker with
  | .ok event => .ok (some event)
  | .error error => if error.isNotFound then .ok none else .error error

variable (room : RoomId)

def getShortroomid : Except Error Nat :=
  (services.shortroomid room).elim (.error (.database "Short room ID does not exist in database")) .ok

def privateReadGet : Except Error (List RawReceipt) := do
  let shortroomid ← getShortroomid services room
  let reads := services.privateReads room
  let legacy := reads.legacy.toList.map fun row => { threadKind := "", count := row.1, ts := row.2 }
  return (legacy ++ reads.active).filterMap (buildPrivateReadEvent services shortroomid services.senderUser)

def privateReadGetFallible (update : UInt64) : Except Error (List RawReceipt) := do
  let reads := services.privateReads room
  let snapshot ← reads.snapshot
  -- Markers from before the announced rows were kept apart.
  if snapshot < update then privateReadGet services room
  else if update < snapshot then
    .error (.database "Private read snapshot advanced while assembling a bounded sync range.")
  else
    let shortroomid ← getShortroomid services room
    let events ← reads.announced.mapM fun row =>
      row >>= buildPrivateReadEventSkippable services shortroomid services.senderUser
    let confirmed ← reads.confirmed
    if confirmed ≠ update then
      .error (.database "Private read snapshot changed while assembling a bounded sync range.")
    else return events.reduceOption

/-! ## Ranges -/

inductive Domain where
  | timeline
  | payload
  | publicReceipt
  | privateRead
  | roomAccountData
  | receiptSerialization
  deriving DecidableEq, Repr

structure Failure where
  domain : Domain
  error : Error
  deriving DecidableEq, Repr

/-- `initial` is computed here, the rest of the payload is any text. -/
structure Payload where
  initial : Option Bool
  content : String
  deriving DecidableEq, Repr

structure CompleteRange where
  payload : Option Payload
  configHash : Option UInt64
  receipts : Option Packed
  accountData : List AccountData.Event

def rawReceipt : StoredReceipt → RawReceipt
  | .event event => some event.content
  | .unreadable => none

def readreceiptsSinceFallible (since upper : UInt64) : List (UserId × RawReceipt) :=
  (rowsBetween ReceiptId.bytes ReceiptId.room ReceiptId.count services.readreceiptidReadreceipt room since upper).map
    fun row => (row.1.user, rawReceipt row.2)

variable (nextBatch : UInt64)

def publicReceipts (room : RoomId) (roomsince : UInt64) : Except Error (List RawReceipt) := do
  let receipts := readreceiptsSinceFallible services room roomsince nextBatch
  if receipts.isEmpty then return []
  else
    let ignored ← services.ignoredUsers
    return (receipts.filter fun receipt => ignored.all fun users => receipt.1 ∉ users).map Prod.snd

def privateReceipts (room : RoomId) (roomsince : UInt64) : Except Error (List RawReceipt) := do
  let update ← (services.privateReads room).update
  if update ≤ roomsince then return []
  else if nextBatch < update then .error (.database "Private read advanced beyond the bounded sync range.")
  else privateReadGetFallible services room update

/-- A first range leaves out data that was deleted. -/
def roomAccountData (room : RoomId) (roomsince : UInt64) : List AccountData.Event :=
  (services.accountData.changesSince room services.senderUser roomsince (some nextBatch)).filter fun event =>
    roomsince ≠ 0 || event.content ≠ some "\x7b\x7d"

/-- No event is made of no receipts. -/
def packAny (receipts : List RawReceipt) : Except Failure (Option Packed) :=
  if receipts.isEmpty then .ok none
  else ((packReceiptsFallible receipts).mapError (Failure.mk .receiptSerialization)).map some

def assemble (payload : Option Payload) (publicReceipts privateReceipts : List RawReceipt)
    (accountData : List AccountData.Event) (configHash : UInt64) : Except Failure CompleteRange :=
  (packAny (publicReceipts ++ privateReceipts)).map fun receipts =>
    { payload, configHash := payload.map fun _ => configHash, receipts, accountData }

structure Room where
  roomsince : UInt64
  configHash : UInt64
  deriving DecidableEq, Repr, Inhabited

structure WindowRoom where
  roomId : RoomId
  membership : Option MembershipState
  lists : List String
  eventCount : UInt64
  payloadCount : UInt64
  deriving DecidableEq, Repr

def WindowRoom.payloadIsFresh (room : WindowRoom) (roomsince : UInt64) : Bool :=
  roomsince = 0 || roomsince < room.payloadCount

/-- The timeline limit and the required state. -/
abbrev RoomDetails := Nat × Finset (String × String)

/-- How payloads are made: a hash of the settings, and what `handle_room` loads behind a cursor. -/
structure Payloads where
  roomConfigHash : RoomDetails → UInt64
  load : WindowRoom → UInt64 → UInt64 → RoomDetails → Except Failure String

variable (payloads : Payloads)

variable (nextBatch : UInt64)

def handleRoom (room : WindowRoom) (roomsince : UInt64) (details : RoomDetails) : Except Failure Payload :=
  (payloads.load room roomsince nextBatch details).map fun content =>
    { initial := if roomsince = 0 then some true else none, content }

def freshPayload (window : WindowRoom) (room : Room) (details : RoomDetails) : Except Failure (Option Payload) :=
  if window.payloadIsFresh room.roomsince || room.configHash ≠ payloads.roomConfigHash details then
    (handleRoom payloads nextBatch window room.roomsince details).map some
  else .ok none

def collectRoom (window : WindowRoom) (room : Room) (details : RoomDetails) : Except Failure CompleteRange := do
  let payload ← freshPayload payloads nextBatch window room details
  let publicReceipts ←
    (publicReceipts services nextBatch window.roomId room.roomsince).mapError (Failure.mk .publicReceipt)
  let privateReceipts ←
    (privateReceipts services nextBatch window.roomId room.roomsince).mapError (Failure.mk .privateRead)
  assemble payload publicReceipts privateReceipts (roomAccountData services nextBatch window.roomId room.roomsince)
    (payloads.roomConfigHash details)

/-! ## What packing keeps -/

section Packing

def ReadBy (receipts : Receipts) (type : ReceiptType) (user : UserId) : Prop :=
  ∃ users, (type, users) ∈ receipts ∧ user ∈ users.map Prod.fst

def Mentions (entries : List (EventId × Receipts)) (event : EventId) (type : ReceiptType) (user : UserId) : Prop :=
  ∃ receipts, (event, receipts) ∈ entries ∧ ReadBy receipts type user

def Named (receipts : List RawReceipt) (event : EventId) (type : ReceiptType) (user : UserId) : Prop :=
  ∃ content, some content ∈ receipts ∧ Mentions content event type user

def Packed.Holds (packed : Packed) (event : EventId) (type : ReceiptType) (user : UserId) : Prop :=
  ∃ receipts, packed.find event = some receipts ∧ ReadBy receipts type user

def OnePerEvent (named : EventId → ReceiptType → UserId → Prop) : Prop :=
  ∀ event type user type' user', named event type user → named event type' user' → type = type' ∧ user = user'

def Single (receipts : Receipts) : Prop := ∃ type user receipt, receipts = [(type, [(user, receipt)])]

variable {entries : List (EventId × Receipts)} {receipts : List RawReceipt} {packed : Packed}

theorem readBy_single {type type' : ReceiptType} {u u' : UserId} {receipt : Receipt} :
    ReadBy [(type, [(u, receipt)])] type' u' ↔ type' = type ∧ u' = u := by
  simp [ReadBy]

theorem holds_packContent_iff (single : ∀ x ∈ entries, Single x.2) :
    (∀ e type u, (packContent .empty entries).Holds e type u ↔ Mentions entries e type u) ↔
      OnePerEvent (Mentions entries) := by
  have stands {e : EventId} {found : Receipts} (here : (packContent .empty entries).find e = some found) :
      (e, found) ∈ entries :=
    (mem_or_mem_of_foldl_put (find_eq_some_iff.mp here)).resolve_right not_mem_nil
  constructor
  · intro exact e type u type' u' names names'
    obtain ⟨found, here, reads⟩ := (exact e type u).mpr names
    obtain ⟨found', here', reads'⟩ := (exact e type' u').mpr names'
    obtain rfl := Option.some.inj (here.symm.trans here')
    obtain ⟨_, _, _, rfl⟩ := single _ (stands here)
    rw [readBy_single] at reads reads'
    exact ⟨reads.1.trans reads'.1.symm, reads.2.trans reads'.2.symm⟩
  · rintro one e type u
    constructor
    · rintro ⟨found, here, reads⟩
      exact ⟨found, stands here, reads⟩
    · rintro ⟨named, mem, reads⟩
      obtain ⟨found, here⟩ := Option.isSome_iff_exists.mp
        (isSome_find_foldl_put .empty (mem_map_of_mem (f := Prod.fst) mem))
      obtain ⟨type', u', _, rfl⟩ := single _ (stands here)
      have o := one e type u type' u' ⟨named, mem, reads⟩ ⟨_, stands here, readBy_single.mpr ⟨rfl, rfl⟩⟩
      exact ⟨_, here, readBy_single.mpr o⟩

theorem packReceiptsFallible_eq (succeeds : packReceiptsFallible receipts = .ok packed) :
    packed = packContent .empty receipts.reduceOption.flatten := by
  unfold packReceiptsFallible at succeeds
  generalize (Store.empty : Packed) = json at succeeds ⊢
  induction receipts generalizing json with
  | nil => cases succeeds; rfl
  | cons v receipts ih =>
    cases v with
    | none => cases succeeds
    | some c =>
      rw [ih _ succeeds]
      simp [packContent]

theorem named_iff (e : EventId) (type : ReceiptType) (u : UserId) :
    Named receipts e type u ↔ Mentions receipts.reduceOption.flatten e type u := by
  simp only [Mentions, mem_flatten, reduceOption_mem_iff]
  constructor
  · rintro ⟨c, hit, got, mem, reads⟩
    exact ⟨got, ⟨c, hit, mem⟩, reads⟩
  · rintro ⟨got, ⟨c, hit, mem⟩, reads⟩
    exact ⟨c, hit, got, mem, reads⟩

/-- Packing keeps exactly what was named where no event is named twice in different ways. -/
theorem holds_pack_iff (single : ∀ c, some c ∈ receipts → ∀ x ∈ c, Single x.2)
    (succeeds : packReceiptsFallible receipts = .ok packed) :
    (∀ e type u, packed.Holds e type u ↔ Named receipts e type u) ↔ OnePerEvent (Named receipts) := by
  have eq : Named receipts = Mentions receipts.reduceOption.flatten := by
    funext e type u
    exact propext (named_iff e type u)
  rw [eq, packReceiptsFallible_eq succeeds]
  refine holds_packContent_iff fun x mem => ?_
  obtain ⟨c, hit, mem⟩ := mem_flatten.mp mem
  exact single c (reduceOption_mem_iff.mp hit) x mem

end Packing

/-! ## What a range delivers -/

section Collected

variable {services : Services} {payloads : Payloads} {nextBatch : UInt64} {window : WindowRoom} {room : Room}
  {details : RoomDetails} {range : CompleteRange}

def CompleteRange.Holds (range : CompleteRange) (event : EventId) (type : ReceiptType) (user : UserId) : Prop :=
  ∃ packed, range.receipts = some packed ∧ packed.Holds event type user

def InRange (services : Services) (nextBatch : UInt64) (room : RoomId) (roomsince : UInt64) (event : EventId)
    (type : ReceiptType) (user : UserId) : Prop :=
  (∃ row ∈ services.readreceiptidReadreceipt.rows, row.1.room = room ∧ saturatingAdd64 roomsince 1 ≤ row.1.count ∧
    row.1.count ≤ nextBatch ∧ (∀ users, services.ignoredUsers = .ok (some users) → row.1.user ∉ users) ∧
    Named [rawReceipt row.2] event type user) ∨
  ∃ privates, privateReceipts services nextBatch room roomsince = .ok privates ∧ Named privates event type user

theorem collectRoom_eq_ok (commits : collectRoom services payloads nextBatch window room details = .ok range) :
    freshPayload payloads nextBatch window room details = .ok range.payload ∧
      ∃ others privates, publicReceipts services nextBatch window.roomId room.roomsince = .ok others ∧
        privateReceipts services nextBatch window.roomId room.roomsince = .ok privates ∧
        packAny (others ++ privates) = .ok range.receipts := by
  simp only [collectRoom, assemble, bind_eq_ok, mapError_eq_ok, map_eq_ok] at commits
  obtain ⟨payload, fresh, others, gathered, privates, marked, receipts, packed, rfl⟩ := commits
  exact ⟨fresh, others, privates, gathered, marked, packed⟩

variable {roomId : RoomId} {roomsince : UInt64} {others privates : List RawReceipt}

theorem mem_publicReceipts (gathered : publicReceipts services nextBatch roomId roomsince = .ok others)
    (v : RawReceipt) : v ∈ others ↔ ∃ row ∈ services.readreceiptidReadreceipt.rows, row.1.room = roomId ∧
      saturatingAdd64 roomsince 1 ≤ row.1.count ∧ row.1.count ≤ nextBatch ∧
      (∀ users, services.ignoredUsers = .ok (some users) → row.1.user ∉ users) ∧ rawReceipt row.2 = v := by
  have rows (row : ReceiptId × StoredReceipt) : row ∈ rowsBetween bytes room count
      services.readreceiptidReadreceipt roomId roomsince nextBatch ↔ _ :=
    mem_rowsBetween bytes_eq lt_iff
  by_cases nothing : (readreceiptsSinceFallible services roomId roomsince nextBatch).isEmpty
  · simp only [publicReceipts, nothing] at gathered
    cases gathered
    refine ⟨fun mem => absurd mem not_mem_nil, ?_⟩
    rintro ⟨row, mem, eq, gt, lt, -⟩
    rw [readreceiptsSinceFallible, List.isEmpty_iff, List.map_eq_nil_iff] at nothing
    exact absurd ((rows row).mpr ⟨mem, eq, gt, lt⟩) (nothing ▸ not_mem_nil)
  · simp only [publicReceipts, nothing, Bool.false_eq_true, if_false, bind_eq_ok] at gathered
    obtain ⟨ignored, read, kept⟩ := gathered
    cases kept
    simp only [readreceiptsSinceFallible, mem_map, mem_filter, rows, read]
    constructor
    · rintro ⟨_, ⟨⟨row, ⟨mem, eq, gt, lt⟩, rfl⟩, wanted⟩, rfl⟩
      refine ⟨row, mem, eq, gt, lt, ?_, rfl⟩
      rintro users hit
      cases hit
      simpa using wanted
    · rintro ⟨row, mem, eq, gt, lt, wanted, rfl⟩
      refine ⟨_, ⟨⟨row, ⟨mem, eq, gt, lt⟩, rfl⟩, ?_⟩, rfl⟩
      cases ignored with
      | none => rfl
      | some users => simpa using wanted users rfl

theorem buildPrivateReadEventSkippable_eq_ok {shortroomid : Nat} {u : UserId} {marker : Marker} {e : RawReceipt}
    (built : buildPrivateReadEventSkippable services shortroomid u marker = .ok (some e)) :
    buildPrivateReadEventFallible services shortroomid u marker = .ok e := by
  unfold buildPrivateReadEventSkippable at built
  split at built
  · next build => cases built; exact build
  · split at built <;> cases built

theorem single_of_privateReceipts (marked : privateReceipts services nextBatch roomId roomsince = .ok privates)
    {c : List (EventId × Receipts)} (hit : some c ∈ privates) : ∀ x ∈ c, Single x.2 := by
  -- Whichever table it is from, a marker is built into one receipt of the reader.
  have built {shortroomid : Nat} {n : UInt64} {ts : Option UInt64} {thread : ReceiptThread}
      (build : buildPrivateReadEventFrom services shortroomid n ts services.senderUser thread = .ok (some c)) :
      ∀ x ∈ c, Single x.2 := by
    obtain ⟨e, -, same⟩ := map_eq_ok.mp build
    cases same
    simp [Single]
  obtain ⟨update, -, marked⟩ := bind_eq_ok.mp marked
  by_cases nothing : update ≤ roomsince
  · rw [if_pos nothing] at marked
    cases marked
    cases hit
  rw [if_neg nothing, check_eq_ok] at marked
  obtain ⟨snapshot, -, marked⟩ := bind_eq_ok.mp marked.2
  by_cases old : snapshot < update
  · rw [if_pos old] at marked
    obtain ⟨shortroomid, -, marked⟩ := bind_eq_ok.mp marked
    cases marked
    obtain ⟨marker, -, build⟩ := mem_filterMap.mp hit
    exact built (toOption_eq_some.mp build)
  · rw [if_neg old, check_eq_ok] at marked
    obtain ⟨shortroomid, -, marked⟩ := bind_eq_ok.mp marked.2
    obtain ⟨es, read, marked⟩ := bind_eq_ok.mp marked
    obtain ⟨confirmed, -, marked⟩ := bind_eq_ok.mp marked
    rw [check_eq_ok] at marked
    cases marked.2
    obtain ⟨row, -, build⟩ := exists_of_mapM_eq_ok read (reduceOption_mem_iff.mp hit)
    obtain ⟨marker, -, build⟩ := bind_eq_ok.mp build
    obtain ⟨thread, -, build⟩ := bind_eq_ok.mp (buildPrivateReadEventSkippable_eq_ok build)
    obtain ⟨ts, -, build⟩ := bind_eq_ok.mp build
    exact built build

theorem inRange_eq_named (gathered : publicReceipts services nextBatch roomId roomsince = .ok others)
    (marked : privateReceipts services nextBatch roomId roomsince = .ok privates) :
    InRange services nextBatch roomId roomsince = Named (others ++ privates) := by
  funext e type u
  refine propext ⟨?_, ?_⟩
  · rintro (⟨row, mem, own, gt, lt, wanted, c, hit, mentions⟩ | ⟨_, again, c, hit, mentions⟩)
    · refine ⟨c, mem_append_left _ ((mem_publicReceipts gathered _).mpr ?_), mentions⟩
      exact ⟨row, mem, own, gt, lt, wanted, (mem_singleton.mp hit).symm⟩
    · cases marked.symm.trans again
      exact ⟨c, mem_append_right _ hit, mentions⟩
  · rintro ⟨c, hit, mentions⟩
    rcases mem_append.mp hit with hit | hit
    · obtain ⟨row, mem, own, gt, lt, wanted, raw⟩ := (mem_publicReceipts gathered _).mp hit
      exact .inl ⟨row, mem, own, gt, lt, wanted, c, mem_singleton.mpr raw.symm, mentions⟩
    · exact .inr ⟨privates, marked, c, hit, mentions⟩

theorem holds_of_packAny {receipts : List RawReceipt} (packs : packAny receipts = .ok range.receipts)
    (single : ∀ c, some c ∈ receipts → ∀ x ∈ c, Single x.2) :
    (∀ e type u, range.Holds e type u ↔ Named receipts e type u) ↔ OnePerEvent (Named receipts) := by
  cases receipts with
  | nil =>
    have nothing : range.receipts = none := (Except.ok.inj packs).symm
    simp [CompleteRange.Holds, nothing, Named, OnePerEvent]
  | cons a rest =>
    obtain ⟨packed, packs, taken⟩ := map_eq_ok.mp packs
    rw [← holds_pack_iff single (mapError_eq_ok.mp packs)]
    simp [CompleteRange.Holds, ← taken]

/-- Packing, and a range whose cursor moves, keep every receipt exactly where no event has receipts of two types or of
two users. -/
theorem receipts_exact_iff (receipts : List RawReceipt) (packed : Packed)
    (single : ∀ content, some content ∈ receipts → ∀ entry ∈ content, Single entry.2)
    (succeeds : packReceiptsFallible receipts = .ok packed)
    (services : Services) (payloads : Payloads) (nextBatch : UInt64) (window : WindowRoom) (room : Room)
    (details : RoomDetails) (range : CompleteRange)
    (stored : ∀ row ∈ services.readreceiptidReadreceipt.rows, ∀ content, rawReceipt row.2 = some content →
      ∀ entry ∈ content, Single entry.2)
    (commits : collectRoom services payloads nextBatch window room details = .ok range) :
    ((∀ event type user, packed.Holds event type user ↔ Named receipts event type user) ↔ OnePerEvent (Named receipts)) ∧
    ((∀ event type user, range.Holds event type user ↔
        InRange services nextBatch window.roomId room.roomsince event type user) ↔
      OnePerEvent (InRange services nextBatch window.roomId room.roomsince)) := by
  obtain ⟨-, others, privates, gathered, marked, packs⟩ := collectRoom_eq_ok commits
  rw [inRange_eq_named gathered marked]
  refine ⟨holds_pack_iff single succeeds, holds_of_packAny packs fun content hit => ?_⟩
  rcases mem_append.mp hit with hit | hit
  · obtain ⟨row, mem, -, -, -, -, raw⟩ := (mem_publicReceipts gathered _).mp hit
    exact stored row mem content raw
  · exact single_of_privateReceipts marked hit

end Collected

section Story

def receiptOf (user : UserId) (event : EventId) : ReceiptEvent := oneReceipt "!r" user event ⟨some 7, .unthreaded⟩

def firstId : ReceiptId := ⟨"!r", 5, "@a:x", some ""⟩

def secondId : ReceiptId := ⟨"!r", 6, "@b:x", some ""⟩

def twoReaders (first second : EventId) : Services where
  senderUser := "@me:x"
  readreceiptidReadreceipt :=
    (Store.empty.put firstId (.event (receiptOf "@a:x" first))).put secondId (.event (receiptOf "@b:x" second))
  accountData := .empty
  ignoredUsers := .ok none
  privateReads _ := ⟨.ok 0, .ok 0, .ok 0, none, [], []⟩
  shortroomid _ := some 1
  pduEventId _ := .error .notFound
  isEventId _ := true

def plainPayloads : Payloads := ⟨fun _ => 1, fun _ _ _ _ => .ok "payload"⟩

def collected (first second : EventId) : Except Failure CompleteRange :=
  collectRoom (twoReaders first second) plainPayloads 10 ⟨"!r", some .join, ["all"], 4, 4⟩ ⟨3, 1⟩ (1, ∅)

variable {a b : EventId}

theorem mem_twoReaders {row : ReceiptId × StoredReceipt} (mem : row ∈ (twoReaders a b).readreceiptidReadreceipt.rows) :
    row = (secondId, .event (receiptOf "@b:x" b)) ∨ row = (firstId, .event (receiptOf "@a:x" a)) := by
  rcases mem_put.mp mem with rfl | ⟨old, -⟩
  · exact .inl rfl
  · exact .inr ((mem_put.mp old).resolve_right fun absent => absurd absent.1 not_mem_nil)

variable {u : UserId} {e : EventId} {type : ReceiptType}

theorem named_receiptOf {o : UserId} {e' : EventId} :
    Named [rawReceipt (.event (receiptOf u e))] e' type o ↔ e' = e ∧ type = .read ∧ o = u := by
  simp [Named, Mentions, ReadBy, rawReceipt, receiptOf, oneReceipt]

theorem collected_ok (succeeds : (collected a b).toBool) : ∃ range, collected a b = .ok range := by
  cases result : collected a b with
  | error => rw [result] at succeeds; cases succeeds
  | ok range => exact ⟨range, rfl⟩

theorem inRange_twoReaders (mem : InRange (twoReaders a b) 10 "!r" 3 e type u) :
    e = a ∧ type = .read ∧ u = "@a:x" ∨ e = b ∧ type = .read ∧ u = "@b:x" := by
  rcases mem with ⟨row, mem, -, -, -, -, named⟩ | ⟨privates, marked, c, hit, -⟩
  · rcases mem_twoReaders mem with rfl | rfl
    · exact .inr (named_receiptOf.mp named)
    · exact .inl (named_receiptOf.mp named)
  · cases marked
    cases hit

theorem first_inRange (a b : EventId) : InRange (twoReaders a b) 10 "!r" 3 a .read "@a:x" := by
  have apart : firstId ≠ secondId := by decide
  refine .inl ⟨(firstId, _), mem_put.mpr (.inr ⟨mem_put.mpr (.inl rfl), apart⟩), rfl,
    show saturatingAdd64 3 1 ≤ firstId.count by decide, show firstId.count ≤ 10 by decide, ?_,
    named_receiptOf.mpr ⟨rfl, rfl, rfl⟩⟩
  rintro users absent
  cases absent

theorem receipts_exact_apart : ∃ packed range,
    packReceiptsFallible [rawReceipt (.event (receiptOf "@a:x" "$e"))] = .ok packed ∧ collected "$e" "$f" = .ok range ∧
      packed.Holds "$e" .read "@a:x" ∧ range.Holds "$e" .read "@a:x" := by
  obtain ⟨range, commits⟩ := collected_ok (show (collected "$e" "$f").toBool by decide +kernel)
  have exact := receipts_exact_iff [rawReceipt (.event (receiptOf "@a:x" "$e"))] _
    (by simp [rawReceipt, receiptOf, oneReceipt, Single]) rfl _ _ _ _ _ _ range
    (fun row mem c raw => by
      rcases mem_twoReaders mem with rfl | rfl <;> cases raw <;> simp [receiptOf, oneReceipt, Single]) commits
  refine ⟨_, range, rfl, commits, (exact.1.mpr ?_ _ _ _).mpr ?_, (exact.2.mpr ?_ _ _ _).mpr ?_⟩
  · simp only [OnePerEvent, named_receiptOf]
    rintro _ _ _ _ _ ⟨-, rfl, rfl⟩ ⟨-, rfl, rfl⟩
    exact ⟨rfl, rfl⟩
  · exact named_receiptOf.mpr ⟨rfl, rfl, rfl⟩
  · intro e type u type' u' mem mem'
    obtain ⟨rfl, rfl, rfl⟩ | ⟨rfl, rfl, rfl⟩ := inRange_twoReaders mem <;>
      obtain ⟨eq, rfl, rfl⟩ | ⟨eq, rfl, rfl⟩ := inRange_twoReaders mem'
    · exact ⟨rfl, rfl⟩
    · exact absurd eq (by decide)
    · exact absurd eq (by decide)
    · exact ⟨rfl, rfl⟩
  · exact first_inRange _ _

/-- Of two readers of one event in a committed range, the first is lost. -/
theorem first_reader_lost : ∃ range, collected "$e" "$e" = .ok range ∧
    InRange (twoReaders "$e" "$e") 10 "!r" 3 "$e" .read "@a:x" ∧ ¬range.Holds "$e" .read "@a:x" := by
  obtain ⟨range, commits⟩ := collected_ok (show (collected "$e" "$e").toBool by decide +kernel)
  refine ⟨range, commits, first_inRange _ _, ?_⟩
  have left : ((collected "$e" "$e").toOption.bind (·.receipts)).bind (·.find "$e") =
      some [(.read, [("@b:x", ⟨some 7, .unthreaded⟩)])] := by decide +kernel
  rintro ⟨packed, taken, receipts, got, reads⟩
  simp only [commits, Except.toOption, Option.bind_some, taken, got, Option.some.injEq] at left
  rw [left, readBy_single] at reads
  exact absurd reads.2 (by decide)

end Story

end Wbfuwunel.SlidingSync
