import Wbfuwunel.Core.RawId
import Wbfuwunel.Database.Codec
import Wbfuwunel.Foundation.Store
import Wbfuwunel.Rooms.Pdu

/-! Public read receipts: `rooms/read_receipt/data.rs`, and how they come in over federation.

A receipt has a row of its room, its position in the stream, its user and its thread. A new receipt replaces the user's
rows of the same thread, which are found by the end of their keys.
-/

set_option autoImplicit false

namespace Wbfuwunel.Rooms

open Foundation Database Core List Store

inductive ReceiptThread where
  | unthreaded
  | main
  | thread (root : EventId)
  | custom (text : String)
  deriving DecidableEq, Repr

def ReceiptThread.asStr : ReceiptThread → Option String
  | .unthreaded => none
  | .main => some "main"
  | .thread root => some root
  | .custom text => some text

inductive ReceiptType where
  | read
  | readPrivate
  | custom (text : String)
  deriving DecidableEq, Repr

structure Receipt where
  ts : Option UInt64
  thread : ReceiptThread
  deriving DecidableEq, Repr

/-- The maps of the content are listed in the order of their keys. -/
structure ReceiptEvent where
  content : List (EventId × List (ReceiptType × List (UserId × Receipt)))
  room : RoomId
  deriving DecidableEq, Repr

/-- Reads the first receipt only; the callers make receipts of one. -/
def eventThreadKind (event : ReceiptEvent) : String :=
  (((event.content.head?.bind (·.2.head?)).bind (·.2.head?)).bind (·.2.thread.asStr)).getD ""

/-- A key of the table. Rows from before receipts had threads have no last field. -/
structure ReceiptId where
  room : RoomId
  count : UInt64
  user : UserId
  thread : Option String
  deriving Repr

inductive StoredReceipt where
  | event (event : ReceiptEvent)
  | unreadable
  deriving DecidableEq, Repr

def storedEventId : StoredReceipt → Option EventId
  | .event event => event.content.head?.map Prod.fst
  | .unreadable => none

namespace ReceiptId

variable (id : ReceiptId)

def bytes : Bytes :=
  serializeKey ([.str id.room, .u64 id.count, .str id.user] ++ id.thread.toList.map Element.str)

/-- The thread a row is for; a row without the field is for no thread. -/
def context : String := id.thread.getD ""

def tail : Bytes := utf8 id.user ++ (id.thread.toList.flatMap fun thread => SEP :: utf8 thread)

theorem bytes_eq : id.bytes = utf8 id.room ++ SEP :: (toBeBytes64 id.count ++ SEP :: id.tail) := by
  simp [bytes, tail, Element.encode, flatMap_map]

theorem bytes_injective : Function.Injective bytes := by
  have whole (u o : UserId) (kind : String) : utf8 u ≠ utf8 o ++ SEP :: utf8 kind := fun eq =>
    separator_not_mem_utf8 u (eq ▸ mem_append_right _ mem_cons_self)
  rintro ⟨r, n, u, thread⟩ ⟨r', n', u', thread'⟩ eq
  rw [bytes_eq, bytes_eq, str_eq_iff] at eq
  obtain ⟨rooms, rest⟩ := eq
  obtain ⟨counts, tails⟩ := append_inj rest (by simp)
  simp only [toBeBytes64_inj, tail] at counts tails rooms
  subst rooms counts
  cases thread with
  | none =>
    cases thread' with
    | none => simpa using tails
    | some kind' => exact absurd (by simpa using tails) (whole u u' kind')
  | some kind =>
    cases thread' with
    | none => exact absurd (by simpa using tails.symm) (whole u' u kind)
    | some kind' => simpa [str_eq_iff] using tails

/-- Keys lie in the order of their bytes. -/
instance receiptOrder : LinearOrder ReceiptId := LinearOrder.lift' bytes bytes_injective

theorem lt_iff (a b : ReceiptId) : a < b ↔ a.bytes < b.bytes := Iff.rfl

end ReceiptId

open ReceiptId

abbrev ReceiptTable := Store ReceiptId StoredReceipt

/-- Whether an incoming position is strictly later; where either is unknown the receipt is taken. -/
def positionAdvances : Option Count → Option Count → Bool
  | some current, some incoming => current.intoSigned < incoming.intoSigned
  | _, _ => true

variable (position : EventId → Option Count)

def receiptAdvanced (current : Option EventId) (incoming : EventId) : Bool :=
  match current with
  | none => true
  | some current => if current = incoming then false else positionAdvances (position current) (position incoming)

def matchingRows (table : ReceiptTable) (user : UserId) (room : RoomId) (kind : String) :
    List (ReceiptId × StoredReceipt) :=
  let suffix := serializeKey [.str user, .str kind]
  let roomPrefix := serializeKey [.str room, .interfix]
  let lastPossibleKey := serializeKey [.str room, .u64 0xFFFFFFFFFFFFFFFF]
  ((table.rowsDownFromRaw bytes lastPossibleKey).takeWhile fun row => roomPrefix.isPrefixOf row.1.bytes).filter fun row =>
      -- Rows without a thread end with the user.
      suffix.isSuffixOf row.1.bytes || (kind = "" && (utf8 user).isSuffixOf row.1.bytes)

/-- The keys to delete, and the event named by the first of the rows. -/
def supersede (found : List ReceiptId × Option EventId) (row : ReceiptId × StoredReceipt) : List ReceiptId × Option EventId :=
  (found.1 ++ [row.1], (if found.1.isEmpty then storedEventId row.2 else none).or found.2)

def superseded (rows : List (ReceiptId × StoredReceipt)) : List ReceiptId × Option EventId := rows.foldl supersede ([], none)

/-- `next` is the count the counter hands out, if it is asked. -/
def readreceiptUpdate (next : UInt64) (table : ReceiptTable) (user : UserId) (room : RoomId) (event : ReceiptEvent) :
    Bool × ReceiptTable :=
  match event.content.head? with
  | none => (false, table)
  | some first =>
    let kind := eventThreadKind event
    let found := superseded (matchingRows table user room kind)
    if receiptAdvanced position found.2 first.1 then
      (true, (found.1.foldl Store.del table).put ⟨room, next, user, some kind⟩ (.event event))
    else (false, table)

def oneReceipt (room : RoomId) (user : UserId) (event : EventId) (receipt : Receipt) : ReceiptEvent :=
  { content := [(event, [(.read, [(user, receipt)])])], room }

@[simp] theorem eventThreadKind_oneReceipt (r : RoomId) (u : UserId) (e : EventId) (receipt : Receipt) :
    eventThreadKind (oneReceipt r u e receipt) = receipt.thread.asStr.getD "" := rfl

def handleEduReceiptRoomUser (serverInRoom : String → RoomId → Bool) (next : UInt64) (table : ReceiptTable)
    (origin : String) (room : RoomId) (user : UserId) (event : EventId) (data : Receipt) : ReceiptTable :=
  if serverName user ≠ origin then table
  else if !serverInRoom origin room then table
  else (readreceiptUpdate position next table user room (oneReceipt room user event data)).2

/-! ## Which rows the end of a key selects -/

namespace ReceiptId

variable (id : ReceiptId) (user : UserId) (room : RoomId) (kind : String)

def isOwn : Bool := id.room = room && id.user = user && id.context = kind

def Resembles : Prop :=
  match id.thread with
  | some thread => thread = kind ∧ utf8 user <:+ utf8 id.user ∨ kind = "" ∧ utf8 user <:+ utf8 thread
  | none => kind = "" ∧ utf8 user <:+ utf8 id.user ∨ id.user = kind ∧ utf8 user <:+ toBeBytes64 id.count

theorem resembles_iff : id.Resembles user kind ↔
    (serializeKey [.str user, .str kind] <:+ id.bytes ∨ kind = "" ∧ utf8 user <:+ id.bytes) := by
  have clean := separator_not_mem_utf8 user
  have suffix : serializeKey [.str user, .str kind] = utf8 user ++ SEP :: utf8 kind := by simp [Element.encode]
  rw [suffix, bytes_eq, Resembles, tail]
  cases id.thread with
  | some thread =>
    have split : utf8 id.room ++ SEP :: (toBeBytes64 id.count ++ SEP :: (utf8 id.user ++ SEP :: utf8 thread)) =
        (utf8 id.room ++ SEP :: toBeBytes64 id.count ++ SEP :: utf8 id.user) ++ SEP :: utf8 thread := by simp
    simp only [Option.toList_some, flatMap_cons, flatMap_nil, append_nil]
    rw [split, record_ends_iff (separator_not_mem_utf8 kind) (separator_not_mem_utf8 thread), record_ends_behind_iff clean,
      record_ends_behind_iff clean, utf8_inj, eq_comm]
  | none =>
    have split : utf8 id.room ++ SEP :: (toBeBytes64 id.count ++ SEP :: utf8 id.user) =
        (utf8 id.room ++ SEP :: toBeBytes64 id.count) ++ SEP :: utf8 id.user := by simp
    simp only [Option.toList_none, flatMap_nil, append_nil]
    rw [split, record_ends_iff (separator_not_mem_utf8 kind) (separator_not_mem_utf8 id.user), record_ends_behind_iff clean,
      record_ends_behind_iff clean, utf8_inj, or_comm, @eq_comm _ kind id.user]

instance decidableResembles : Decidable (id.Resembles user kind) := decidable_of_iff _ (resembles_iff id user kind).symm

def isFound : Bool := id.room = room && id.count ≠ 0xFFFFFFFFFFFFFFFF && id.Resembles user kind

variable {id user room kind}

theorem resembles_of_isOwn (own : id.isOwn user room kind) : id.Resembles user kind := by
  simp only [isOwn, Bool.and_eq_true, decide_eq_true_eq] at own
  obtain ⟨⟨-, rfl⟩, rfl⟩ := own
  simp only [Resembles, context]
  cases id.thread with
  | some thread => exact .inl ⟨rfl, suffix_rfl⟩
  | none => exact .inl ⟨rfl, suffix_rfl⟩

theorem lastPossibleKey_lt_iff (eq : id.room = room) :
    serializeKey [.str room, .u64 0xFFFFFFFFFFFFFFFF] < id.bytes ↔ id.count = 0xFFFFFFFFFFFFFFFF := by
  have last : serializeKey [.str room, .u64 0xFFFFFFFFFFFFFFFF] =
      (utf8 room ++ SEP :: toBeBytes64 0xFFFFFFFFFFFFFFFF) ++ [] := by simp [Element.encode]
  have k : id.bytes = (utf8 room ++ SEP :: toBeBytes64 id.count) ++ SEP :: id.tail := by
    rw [bytes_eq, eq]
    simp
  have top : ¬(0xFFFFFFFFFFFFFFFF : UInt64) < id.count := by
    have le := id.count.toNat_lt
    rw [UInt64.lt_iff_toNat_lt]
    simp only [UInt64.reduceToNat]
    omega
  rw [last, k, append_lt_append_iff _ _ (by simp), append_lt_append_iff _ _ rfl, cons_lt_cons_iff, toBeBytes64_lt_iff]
  simp [top, eq_comm]

end ReceiptId

section Update

variable (position : EventId → Option Count) (next : UInt64) (table : ReceiptTable) (user : UserId) (room : RoomId)
  (event : ReceiptEvent)

theorem matchingRows_eq (kind : String) :
    matchingRows table user room kind = (table.rows.filter fun row => row.1.isFound user room kind).reverse := by
  have pre : serializeKey [.str room, .interfix] <+: serializeKey [.str room, .u64 0xFFFFFFFFFFFFFFFF] := by
    simp [Element.encode]
  rw [matchingRows, table.rowsDownFromRaw_takeWhile lt_iff pre, filter_reverse, filter_filter]
  congr 2
  funext row
  have inRoom : serializeKey [.str room, .interfix] <+: row.1.bytes ↔ row.1.room = room := by
    have start : serializeKey [.str room, .interfix] = utf8 room ++ SEP :: [] := by simp [Element.encode]
    rw [start, bytes_eq, str_begins_iff]
    simp [eq_comm]
  rw [Bool.eq_iff_iff]
  simp only [isFound, Bool.and_eq_true, Bool.or_eq_true, decide_eq_true_eq, isSuffixOf_iff_suffix,
    isPrefixOf_iff_prefix, inRoom, Bool.not_eq_true', decide_eq_false_iff_not, resembles_iff]
  constructor
  · rintro ⟨ends, eq, lt⟩
    exact ⟨⟨eq, mt (lastPossibleKey_lt_iff eq).mpr lt⟩, ends⟩
  · rintro ⟨⟨eq, lt⟩, ends⟩
    exact ⟨ends, eq, mt (lastPossibleKey_lt_iff eq).mp lt⟩

theorem foldl_supersede {keys : List ReceiptId} (some : keys ≠ []) (current : Option EventId)
    (rows : List (ReceiptId × StoredReceipt)) :
    rows.foldl supersede (keys, current) = (keys ++ rows.map Prod.fst, current) := by
  induction rows generalizing keys with
  | nil => simp
  | cons row rows ih =>
    have a : supersede (keys, current) row = (keys ++ [row.1], current) := by simp [supersede, some]
    rw [foldl_cons, a, ih (by simp)]
    simp

theorem superseded_eq (rows : List (ReceiptId × StoredReceipt)) :
    superseded rows = (rows.map Prod.fst, rows.head?.bind fun row => storedEventId row.2) := by
  cases rows with
  | nil => rfl
  | cons row rows =>
    have a : supersede ([], none) row = ([row.1], storedEventId row.2) := by simp [supersede]
    rw [superseded, foldl_cons, a, foldl_supersede (by simp)]
    simp

def currentEvent (kind : String) : Option EventId :=
  (table.rows.filter fun row => row.1.isFound user room kind).getLast?.bind fun row => storedEventId row.2

theorem readreceiptUpdate_eq : readreceiptUpdate position next table user room event = match event.content.head? with
    | none => (false, table)
    | some a =>
      if receiptAdvanced position (currentEvent table user room (eventThreadKind event)) a.1 then
        (true, (((table.rows.filter fun row => row.1.isFound user room (eventThreadKind event)).map Prod.fst).reverse.foldl
          Store.del table).put ⟨room, next, user, some (eventThreadKind event)⟩ (.event event))
      else (false, table) := by
  unfold readreceiptUpdate
  cases event.content.head? with
  | none => rfl
  | some a =>
    simp only [matchingRows_eq, superseded_eq, head?_reverse, map_reverse]
    rfl

theorem readreceiptUpdate_fst : (readreceiptUpdate position next table user room event).1 =
    event.content.head?.any fun a =>
      receiptAdvanced position (currentEvent table user room (eventThreadKind event)) a.1 := by
  rw [readreceiptUpdate_eq]
  cases event.content.head? with
  | none => rfl
  | some a =>
    simp only [Option.any_some]
    split <;> simp_all

variable {position next table user room event}

theorem find_readreceiptUpdate (acc : (readreceiptUpdate position next table user room event).1)
    (id : ReceiptId) : (readreceiptUpdate position next table user room event).2.find id =
      if id = ⟨room, next, user, some (eventThreadKind event)⟩ then some (.event event)
      else if id.isFound user room (eventThreadKind event) then none else table.find id := by
  rw [readreceiptUpdate_eq] at acc ⊢
  cases c : event.content.head? with
  | none => simp [c] at acc
  | some a =>
    simp only [c] at acc ⊢
    split at acc
    next advances =>
      rw [if_pos advances, find_put, find_foldl_del]
      refine if_congr Iff.rfl rfl ?_
      by_cases got : id.isFound user room (eventThreadKind event)
      · split
        · rfl
        next absent =>
          refine Option.eq_none_iff_forall_ne_some.mpr fun v hit => absent ?_
          have mem : (id, v) ∈ table.rows.filter fun row => row.1.isFound user room (eventThreadKind event) :=
            mem_filter.mpr ⟨find_eq_some_iff.mp hit, got⟩
          exact mem_reverse.mpr (mem_map_of_mem mem)
      · rw [if_neg got, if_neg]
        intro mem
        obtain ⟨row, member, rfl⟩ := mem_map.mp (mem_reverse.mp mem)
        exact got (mem_filter.mp member).2
    · cases acc

theorem readreceiptUpdate_of_refused (refused : (readreceiptUpdate position next table user room event).1 ≠ true) :
    (readreceiptUpdate position next table user room event).2 = table := by
  rw [readreceiptUpdate_eq] at refused ⊢
  cases c : event.content.head? with
  | none => rfl
  | some a =>
    simp only [c] at refused ⊢
    split at refused
    · exact absurd rfl refused
    next advances =>
      rw [if_neg advances]

/-! ## Receipts of different users -/

/-- What an update may change and depend on. It spares every row that is not the user's for the thread; it decides as if
there were no other rows, and from the positions of the events these rows and the receipt name; and an accepted receipt
leaves one row of the user for the thread. -/
structure KeptApart (position : EventId → Option Count) (next : UInt64) (table : ReceiptTable) (user : UserId)
    (room : RoomId) (event : ReceiptEvent) : Prop where
  spares : ∀ id : ReceiptId, id.isOwn user room (eventThreadKind event) = false →
    (readreceiptUpdate position next table user room event).2.find id = table.find id
  decides : ∀ other : EventId → Option Count,
    (∀ row ∈ table.rows, row.1.isOwn user room (eventThreadKind event) → ∀ named ∈ storedEventId row.2,
      other named = position named) →
    (∀ named ∈ event.content.head?.map Prod.fst, other named = position named) →
    (readreceiptUpdate position next table user room event).1 =
      (readreceiptUpdate other next (table.keep fun id _ => id.isOwn user room (eventThreadKind event)) user room event).1
  leaves : (readreceiptUpdate position next table user room event).1 →
    ∃! id : ReceiptId, id.isOwn user room (eventThreadKind event) ∧
      (readreceiptUpdate position next table user room event).2.contains id

/-- The rows of the room that end as the user's do are the user's, and none of these is at the last count there is. -/
structure Distinct (table : ReceiptTable) (user : UserId) (room : RoomId) (kind : String) : Prop where
  alone : ∀ id ∈ table.keys, id.room = room → id.count ≠ 0xFFFFFFFFFFFFFFFF → id.Resembles user kind →
    id.isOwn user room kind
  below : ∀ id ∈ table.keys, id.isOwn user room kind → id.count ≠ 0xFFFFFFFFFFFFFFFF

theorem Distinct.isFound_eq {kind : String} (distinct : Distinct table user room kind) {id : ReceiptId}
    (mem : id ∈ table.keys) : id.isFound user room kind = id.isOwn user room kind := by
  rw [Bool.eq_iff_iff]
  constructor
  · intro got
    simp only [isFound, Bool.and_eq_true, decide_eq_true_eq] at got
    exact distinct.alone id mem got.1.1 got.1.2 got.2
  · intro own
    have room' : id.room = room := by
      simp only [isOwn, Bool.and_eq_true, decide_eq_true_eq] at own
      exact own.1.1
    simp [isFound, room', distinct.below id mem own, resembles_of_isOwn own]

theorem Distinct.keptApart (distinct : Distinct table user room (eventThreadKind event)) :
    KeptApart position next table user room event := by
  have isKey {row : ReceiptId × StoredReceipt} (mem : row ∈ table.rows) : row.1 ∈ table.keys :=
    mem_map_of_mem mem
  have isKeyOfFind {id : ReceiptId} {v : StoredReceipt} (hit : table.find id = some v) : id ∈ table.keys :=
    isKey (find_eq_some_iff.mp hit)
  have newIsOwn : (⟨room, next, user, some (eventThreadKind event)⟩ : ReceiptId).isOwn user room (eventThreadKind event) := by
    simp [isOwn, context]
  constructor
  case spares =>
    intro id o
    by_cases acc : (readreceiptUpdate position next table user room event).1
    · rw [find_readreceiptUpdate acc, if_neg (by rintro rfl; simp [newIsOwn] at o)]
      split
      next found =>
        refine (Option.eq_none_iff_forall_ne_some.mpr fun v hit => ?_).symm
        rw [distinct.isFound_eq (isKeyOfFind hit), o] at found
        cases found
      · rfl
    · rw [readreceiptUpdate_of_refused acc]
  case decides =>
    intro o named incoming
    -- The rows found are the user's own, so they are found without the others too.
    have mine : (table.rows.filter fun row => row.1.isFound user room (eventThreadKind event)) =
        table.rows.filter fun row => row.1.isOwn user room (eventThreadKind event) :=
      filter_congr fun row mem => distinct.isFound_eq (isKey mem)
    have eq : currentEvent (table.keep fun id _ => id.isOwn user room (eventThreadKind event)) user room
        (eventThreadKind event) = currentEvent table user room (eventThreadKind event) := by
      simp only [currentEvent, Store.keep, filter_filter]
      congr 2
      refine filter_congr fun row mem => ?_
      simp [distinct.isFound_eq (isKey mem)]
    rw [readreceiptUpdate_fst, readreceiptUpdate_fst, eq]
    cases c : event.content.head? with
    | none => rfl
    | some a =>
      simp only [Option.any_some, receiptAdvanced]
      cases current : currentEvent table user room (eventThreadKind event) with
      | none => rfl
      | some got =>
        rw [currentEvent, mine, Option.bind_eq_some_iff] at current
        obtain ⟨row, last, stores⟩ := current
        have mem := mem_filter.mp (mem_of_getLast? last)
        dsimp only
        rw [named row mem.1 mem.2 got stores, incoming a.1 (by simp [c])]
  case leaves =>
    intro acc
    refine ⟨⟨room, next, user, some (eventThreadKind event)⟩, ⟨newIsOwn, ?_⟩, ?_⟩
    · simp [Store.contains, find_readreceiptUpdate acc]
    · rintro id ⟨own, hit⟩
      by_contra ne
      rw [Store.contains, find_readreceiptUpdate acc, if_neg ne] at hit
      split at hit
      · cases hit
      next missed =>
        obtain ⟨v, found⟩ := Option.isSome_iff_exists.mp hit
        exact missed ((distinct.isFound_eq (isKeyOfFind found)).trans own)

/-- A receipt that names an event whose position is unknown, other than the one stored, is accepted. -/
theorem accepted_of_unknown {kind : String} {current : EventId} (new : current ≠ (currentEvent table user room kind).getD "")
    (next : UInt64) : (readreceiptUpdate (fun _ => none) next table user room
      (oneReceipt room user current ⟨none, .custom kind⟩)).1 := by
  have thread : eventThreadKind (oneReceipt room user current ⟨none, .custom kind⟩) = kind := rfl
  rw [readreceiptUpdate_fst, thread]
  simp only [oneReceipt, receiptAdvanced]
  cases got : currentEvent table user room kind with
  | none => rfl
  | some event =>
    have ne : event ≠ current := by simpa [got, eq_comm] using new
    simp [ne, positionAdvances]

theorem receipts_kept_apart_iff (table : ReceiptTable) (user : UserId) (room : RoomId) (kind : String) :
    (∀ position next event, eventThreadKind event = kind → KeptApart position next table user room event) ↔
      Distinct table user room kind := by
  constructor
  · intro apart
    -- Some event id other than the stored one, of which no position is known.
    obtain ⟨current, new⟩ : ∃ current : EventId, current ≠ (currentEvent table user room kind).getD "" := by
      by_cases empty : (currentEvent table user room kind).getD "" = ""
      · exact ⟨"$", by simp [empty]⟩
      · exact ⟨"", Ne.symm empty⟩
    have kept (next : UInt64) : KeptApart (fun _ => none) next table user room
        (oneReceipt room user current ⟨none, .custom kind⟩) := apart _ next _ rfl
    have find (next : UInt64) (id : ReceiptId) : (readreceiptUpdate (fun _ => none) next table user room
        (oneReceipt room user current ⟨none, .custom kind⟩)).2.find id =
        if id = ⟨room, next, user, some kind⟩ then some (.event (oneReceipt room user current ⟨none, .custom kind⟩))
        else if id.isFound user room kind then none else table.find id :=
      find_readreceiptUpdate (accepted_of_unknown new next) id
    constructor
    case alone =>
      intro id mem inRoom below resembles
      by_contra foreign
      obtain ⟨row, member, rfl⟩ := mem_map.mp mem
      have spared := (kept (row.1.count + 1)).spares row.1 (Bool.eq_false_iff.mpr foreign)
      have hit : table.find row.1 = some row.2 := find_eq_some_iff.mpr member
      have away : row.1 ≠ ⟨room, row.1.count + 1, user, some kind⟩ := by
        intro eq
        have counts := congrArg (fun id => id.count) eq
        simp at counts
      have got : row.1.isFound user room kind := by simp [isFound, inRoom, below, resembles]
      rw [find, if_neg away, if_pos got, hit] at spared
      cases spared
    case below =>
      intro id mem own last
      obtain ⟨row, member, rfl⟩ := mem_map.mp mem
      obtain ⟨only, -, unique⟩ := (kept 0).leaves (accepted_of_unknown new 0)
      have away : row.1 ≠ ⟨room, 0, user, some kind⟩ := by
        intro eq
        have counts := congrArg (fun id => id.count) eq
        simp [last] at counts
      have missed : ¬row.1.isFound user room kind := by simp [isFound, last]
      -- The row at the last count stays, beside the new one.
      have old := unique row.1 ⟨own, by
        rw [Store.contains, find, if_neg away, if_neg missed, find_eq_some_iff.mpr member]
        rfl⟩
      have added := unique ⟨room, 0, user, some kind⟩ ⟨by simp [isOwn, context, ReceiptThread.asStr], by
        rw [Store.contains, find, if_pos rfl]
        rfl⟩
      exact away (old.trans added.symm)
  · rintro distinct position next event rfl
    exact distinct.keptApart

end Update

section Collision

def collisionPositions : EventId → Option Count
  | "$early" => some (.normal 4)
  | "$late" => some (.normal 9)
  | "$later" => some (.normal 11)
  | _ => none

/-- A remote user's receipt in the thread of an event whose id ends like the id of `@u:h`. -/
def collisionTable : ReceiptTable :=
  handleEduReceiptRoomUser collisionPositions (fun _ _ => true) 20 .empty "evil" "!r:h" "@m:evil" "$late"
    ⟨none, .thread "$x@u:h"⟩

/-- It makes the first receipt of `@u:h` be refused, and is deleted by one that is not. -/
theorem receipt_refused_by_stranger :
    ¬KeptApart collisionPositions 21 collisionTable "@u:h" "!r:h" (oneReceipt "!r:h" "@u:h" "$early" ⟨none, .unthreaded⟩) ∧
      ¬KeptApart collisionPositions 21 collisionTable "@u:h" "!r:h" (oneReceipt "!r:h" "@u:h" "$later" ⟨none, .unthreaded⟩) ∧
      (∀ id ∈ collisionTable.keys, id.user = "@m:evil") ∧
      (readreceiptUpdate collisionPositions 21 collisionTable "@u:h" "!r:h"
        (oneReceipt "!r:h" "@u:h" "$early" ⟨none, .unthreaded⟩)).1 = false := by
  refine ⟨fun apart => ?_, fun apart => ?_, by decide +kernel, by decide +kernel⟩
  · have decided := apart.decides collisionPositions (fun _ _ _ _ _ => rfl) fun _ _ => rfl
    revert decided
    decide +kernel
  · have spared := apart.spares ⟨"!r:h", 20, "@m:evil", some "$x@u:h"⟩ (by decide +kernel)
    revert spared
    decide +kernel

end Collision

end Wbfuwunel.Rooms
