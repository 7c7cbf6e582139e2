import Mathlib.Algebra.Order.BigOperators.Group.List
import Mathlib.Data.List.Dedup
import Wbfuwunel.Sending.EduTurns

/-! What a server's count says about the ephemeral events sent to it. -/

set_option autoImplicit false

namespace Wbfuwunel.Sending

open Foundation Database Rooms List Selecting RoomScan Selected Store KeyChangeId

namespace Selecting

variable {around : Surroundings}

/-! ## Counts, changes and the budget -/

def shippedLen (state : Selecting) : Nat :=
  state.devices.shipped.length + (state.receipts.getD ⟨[], []⟩).shipped.length + (state.presence.getD none).toList.length

theorem forall_scan_row {before after scans : List RoomScan} {scan scan' : RoomScan} {motive : RoomScan → Prop}
    (split : scans = before ++ scan :: after) (all : ∀ scan ∈ scans, motive scan) (new : motive scan') :
    ∀ scan ∈ before ++ scan' :: after, motive scan := by
  intro other mem
  rcases mem_append.mp mem with mem | mem
  · exact all other (split ▸ mem_append_left _ mem)
  rcases mem_cons.mp mem with rfl | mem
  · exact new
  · exact all other (split ▸ mem_append_right _ (mem_cons_of_mem _ mem))

structure Counted (first : Selecting) (upper : UInt64) (state : Selecting) : Prop where
  bounded : state.maxEduCount ≤ max first.maxEduCount upper
  changesBelow : ∀ change ∈ state.changes, change.2 ≤ upper
  rowsBelow : ∀ scan ∈ state.scans, ∀ row ∈ scan.rest, row.2.1 ≤ upper
  presenceBelow : ∀ row ∈ state.presenceRows, row.2.1 ≤ upper
  changes : ∀ change ∈ first.changes,
    change ∈ state.changes ∨ change.1 ∈ state.deviceListChanges ∧ change.2 ≤ state.maxEduCount
  sent : ∀ user ∈ state.deviceListChanges, .deviceListUpdate user ∈ state.devices.all
  onlyChanges : ∀ edu ∈ state.devices.all, ∃ user, edu = .deviceListUpdate user
  fits : first.eventsLen ≤ EDU_LIMIT → first.eventsLen + state.shippedLen ≤ min state.eventsLen EDU_LIMIT

section Counted

variable {first state : Selecting} {upper count : UInt64} (ok : Counted first upper state)
include ok

theorem Counted.raise (bound : count ≤ upper) :
    Counted first upper { state with maxEduCount := max state.maxEduCount count } := { ok with
  bounded := max_le ok.bounded (le_max_of_le_right bound)
  changes change mem := (ok.changes change mem).imp_right fun met => ⟨met.1, le_max_of_le_left met.2⟩ }

theorem Counted.move {next : Selecting} (move : Move around state next) : Counted first upper next := by
  cases move with
  | idle => exact ok
  | @report user =>
    refine { ok with
      changes := fun change mem => (ok.changes change mem).imp_right fun met => ⟨mem_cons_of_mem _ met.1, met.2⟩
      sent := ?_
      onlyChanges := ?_
      fits := ?_ }
    · intro other mem
      rw [mem_all_push]
      rcases mem_cons.mp mem with rfl | mem
      · exact .inr rfl
      · exact .inl (ok.sent other mem)
    · intro edu mem
      rcases mem_all_push.mp mem with mem | rfl
      · exact ok.onlyChanges edu mem
      · exact ⟨user, rfl⟩
    · intro some
      have fits := ok.fits some
      simp only [shippedLen] at fits ⊢
      have pushed := @Selected.push_fits state.eventsLen state.devices (.deviceListUpdate user)
        (first.eventsLen + (state.receipts.getD ⟨[], []⟩).shipped.length + (state.presence.getD none).toList.length)
        (by omega)
      omega
  | @change user count changes got seen =>
    refine { ok.raise (ok.changesBelow (user, count) (got ▸ mem_cons_self)) with
      changesBelow := fun change mem => ok.changesBelow change (got ▸ mem_cons_of_mem _ mem)
      changes := fun change mem => ?_ }
    rcases ok.changes change mem with wait | ⟨met, bound⟩
    · rcases mem_cons.mp (got ▸ wait) with rfl | later
      · exact .inr ⟨seen, le_max_right _ _⟩
      · exact .inl later
    · exact .inr ⟨met, le_max_of_le_left bound⟩
  | @row before after scan scan' user count value rest num scans going got read =>
    have rows := ok.rowsBelow scan (scans ▸ mem_append_right _ mem_cons_self)
    have bound : count ≤ upper := rows (user, count, value) (got ▸ mem_cons_self)
    refine { ok.raise bound with rowsBelow := forall_scan_row scans ok.rowsBelow fun row member => ?_ }
    rw [read.same.1] at member
    exact rows row (got ▸ mem_cons_of_mem _ member)
  | @panic scan user count value rest mem got isLocal unexpected =>
    have bound : count ≤ upper := ok.rowsBelow scan mem (user, count, value) (got ▸ mem_cons_self)
    exact { ok.raise bound with }
  | ranked undone all =>
    refine { ok with fits := ?_ }
    intro some
    have fits := ok.fits some
    simp only [shippedLen, Option.getD_some] at fits ⊢
    have pushed := @Selected.pushAll_fits state.eventsLen
      (first.eventsLen + state.devices.shipped.length + (state.presence.getD none).toList.length)
      (receiptEdus state.scans) (by omega)
    omega
  | @presenceRow user count update presenceRows presenceUpdates got undone =>
    have bound : count ≤ upper := ok.presenceBelow (user, count, update) (got ▸ mem_cons_self)
    exact { ok.raise bound with
      presenceBelow := fun row mem => ok.presenceBelow row (got ▸ mem_cons_of_mem _ mem) }
  | @presenceDone eventsLen sent undone grows room =>
    refine { ok with fits := fun some => ?_ }
    have fits := ok.fits some
    simp only [shippedLen, undone, Option.getD_none, Option.getD_some, Option.toList_none, length_nil] at fits ⊢
    cases sent with
    | none =>
      simp only [Option.toList_none, length_nil]
      omega
    | some edu =>
      have room := room rfl
      simp only [Option.toList_some, length_singleton]
      omega

end Counted

/-! ## Rooms -/

def localUsers (around : Surroundings) (items : List ReceiptItem) : List UserId :=
  ((items.filter fun item => around.userIsLocal item.1 && ((receiptOf item.1 item.2.2).getD none).isSome).map Prod.fst).dedup

theorem mem_localUsers {items : List ReceiptItem} {row : ReceiptItem} {data : ReceiptData} (mem : row ∈ items)
    (isLocal : around.userIsLocal row.1) (readable : receiptOf row.1 row.2.2 = some (some data)) :
    row.1 ∈ localUsers around items := by
  rw [localUsers, mem_dedup]
  refine mem_map_of_mem (f := Prod.fst) (mem_filter.mpr ⟨mem, ?_⟩)
  simp [isLocal, readable]

/-- A scan has met users of its room only, each once. -/
structure ScanSound (around : Surroundings) (window : RoomId → List ReceiptItem) (scan : RoomScan) : Prop where
  nodup : scan.users.Nodup
  within : ∀ user ∈ scan.users, user ∈ localUsers around (window scan.room)
  waiting : ∀ row ∈ scan.rest, row ∈ window scan.room

section Scanned

variable {window : RoomId → List ReceiptItem} {rooms : List RoomId} {state : Selecting} {scan scan' : RoomScan}
  {user : UserId} {count : UInt64} {value : StoredReceipt} {rest : List ReceiptItem} {num num' : Nat}

theorem RowRead.users (read : RowRead around num scan user value scan' num') :
    scan'.users = scan.users ∨ scan'.users = scan.users ++ [user] ∧ user ∉ scan.users ∧ around.userIsLocal user ∧
      ∃ data, receiptOf user value = some (some data) := by
  cases read with
  | passed => exact .inl rfl
  | @entered data isLocal readable =>
    rw [users_enter]
    split
    · exact .inl rfl
    next new =>
      exact .inr ⟨rfl, new, isLocal, data, readable⟩

/-- Users met are of what was read. -/
theorem RowRead.users_within {items : List ReceiptItem} (read : RowRead around num scan user value scan' num')
    (mem : (user, count, value) ∈ items) (within : ∀ user ∈ scan.users, user ∈ localUsers around items) :
    ∀ user ∈ scan'.users, user ∈ localUsers around items := by
  rcases read.users with same | ⟨more, -, isLocal, data, readable⟩
  · rwa [same]
  · rw [more, forall_mem_append]
    refine ⟨within, fun other here => ?_⟩
    rw [mem_singleton.mp here]
    exact mem_localUsers mem isLocal readable

theorem ScanSound.rowRead (sound : ScanSound around window scan) (got : scan.rest = (user, count, value) :: rest)
    (read : RowRead around num { scan with rest := rest } user value scan' num') : ScanSound around window scan' := by
  have here : (user, count, value) ∈ window scan.room := sound.waiting _ (got ▸ mem_cons_self)
  constructor
  · rcases read.users with same | ⟨more, new, -⟩
    · rw [same]
      exact sound.nodup
    · rw [more]
      exact sound.nodup.append (nodup_singleton _) (disjoint_singleton.mpr new)
  · rw [read.same.2]
    exact read.users_within here sound.within
  · rw [read.same.1, read.same.2]
    exact fun row mem => sound.waiting row (got ▸ mem_cons_of_mem _ mem)

/-- The scans of the rooms. Users met are counted, and a scan stops only when there are too many. -/
structure Scanned (around : Surroundings) (window : RoomId → List ReceiptItem) (rooms : List RoomId) (state : Selecting) :
    Prop where
  rooms : state.scans.map room = rooms
  scans : ∀ scan ∈ state.scans, ScanSound around window scan
  num : state.num = (state.scans.map fun scan => scan.users.length).sum
  full : ∀ scan ∈ state.scans, scan.stopped → SELECT_RECEIPT_LIMIT < state.num
  receipts : ∀ selected, state.receipts = some selected →
    state.scans.all RoomScan.finished ∧ ∀ edu, edu ∈ selected.all ↔ edu ∈ receiptEdus state.scans

theorem RowRead.num_users (read : RowRead around num scan user value scan' num') (going : scan.stopped = false) :
    num' + scan.users.length = num + scan'.users.length ∧ (scan'.stopped → SELECT_RECEIPT_LIMIT < num') ∧ num ≤ num' := by
  cases read with
  | passed => simp [going]
  | entered =>
    rw [users_enter, stopped_enter]
    split
    · simp [going]
    · simp only [length_append, length_singleton, decide_eq_true_eq]
      omega

theorem Scanned.row (scanned : Scanned around window rooms state) {before after : List RoomScan}
    (scans : state.scans = before ++ scan :: after) (going : scan.stopped = false)
    (got : scan.rest = (user, count, value) :: rest)
    (read : RowRead around state.num { scan with rest := rest } user value scan' num) (maxEduCount : UInt64) :
    Scanned around window rooms
      { state with maxEduCount := maxEduCount, num := num, scans := before ++ scan' :: after } := by
  obtain ⟨users, stops, grows⟩ := read.num_users going
  have old : scan ∈ state.scans := scans ▸ mem_append_right _ mem_cons_self
  constructor
  case rooms =>
    rw [← scanned.rooms, scans]
    simp [read.same.2]
  case scans => exact forall_scan_row scans scanned.scans ((scanned.scans scan old).rowRead got read)
  case num =>
    have sum := scanned.num
    rw [scans] at sum
    simp only [map_append, map_cons, sum_append, sum_cons] at sum ⊢
    simp only [RoomScan.users] at users sum ⊢
    omega
  case full =>
    refine forall_scan_row scans (fun other mem stopped => ?_) stops
    have full := scanned.full other mem stopped
    simp only
    omega
  case receipts =>
    intro selected done
    have finished := (scanned.receipts selected done).1
    rw [all_eq_true] at finished
    simpa [RoomScan.finished, going, got] using finished scan old

theorem Scanned.move (scanned : Scanned around window rooms state) {next : Selecting} (move : Move around state next) :
    Scanned around window rooms next := by
  cases move with
  | row scans going got read => exact scanned.row scans going got read _
  | ranked undone finished =>
    refine { scanned with receipts := fun selected done => ⟨finished, fun edu => ?_⟩ }
    obtain rfl := Option.some.inj done
    exact mem_all_pushAll
  | _ => exact { scanned with }

end Scanned

/-! ## One receipt -/

/-- A row of a room with what lies before and behind it, and the receipt it holds. -/
structure ReceiptRow (around : Surroundings) where
  room : RoomId
  before : List ReceiptItem
  row : ReceiptItem
  after : List ReceiptItem
  data : ReceiptData
  isLocal : around.userIsLocal row.1
  readable : receiptOf row.1 row.2.2 = some (some data)

section ReceiptRow

variable (receipt : ReceiptRow around)

/-- The scan of the room has not come to the row. -/
structure Waits (scan : RoomScan) : Prop where
  rest : ∃ between, between <:+ receipt.before ∧ scan.rest = between ++ receipt.row :: receipt.after
  users : ∀ user ∈ scan.users, user ∈ localUsers around receipt.before

def HeldBy (scan : RoomScan) : Prop := scan.room = receipt.room ∧ scan.Holds receipt.row.1 receipt.data

def Pending (state : Selecting) : Prop :=
  ∀ scan ∈ state.scans, scan.room = receipt.room → HeldBy receipt scan ∨ Waits receipt scan

/-- The count is below the receipt, with all that may yet raise it before the receipt is read. -/
structure Low (state : Selecting) : Prop where
  max : state.maxEduCount < receipt.row.2.1
  changes : ∀ change ∈ state.changes, change.2 < receipt.row.2.1
  presence : ∀ row ∈ state.presenceRows, row.2.1 < receipt.row.2.1
  rows : ∀ scan ∈ state.scans, scan.room ≠ receipt.room → ∀ row ∈ scan.rest, row.2.1 < receipt.row.2.1
  before : ∀ scan ∈ state.scans, ∀ row ∈ receipt.before, row.2.1 < receipt.row.2.1

variable {receipt} {state : Selecting} {scan scan' : RoomScan} {user : UserId} {count : UInt64} {value : StoredReceipt}
  {rest : List ReceiptItem} {num num' : Nat}

theorem HeldBy.rowRead (held : HeldBy receipt scan)
    (read : RowRead around num { scan with rest := rest } user value scan' num') : HeldBy receipt scan' := by
  cases read with
  | passed => exact held
  | entered => exact ⟨room_enter.trans held.1, holds_enter.mpr (.inl held.2)⟩

/-- The scan comes to the row, or to one before it. -/
theorem Waits.next (waits : Waits receipt scan) (got : scan.rest = (user, count, value) :: rest) :
    (user, count, value) = receipt.row ∨ (user, count, value) ∈ receipt.before ∧
      ∃ between, between <:+ receipt.before ∧ rest = between ++ receipt.row :: receipt.after := by
  obtain ⟨between, suffix, eq⟩ := waits.rest
  rw [got] at eq
  cases between with
  | nil => exact .inl (List.cons.inj eq).1
  | cons head between =>
    obtain ⟨rfl, later⟩ := List.cons.inj eq
    exact .inr ⟨suffix.mem mem_cons_self, between, (suffix_cons _ _).trans suffix, later⟩

theorem heldBy_of_rowRead (mine : scan.room = receipt.room) (here : (user, count, value) = receipt.row)
    (read : RowRead around num { scan with rest := rest } user value scan' num') : HeldBy receipt scan' := by
  have isLocal := receipt.isLocal
  have readable := receipt.readable
  rw [← here] at isLocal readable
  cases read with
  | passed unreadable =>
    rw [unreadable isLocal] at readable
    cases readable
  | @entered data _ readable' =>
    refine ⟨room_enter.trans mine, holds_enter.mpr (.inr ⟨by rw [← here], ?_⟩)⟩
    exact Option.some.inj (Option.some.inj (readable.symm.trans readable'))

theorem Waits.rowRead (waits : Waits receipt scan) (mine : scan.room = receipt.room)
    (got : scan.rest = (user, count, value) :: rest)
    (read : RowRead around num { scan with rest := rest } user value scan' num') :
    HeldBy receipt scan' ∨ Waits receipt scan' := by
  rcases waits.next got with here | ⟨mem, between, suffix, eq⟩
  · exact .inl (heldBy_of_rowRead mine here read)
  · exact .inr ⟨⟨between, suffix, read.same.1.trans eq⟩, read.users_within mem waits.users⟩

theorem Pending.move (pending : Pending receipt state) {next : Selecting} (move : Move around state next) :
    Pending receipt next := by
  cases move with
  | @row before after scan scan' user count value rest num scans going got read =>
    refine forall_scan_row scans pending fun mine => ?_
    rw [read.same.2] at mine
    rcases pending scan (scans ▸ mem_append_right _ mem_cons_self) mine with held | waits
    · exact .inl (held.rowRead read)
    · exact waits.rowRead mine got read
  | _ => exact pending

/-- What a scan reads is below the receipt, unless the receipt is read by then. -/
theorem Low.next (low : Low receipt state) (pending : Pending receipt state) (mem : scan ∈ state.scans)
    (got : scan.rest = (user, count, value) :: rest) :
    count < receipt.row.2.1 ∨ HeldBy receipt scan ∨ scan.room = receipt.room ∧ (user, count, value) = receipt.row := by
  by_cases mine : scan.room = receipt.room
  · rcases pending scan mem mine with held | waits
    · exact .inr (.inl held)
    · rcases waits.next got with here | ⟨early, -⟩
      · exact .inr (.inr ⟨mine, here⟩)
      · exact .inl (low.before scan mem _ early)
  · exact .inl (low.rows scan mem mine (user, count, value) (got ▸ mem_cons_self))

theorem held_move (held : ∃ scan ∈ state.scans, HeldBy receipt scan) {next : Selecting} (move : Move around state next) :
    ∃ scan ∈ next.scans, HeldBy receipt scan := by
  cases move with
  | @row ahead behind scan scan' user count value rest num scans going got read =>
    obtain ⟨other, mem, held⟩ := held
    rw [scans, mem_append, mem_cons] at mem
    rcases mem with mem | rfl | mem
    · exact ⟨other, mem_append_left _ mem, held⟩
    · exact ⟨scan', mem_append_right _ mem_cons_self, held.rowRead read⟩
    · exact ⟨other, mem_append_right _ (mem_cons_of_mem _ mem), held⟩
  | _ => exact held

theorem Low.move (low : Low receipt state) (pending : Pending receipt state) {next : Selecting}
    (move : Move around state next) : (∃ scan ∈ next.scans, HeldBy receipt scan) ∨ Low receipt next := by
  cases move with
  | @change user count changes got seen =>
    exact .inr { low with
      max := max_lt low.max (low.changes (user, count) (got ▸ mem_cons_self))
      changes := fun change mem => low.changes change (got ▸ mem_cons_of_mem _ mem) }
  | @row ahead behind scan scan' user count value rest num scans going got read =>
    have mem : scan ∈ state.scans := scans ▸ mem_append_right _ mem_cons_self
    have here : scan' ∈ ahead ++ scan' :: behind := mem_append_right _ mem_cons_self
    rcases low.next pending mem got with below | held | ⟨mine, eq⟩
    · refine .inr { low with
        max := max_lt low.max below
        rows := forall_scan_row scans low.rows fun other row mem' => ?_
        before := forall_scan_row scans low.before (low.before scan mem) }
      rw [read.same.2] at other
      rw [read.same.1] at mem'
      exact low.rows scan mem other row (got ▸ mem_cons_of_mem _ mem')
    · exact .inl ⟨scan', here, held.rowRead read⟩
    · exact .inl ⟨scan', here, heldBy_of_rowRead mine eq read⟩
  | @panic scan user count value rest mem got isLocal unexpected =>
    rcases low.next pending mem got with below | held | ⟨-, eq⟩
    · exact .inr { low with max := max_lt low.max below }
    · exact .inl ⟨scan, mem, held⟩
    · have readable := receipt.readable
      rw [← eq, unexpected] at readable
      cases readable
  | @presenceRow user count update presenceRows presenceUpdates got undone =>
    exact .inr { low with
      max := max_lt low.max (low.presence (user, count, update) (got ▸ mem_cons_self))
      presence := fun row mem => low.presence row (got ▸ mem_cons_of_mem _ mem) }
  | _ => exact .inr { low with }

end ReceiptRow

end Selecting

/-! ## The count -/

section Watermark

variable (around : Surroundings) (tables : Tables) (since upper : UInt64) (budgetUsed : Nat)

def Selection.Carries (selection : Selection) (edu : Edu) : Prop :=
  edu ∈ selection.events ∧ edu ∈ selection.activeRows ∨ edu ∈ selection.queuedRows

structure DueReceipt (last : UInt64) (room : RoomId) (user : UserId) (data : ReceiptData) : Prop where
  shared : room ∈ around.rooms
  isLocal : around.userIsLocal user
  stored : ∃ row ∈ tables.receipts.rows, row.1.room = room ∧ row.1.user = user ∧ since < row.1.count ∧ row.1.count ≤ last ∧
    receiptOf user row.2 = some (some data)

structure Covers (selection : Selection) : Prop where
  changes : since < selection.educount → ∀ row ∈ tables.keyChanges.rows, row.1.userOrRoom ∈ around.rooms →
    around.userIsLocal row.2 → since < row.1.count → row.1.count ≤ selection.educount →
    selection.Carries (.deviceListUpdate row.2)
  receipts : since < selection.educount → ∀ room user data,
    DueReceipt around tables since selection.educount room user data → ∃ edu, selection.Carries edu ∧ edu.Tells room user data
  limit : budgetUsed + selection.events.length ≤ EDU_LIMIT

/-- The receipts of a room that are new, without those from a row of one room on. -/
def besides (room : RoomId) (before : List ReceiptItem) (other : RoomId) : List ReceiptItem :=
  if other = room then before else readreceiptsSince tables other since upper

def usersBesides (room : RoomId) (before : List ReceiptItem) : Nat :=
  (around.rooms.map fun other => (localUsers around (besides tables since upper room before other)).length).sum

/-- All that is new is below a count: the key changes of our users, presence, and the receipts before a row. -/
structure Below (room : RoomId) (before : List ReceiptItem) (count : UInt64) : Prop where
  changes : ∀ other ∈ around.rooms, ∀ change ∈ roomKeysChanged tables other since upper, around.userIsLocal change.1 →
    change.2 < count
  presence : around.allowOutgoingPresence → ∀ row ∈ presenceSince tables since upper, row.2.1 < count
  receipts : around.allowOutgoingReadReceipts → ∀ other ∈ around.rooms,
    ∀ row ∈ besides tables since upper room before other, row.2.1 < count

/-- No receipt is left behind: each has few enough users before it, or nothing else that would pass it. -/
def Safe : Prop :=
  ∀ room ∈ around.rooms, ∀ index : Fin (readreceiptsSince tables room since upper).length,
    let row := (readreceiptsSince tables room since upper).get index
    let before := (readreceiptsSince tables room since upper).take index
    around.userIsLocal row.1 → ((receiptOf row.1 row.2.2).getD none).isSome →
      around.allowOutgoingReadReceipts ∧ usersBesides around tables since upper room before ≤ SELECT_RECEIPT_LIMIT ∨
        Below around tables since upper room before row.2.1

variable {around tables since upper budgetUsed}

theorem mem_readreceiptsSince {room : RoomId} {row : ReceiptId × StoredReceipt} (mem : row ∈ tables.receipts.rows)
    (inRoom : row.1.room = room) (above : since < row.1.count) (bound : row.1.count ≤ upper) :
    (row.1.user, row.1.count, row.2) ∈ readreceiptsSince tables room since upper := by
  refine mem_map_of_mem (f := fun row : ReceiptId × StoredReceipt => (row.1.user, row.1.count, row.2)) ?_
  rw [mem_rowsBetween ReceiptId.bytes_eq ReceiptId.lt_iff]
  exact ⟨mem, inRoom, saturatingAdd64_one_le above, bound⟩

theorem mem_changes {row : KeyChangeId × UserId} (mem : row ∈ tables.keyChanges.rows)
    (shared : row.1.userOrRoom ∈ around.rooms) (isLocal : around.userIsLocal row.2) (above : since < row.1.count)
    (bound : row.1.count ≤ upper) : (row.2, row.1.count) ∈ (beginSelect around tables since upper budgetUsed).changes := by
  refine mem_filter.mpr ⟨mem_flatMap.mpr ⟨_, shared, ?_⟩, isLocal⟩
  refine mem_map_of_mem (f := fun row : KeyChangeId × UserId => (row.2, row.1.count)) ?_
  rw [mem_rowsBetween bytes_eq lt_iff]
  exact ⟨mem, rfl, saturatingAdd64_one_le above, bound⟩

namespace Selecting

variable {first state : Selecting} {user : UserId} {room : RoomId} {data : ReceiptData}

theorem counted_beginSelect : Counted (beginSelect around tables since upper budgetUsed) upper
    (beginSelect around tables since upper budgetUsed) where
  bounded := le_max_left _ _
  changesBelow change mem := by
    obtain ⟨room, -, member⟩ := mem_flatMap.mp (mem_filter.mp mem).1
    obtain ⟨row, got, rfl⟩ := mem_map.mp member
    exact ((mem_rowsBetween bytes_eq lt_iff).mp got).2.2.2
  rowsBelow scan mem row member := by
    simp only [beginSelect] at mem
    split at mem
    · obtain ⟨room, -, rfl⟩ := mem_map.mp mem
      obtain ⟨row, got, rfl⟩ := mem_map.mp member
      exact ((mem_rowsBetween ReceiptId.bytes_eq ReceiptId.lt_iff).mp got).2.2.2
    · cases mem
  presenceBelow row mem := by
    simp only [beginSelect] at mem
    split at mem
    · obtain ⟨row, got, rfl⟩ := mem_map.mp mem
      simpa using (Bool.and_eq_true_iff.mp (mem_filter.mp got).2).2
    · cases mem
  changes change mem := .inl mem
  sent user mem := by cases mem
  onlyChanges edu mem := by cases mem
  fits some := by
    have none : (beginSelect around tables since upper budgetUsed).shippedLen = 0 := by
      simp only [shippedLen, beginSelect]
      split <;> split <;> rfl
    rw [none]
    exact le_min (le_refl _) some

theorem mem_scans_beginSelect {scan : RoomScan} (mem : scan ∈ (beginSelect around tables since upper budgetUsed).scans) :
    around.allowOutgoingReadReceipts ∧ scan.room ∈ around.rooms ∧
      scan = ⟨scan.room, readreceiptsSince tables scan.room since upper, [], false⟩ := by
  simp only [beginSelect] at mem
  split at mem
  next allowed =>
    obtain ⟨room, shared, rfl⟩ := mem_map.mp mem
    exact ⟨allowed, shared, rfl⟩
  · cases mem

theorem scanned_beginSelect : Scanned around (fun room => readreceiptsSince tables room since upper)
    (if around.allowOutgoingReadReceipts then around.rooms else [])
    (beginSelect around tables since upper budgetUsed) := by
  constructor
  case rooms =>
    simp only [beginSelect]
    split <;> simp [Function.comp_def]
  case scans =>
    intro scan mem
    obtain ⟨-, -, eq⟩ := mem_scans_beginSelect mem
    rw [eq]
    exact ⟨nodup_nil, nofun, fun _ mem => mem⟩
  case num =>
    simp only [beginSelect]
    split <;> simp [users, Function.comp_def]
  case full =>
    intro scan mem stopped
    rw [(mem_scans_beginSelect mem).2.2] at stopped
    cases stopped
  case receipts =>
    simp only [beginSelect]
    split
    · simp
    · rintro _ ⟨⟩
      simp [receiptEdus, Selected.all]

section

variable (ok : Counted first upper state)
include ok

theorem carries_tells_iff {window : RoomId → List ReceiptItem} {rooms : List RoomId}
    (scanned : Scanned around window rooms state) (finished : state.finished) :
    (∃ edu, (state.selection since).Carries edu ∧ edu.Tells room user data) ↔
      ∃ scan ∈ state.scans, scan.room = room ∧ scan.Holds user data := by
  simp only [Selecting.finished, Bool.and_eq_true] at finished
  obtain ⟨selected, done⟩ := Option.isSome_iff_exists.mp finished.1.2
  have made := (scanned.receipts selected done).2
  rw [← receiptEdus_tells]
  constructor
  · rintro ⟨edu, got, tells⟩
    have source : edu ∈ state.devices.all ∨ edu ∈ selected.all := by
      simp only [Selection.Carries, selection, done, mem_append] at got
      simp only [Selected.all, mem_append]
      tauto
    rcases source with change | receipt
    · obtain ⟨changed, rfl⟩ := ok.onlyChanges edu change
      exact tells.elim
    · exact ⟨edu, (made edu).mp receipt, tells⟩
  · rintro ⟨edu, mem, tells⟩
    refine ⟨edu, ?_, tells⟩
    simp only [Selection.Carries, selection, done, mem_append]
    have member := (made edu).mpr mem
    simp only [Selected.all, mem_append] at member
    tauto

theorem carries_change (finished : state.finished) {count : UInt64} (due : (user, count) ∈ first.changes) :
    (state.selection since).Carries (.deviceListUpdate user) := by
  simp only [Selecting.finished, Bool.and_eq_true, List.isEmpty_iff] at finished
  have met := (ok.changes _ due).resolve_left (by simp [finished.1.1.2])
  have sent := ok.sent _ met.1
  simp only [Selected.all, mem_append] at sent
  simp only [Selection.Carries, selection, mem_append]
  tauto

theorem educount_le (pre : first.maxEduCount = since) (raised : since < (state.selection since).educount) :
    (state.selection since).educount ≤ upper := by
  have bounded := ok.bounded
  simp only [selection] at raised ⊢
  split at raised
  next above =>
    rw [if_pos above]
    rw [pre] at bounded
    exact (le_max_iff.mp bounded).resolve_left (not_le.mpr above)
  · exact absurd raised (lt_irrefl _)

end

/-! ### A receipt with few users before it, or with nothing that passes it -/

variable {receipt : ReceiptRow around}

theorem pending_beginSelect (window : readreceiptsSince tables receipt.room since upper =
    receipt.before ++ receipt.row :: receipt.after) : Pending receipt (beginSelect around tables since upper budgetUsed) := by
  intro scan mem mine
  obtain ⟨-, -, eq⟩ := mem_scans_beginSelect mem
  refine .inr ⟨⟨receipt.before, suffix_rfl, ?_⟩, ?_⟩
  · rw [eq, mine]
    exact window
  · rw [eq]
    exact nofun

theorem low_beginSelect (shared : receipt.room ∈ around.rooms) (above : since < receipt.row.2.1)
    (below : Below around tables since upper receipt.room receipt.before receipt.row.2.1) :
    Low receipt (beginSelect around tables since upper budgetUsed) where
  max := above
  changes change mem := by
    obtain ⟨mem, isLocal⟩ := mem_filter.mp mem
    obtain ⟨room, shared, member⟩ := mem_flatMap.mp mem
    exact below.changes room shared change member isLocal
  presence row mem := by
    simp only [beginSelect] at mem
    split at mem
    next allowed => exact below.presence allowed row mem
    · cases mem
  rows scan mem other row member := by
    obtain ⟨allowed, shared, eq⟩ := mem_scans_beginSelect mem
    refine below.receipts allowed scan.room shared row ?_
    rw [besides, if_neg other]
    rwa [eq] at member
  before scan mem row early := by
    refine below.receipts (mem_scans_beginSelect mem).1 receipt.room shared row ?_
    rwa [besides, if_pos rfl]

/-- With few users besides, no scan stops before it comes to the row. -/
theorem Scanned.held (scanned : Scanned around (fun room => readreceiptsSince tables room since upper) around.rooms state)
    (finished : state.finished) (pending : Pending receipt state) (shared : receipt.room ∈ around.rooms)
    (few : usersBesides around tables since upper receipt.room receipt.before ≤ SELECT_RECEIPT_LIMIT) :
    ∃ scan ∈ state.scans, HeldBy receipt scan := by
  by_contra none
  obtain ⟨scan, mem, mine⟩ := mem_map.mp (scanned.rooms ▸ shared)
  have waits {scan : RoomScan} (mem : scan ∈ state.scans) (mine : scan.room = receipt.room) : Waits receipt scan :=
    (pending scan mem mine).resolve_left fun held => none ⟨scan, mem, held⟩
  have met : state.num ≤ usersBesides around tables since upper receipt.room receipt.before := by
    rw [scanned.num, usersBesides, ← scanned.rooms, map_map]
    refine sum_le_sum fun other mem => ?_
    have sound := scanned.scans other mem
    refine (subperm_of_subset sound.nodup fun user met => ?_).length_le
    simp only [besides]
    split
    next mine => exact (waits mem mine).users user met
    · exact sound.within user met
  have going : scan.stopped = false := by
    rw [Bool.eq_false_iff]
    intro stopped
    have full := scanned.full scan mem stopped
    omega
  simp only [Selecting.finished, Bool.and_eq_true] at finished
  obtain ⟨selected, done⟩ := Option.isSome_iff_exists.mp finished.1.2
  have all := all_eq_true.mp (scanned.receipts selected done).1 scan mem
  obtain ⟨between, -, eq⟩ := (waits mem mine).rest
  simp [RoomScan.finished, going, eq] at all

/-- With nothing else that passes it, the count stays below the receipt until it is read. -/
theorem held_or_low (window : readreceiptsSince tables receipt.room since upper =
      receipt.before ++ receipt.row :: receipt.after) (shared : receipt.room ∈ around.rooms)
    (above : since < receipt.row.2.1) (below : Below around tables since upper receipt.room receipt.before receipt.row.2.1)
    (turns : List Turn) :
    (∃ scan ∈ (run (step around) (beginSelect around tables since upper budgetUsed) turns).scans, HeldBy receipt scan) ∨
      Low receipt (run (step around) (beginSelect around tables since upper budgetUsed) turns) := by
  refine (@run_of_moves around _ (fun state => Pending receipt state ∧
    ((∃ scan ∈ state.scans, HeldBy receipt scan) ∨ Low receipt state)) ?_
    ⟨pending_beginSelect window, .inr (low_beginSelect shared above below)⟩ turns).2
  rintro state next move ⟨pending, held | low⟩
  · exact ⟨pending.move move, .inl (held_move held move)⟩
  · exact ⟨pending.move move, low.move pending move⟩

end Selecting

theorem selectEdus_eq_some {turns : List Turn} {selection : Selection}
    (returns : selectEdus around tables since upper budgetUsed turns = some selection) :
    since = upper ∧ selection = ⟨[], [], [], since⟩ ∨
      ∃ last : Selecting, last = run (step around) (beginSelect around tables since upper budgetUsed) turns ∧
        last.finished ∧ selection = last.selection since ∧
        Selecting.Counted (beginSelect around tables since upper budgetUsed) upper last ∧
        Selecting.Scanned around (fun room => readreceiptsSince tables room since upper)
          (if around.allowOutgoingReadReceipts then around.rooms else []) last := by
  simp only [selectEdus] at returns
  split at returns
  next eq =>
    exact .inl ⟨eq, (Option.some.inj returns).symm⟩
  · split at returns
    next finished =>
      exact .inr ⟨_, rfl, finished, (Option.some.inj returns).symm,
        run_of_moves (fun _ _ move ok => ok.move move) counted_beginSelect turns,
        run_of_moves (fun _ _ move scanned => scanned.move move) scanned_beginSelect turns⟩
    · cases returns

theorem covers_of_safe {turns : List Turn} {selection : Selection} (budget : budgetUsed ≤ EDU_LIMIT)
    (safe : Safe around tables since upper)
    (returns : selectEdus around tables since upper budgetUsed turns = some selection) :
    Covers around tables since budgetUsed selection := by
  rcases selectEdus_eq_some returns with ⟨rfl, rfl⟩ | ⟨last, reached, finished, rfl, counted, scanned⟩
  · exact ⟨fun raised => absurd raised (lt_irrefl _), fun raised => absurd raised (lt_irrefl _), by simpa using budget⟩
  refine ⟨fun raised row mem shared isLocal above bound => ?_, fun raised room user data due => ?_, ?_⟩
  · have hit := educount_le counted rfl raised
    exact carries_change counted finished (mem_changes mem shared isLocal above (bound.trans hit))
  · obtain ⟨shared, isLocal, stored, mem, inRoom, rfl, above, bound, readable⟩ := due
    have member := mem_readreceiptsSince mem inRoom above (bound.trans (educount_le counted rfl raised))
    obtain ⟨index, got⟩ := mem_iff_get.mp member
    let receipt : Selecting.ReceiptRow around :=
      ⟨room, (readreceiptsSince tables room since upper).take index, (stored.1.user, stored.1.count, stored.2),
        (readreceiptsSince tables room since upper).drop (index + 1), data, isLocal, readable⟩
    have window : readreceiptsSince tables room since upper = receipt.before ++ receipt.row :: receipt.after := by
      have split := take_append_drop index (readreceiptsSince tables room since upper)
      rw [drop_eq_getElem_cons index.2] at split
      exact split.symm.trans (congrArg (receipt.before ++ · :: receipt.after) got)
    have pending : Selecting.Pending receipt last := by
      rw [reached]
      exact run_of_moves (fun _ _ move pending => pending.move move) (pending_beginSelect window) turns
    rw [carries_tells_iff counted scanned finished]
    have here := safe room shared index
    simp only [got] at here
    rcases here isLocal (by simp [readable]) with ⟨allowed, few⟩ | below
    · rw [if_pos allowed] at scanned
      exact scanned.held finished pending shared few
    · have last := @Selecting.held_or_low _ _ _ _ budgetUsed receipt window shared above below turns
      rw [← reached] at last
      refine last.resolve_right fun low => bound.not_gt ?_
      simp only [selection]
      split
      · exact low.max
      · exact above
  · have room := counted.fits budget
    have size : (last.selection since).events.length = last.shippedLen := by
      simp [selection, shippedLen, Nat.add_assoc]
    rw [size]
    exact room.trans (min_le_right _ _)

/-- A call of the sender for one server: what it finds in the tables and around them, and how its selectors take turns. -/
structure EduCall where
  around : Surroundings
  tables : Tables
  upper : UInt64
  budgetUsed : Nat
  turns : List Turn

namespace EduCall

variable (since : UInt64)

variable (call : EduCall)

def select : Option Selection :=
  selectEdus call.around call.tables since call.upper call.budgetUsed call.turns

/-- The count stored for the server; a call that does not return stores none. -/
def step : UInt64 := (call.select since).elim since Selection.educount

def Fits : Prop :=
  call.budgetUsed ≤ EDU_LIMIT ∧ Safe call.around call.tables since call.upper

end EduCall

/-- No count passes anything unsent, in any sequence of calls that start within the budget and find no receipt that can be
left behind. -/
theorem edu_count_covers (since : UInt64) (calls : List EduCall) (fits : Admits EduCall.step EduCall.Fits since calls) :
    Admits EduCall.step (fun since call => ∀ selection, call.select since = some selection →
      Covers call.around call.tables since call.budgetUsed selection) since calls :=
  fits.imp_of_keeps (fun _ _ (_ : True) _ => trivial) (fun _ _ _ fits _ returns => covers_of_safe fits.1 fits.2 returns)
    trivial

end Watermark

def oneRoom : Surroundings where
  ours := "s"
  rooms := ["!r:s"]
  distinct := by simp
  serverSeesUser _ := true
  allowOutgoingReadReceipts := true
  allowOutgoingPresence := true

def oneTables : Tables where
  keyChanges := empty
  receipts := empty.put ⟨"!r:s", 1, "@a:s", some ""⟩ (.event (oneReceipt "!r:s" "@a:s" "$e" ⟨none, .unthreaded⟩))
  presence := empty

/-- Later a second user has read the event, and has a new device. -/
def laterTables : Tables where
  keyChanges := empty.put ⟨"!r:s", 3⟩ "@b:s"
  receipts := oneTables.receipts.put ⟨"!r:s", 2, "@b:s", some ""⟩ (.event (oneReceipt "!r:s" "@b:s" "$e" ⟨none, .unthreaded⟩))
  presence := empty

def firstCall : EduCall := ⟨oneRoom, oneTables, 1, 0, [.presence, .receiptsRoom 0, .receipts]⟩

def laterCall : EduCall := ⟨oneRoom, laterTables, 3, 99, [.receiptsRoom 0, .presence, .receipts, .deviceChanges]⟩

/-- The second call has place for one more event, and queues the other one. -/
theorem edu_count_covers_two :
    ∃ first second, firstCall.select 0 = some first ∧ laterCall.select first.educount = some second ∧
      Covers oneRoom oneTables 0 0 first ∧ Covers oneRoom laterTables first.educount 99 second ∧
      second.queuedRows = [.deviceListUpdate "@b:s"] := by
  have fits : EduCall.Fits 0 firstCall := by
    refine ⟨by decide, fun room shared index _ _ => .inl ⟨rfl, ?_⟩⟩
    revert room
    decide +kernel
  have fits' : EduCall.Fits 1 laterCall := by
    refine ⟨by decide, fun room shared index _ _ => .inl ⟨rfl, ?_⟩⟩
    revert room
    decide +kernel
  have stored : EduCall.step 0 firstCall = 1 := by decide +kernel
  obtain ⟨covers, covers', -⟩ := edu_count_covers 0 [firstCall, laterCall] ⟨fits, stored.symm ▸ fits', trivial⟩
  rw [stored] at covers'
  refine ⟨⟨[.receipt [("!r:s", [("@a:s", ⟨⟨none, .unthreaded⟩, ["$e"]⟩)])]],
    [.receipt [("!r:s", [("@a:s", ⟨⟨none, .unthreaded⟩, ["$e"]⟩)])]], [], 1⟩,
    ⟨[.receipt [("!r:s", [("@b:s", ⟨⟨none, .unthreaded⟩, ["$e"]⟩)])]],
    [.receipt [("!r:s", [("@b:s", ⟨⟨none, .unthreaded⟩, ["$e"]⟩)])]], [.deviceListUpdate "@b:s"], 3⟩, ?_, ?_, ?_⟩
  · decide +kernel
  · decide +kernel
  · exact ⟨covers _ (by decide +kernel), covers' _ (by decide +kernel), rfl⟩

/-! ## Too many receipts -/

def crowdUser (number : Nat) : UserId := String.ofList ['@', Char.ofNat (number + 97), ':', 's']

def crowdRoom (number : Nat) : RoomId := String.ofList ['!', Char.ofNat (number + 97), ':', 's']

def crowd : Surroundings := { oneRoom with
  rooms := (List.range 17).map crowdRoom
  distinct := by decide +kernel }

/-- Sixteen users in sixteen rooms, and two of them in one more. -/
def crowdReceipts : ReceiptTable where
  rows := (List.range 258).map fun number =>
    let room := crowdRoom (number / 16)
    let user := crowdUser (number % 16)
    (⟨room, UInt64.ofNat (number + 1), user, some ""⟩, .event (oneReceipt room user "$e" ⟨none, .unthreaded⟩))
  ordered := by
    refine (pairwise_map (f := Prod.fst)).mp (isChain_iff_pairwise.mp ?_)
    decide +kernel

def crowdTables : Tables where
  keyChanges := empty.put ⟨crowdRoom 0, 300⟩ (crowdUser 0)
  receipts := crowdReceipts
  presence := empty

def crowdTurns : List Turn :=
  .deviceChanges :: .presence :: ((List.range 257).map fun number => .receiptsRoom (number / 16)) ++ [.receipts]

def Edu.names (room : RoomId) (user : UserId) : Edu → Bool
  | .receipt receipts => receipts.any fun entry => entry.1 = room && entry.2.any fun told => told.1 = user
  | _ => false

theorem Edu.Tells.names {room : RoomId} {user : UserId} {data : ReceiptData} {edu : Edu} (tells : edu.Tells room user data) :
    edu.names room user := by
  cases edu with
  | receipt receipts =>
    obtain ⟨map, inRoom, told⟩ := tells
    have inMap : map.any fun told => told.1 = user := any_eq_true.mpr ⟨_, told, decide_eq_true rfl⟩
    exact any_eq_true.mpr ⟨_, inRoom, by simpa using inMap⟩
  | _ => exact tells.elim

/-- The scan of the last room stops at the first user, and a new device takes the count past the second. -/
theorem crowd_passed : (selectEdus crowd crowdTables 0 300 0 crowdTurns).any fun selection => selection.educount = 300 &&
    !(selection.events ++ selection.queuedRows).any (Edu.names (crowdRoom 16) (crowdUser 1)) := by
  decide +kernel

/-- A receipt is below the server's new count and neither sent nor queued. -/
theorem receipt_passed_unsent : ∃ turns selection, selectEdus crowd crowdTables 0 300 0 turns = some selection ∧
    0 < selection.educount ∧ ∃ room user data, DueReceipt crowd crowdTables 0 selection.educount room user data ∧
      ¬∃ edu, selection.Carries edu ∧ edu.Tells room user data := by
  obtain ⟨selection, returns, passed⟩ := (Option.any_eq_true _ _).mp crowd_passed
  obtain ⟨stored, unsent⟩ : selection.educount = 300 ∧ _ := by
    rwa [Bool.and_eq_true, decide_eq_true_eq] at passed
  refine ⟨crowdTurns, selection, returns, ?_⟩
  rw [stored]
  have due : DueReceipt crowd crowdTables 0 300 (crowdRoom 16) (crowdUser 1) ⟨⟨none, .unthreaded⟩, ["$e"]⟩ :=
    ⟨by decide +kernel, by decide +kernel, _, mem_map_of_mem (mem_range.mpr (by decide : 257 < 258)), rfl, rfl, by decide +kernel⟩
  refine ⟨by decide, _, _, _, due, ?_⟩
  rintro ⟨edu, carries, tells⟩
  have mem : edu ∈ selection.events ++ selection.queuedRows := mem_append.mpr (carries.imp_left And.left)
  exact absurd (any_eq_true.mpr ⟨edu, mem, tells.names⟩) (by simpa using unsent)

end Wbfuwunel.Sending
