import Wbfuwunel.Foundation.Positions
import Wbfuwunel.Sending.Edus

/-! What one turn of a selector does. -/

set_option autoImplicit false

namespace Wbfuwunel.Sending

open Foundation Database Rooms List

/-! ## Ranks -/

def Edu.Tells (room : RoomId) (user : UserId) (data : ReceiptData) : Edu → Prop
  | .receipt receipts => ∃ map, (room, map) ∈ receipts ∧ (user, data) ∈ map
  | _ => False

namespace RoomScan

def Holds (scan : RoomScan) (user : UserId) (data : ReceiptData) : Prop := ∃ slot ∈ scan.byUser, slot.1 = user ∧ data ∈ slot.2

variable {scan : RoomScan} {full : Bool} {u : UserId} {data : ReceiptData}

@[simp] theorem rest_enter : (scan.enter full u data).rest = scan.rest := by
  rw [enter]
  split <;> rfl

@[simp] theorem room_enter : (scan.enter full u data).room = scan.room := by
  rw [enter]
  split <;> rfl

theorem stopped_enter : (scan.enter full u data).stopped = if u ∈ scan.users then scan.stopped else full := by
  rw [enter]
  split <;> rfl

theorem users_enter : (scan.enter full u data).users = if u ∈ scan.users then scan.users else scan.users ++ [u] := by
  rw [enter]
  split
  · rw [users, map_map]
    congr 1
    funext slot
    simp only [Function.comp_apply]
    split <;> rfl
  · simp [users]

theorem holds_enter {o : UserId} {data' : ReceiptData} :
    (scan.enter full u data).Holds o data' ↔ scan.Holds o data' ∨ o = u ∧ data' = data := by
  rw [enter]
  split
  next met =>
    obtain ⟨mine, mem, same⟩ := mem_map.mp met
    simp only [Holds, mem_map]
    constructor
    · rintro ⟨_, ⟨slot, mem', rfl⟩, rfl, held⟩
      by_cases equal : slot.1 = u
      · simp only [equal, if_true, mem_append, mem_singleton] at held ⊢
        exact held.imp (fun held => ⟨slot, mem', equal, held⟩) fun held => ⟨trivial, held⟩
      · simp only [equal] at held ⊢
        exact .inl ⟨slot, mem', rfl, held⟩
    · rintro (⟨slot, mem', rfl, held⟩ | ⟨rfl, rfl⟩)
      · refine ⟨_, ⟨slot, mem', rfl⟩, ?_⟩
        split
        · exact ⟨rfl, mem_append_left _ held⟩
        · exact ⟨rfl, held⟩
      · exact ⟨_, ⟨mine, mem, rfl⟩, by simp [same]⟩
  · simp only [Holds, mem_append, mem_singleton, or_and_right, exists_or]
    refine or_congr_right ⟨?_, ?_⟩
    · rintro ⟨_, rfl, rfl, held⟩
      exact ⟨rfl, by simpa using held⟩
    · rintro ⟨rfl, rfl⟩
      exact ⟨_, rfl, rfl, by simp⟩

end RoomScan

theorem mem_placeRanks (u : UserId) (ranks : List ReceiptMap) (receipts : List ReceiptData) (entry : UserId × ReceiptData) :
    (∃ rank ∈ placeRanks u ranks receipts, entry ∈ rank) ↔
      (∃ rank ∈ ranks, entry ∈ rank) ∨ entry.1 = u ∧ entry.2 ∈ receipts := by
  fun_induction placeRanks u ranks receipts with
  | case1 ranks => simp
  | case2 data receipts ih =>
    simp only [mem_cons, or_and_right, exists_or, exists_eq_left, ih, Prod.ext_iff]
    tauto
  | case3 rank ranks data receipts ih =>
    simp only [mem_cons, or_and_right, exists_or, exists_eq_left, ih, mem_append, Prod.ext_iff, not_mem_nil, or_false]
    rw [and_or_left]
    exact or_or_or_comm

theorem mem_foldl_placeRanks (byUser : List (UserId × List ReceiptData)) (ranks : List ReceiptMap)
    (x : UserId × ReceiptData) :
    (∃ rank ∈ byUser.foldl (fun ranks slot => placeRanks slot.1 ranks slot.2) ranks, x ∈ rank) ↔
      (∃ rank ∈ ranks, x ∈ rank) ∨ ∃ slot ∈ byUser, slot.1 = x.1 ∧ x.2 ∈ slot.2 := by
  induction byUser generalizing ranks with
  | nil => simp
  | cons slot byUser ih =>
    rw [foldl_cons, ih, mem_placeRanks]
    simp only [mem_cons, or_and_right, exists_or, exists_eq_left, or_assoc, @eq_comm _ x.1]

variable {user : UserId} {data : ReceiptData}

theorem mem_rankedReceipts {scan : RoomScan} :
    (∃ rank ∈ rankedReceipts scan.byUser, (user, data) ∈ rank) ↔ scan.Holds user data := by
  rw [rankedReceipts, mem_foldl_placeRanks]
  simp [RoomScan.Holds]

theorem le_foldr_max {numbers : List Nat} {n : Nat} (mem : n ∈ numbers) : n ≤ numbers.foldr max 0 := by
  induction numbers with
  | nil => cases mem
  | cons a numbers ih =>
    rcases mem_cons.mp mem with rfl | mem
    · exact le_max_left _ _
    · exact (ih mem).trans (le_max_right _ _)

theorem receiptEdus_tells {scans : List RoomScan} {r : RoomId} :
    (∃ edu ∈ receiptEdus scans, edu.Tells r user data) ↔ ∃ scan ∈ scans, scan.room = r ∧ scan.Holds user data := by
  simp only [receiptEdus]
  constructor
  · rintro ⟨edu, mem, tells⟩
    obtain ⟨rank, -, made⟩ := mem_filterMap.mp mem
    split at made
    · cases made
    · obtain rfl := Option.some.inj made
      obtain ⟨map, inRank, told⟩ := tells
      obtain ⟨x, mem', found⟩ := mem_filterMap.mp inRank
      obtain ⟨map', atRank, same⟩ := Option.map_eq_some_iff.mp found
      obtain ⟨rfl, rfl⟩ := Prod.mk.inj same
      obtain ⟨scan, member, rfl⟩ := mem_map.mp (mem_filter.mp mem').1
      exact ⟨scan, member, rfl, mem_rankedReceipts.mp ⟨_, mem_of_getElem? atRank, told⟩⟩
  · rintro ⟨scan, member, rfl, held⟩
    obtain ⟨map, mem, told⟩ := mem_rankedReceipts.mpr held
    obtain ⟨rank, lt, atRank⟩ := mem_iff_getElem.mp mem
    set byRoom := (scans.map fun scan => (scan.room, rankedReceipts scan.byUser)).filter fun x => !x.2.isEmpty
      with byRoom_def
    have x : (scan.room, rankedReceipts scan.byUser) ∈ byRoom := by
      refine mem_filter.mpr ⟨mem_map_of_mem member, ?_⟩
      have filled : rankedReceipts scan.byUser ≠ [] := ne_nil_of_mem mem
      simpa using filled
    have inRank : (scan.room, map) ∈ byRoom.filterMap fun x => x.2[rank]?.map fun map => (x.1, map) :=
      mem_filterMap.mpr ⟨_, x, by simp [getElem?_eq_getElem lt, atRank]⟩
    have hit : rank < (byRoom.map fun x => x.2.length).foldr max 0 :=
      lt_of_lt_of_le lt (le_foldr_max (mem_map_of_mem (f := fun x => x.2.length) x))
    refine ⟨.receipt _, mem_filterMap.mpr ⟨rank, mem_range.mpr hit, ?_⟩, map, inRank, told⟩
    rw [if_neg (by simpa using ne_nil_of_mem inRank)]

/-! ## What a turn does -/

def Selected.all (selected : Selected) : List Edu := selected.shipped ++ selected.overflow

def Selected.pushAll (eventsLen : Nat) (edus : List Edu) : Selected × Nat :=
  edus.foldl (fun selected edu => selected.1.push selected.2 edu) (⟨[], []⟩, eventsLen)

namespace Selected

variable {eventsLen : Nat} {sel : Selected} {edu o : Edu} {used : Nat}

theorem mem_all_push : o ∈ (sel.push eventsLen edu).1.all ↔ o ∈ sel.all ∨ o = edu := by
  rw [push]
  split
  · simp [all, or_assoc]
  · split
    · simp [all, or_assoc]
    · simp [all, or_assoc, @or_comm (o = edu)]

theorem push_fits (fits : used + sel.shipped.length ≤ min eventsLen EDU_LIMIT) :
    used + (sel.push eventsLen edu).1.shipped.length ≤ min (sel.push eventsLen edu).2 EDU_LIMIT := by
  rw [push]
  split
  · exact fits
  · split
    · simp only
      omega
    · simp only [length_append, length_singleton]
      omega

theorem mem_all_pushAll {edus : List Edu} : o ∈ (pushAll eventsLen edus).1.all ↔ o ∈ edus := by
  suffices ∀ sel : Selected × Nat, o ∈ (edus.foldl (fun sel edu => sel.1.push sel.2 edu) sel).1.all ↔
      o ∈ sel.1.all ∨ o ∈ edus by simpa [pushAll, all] using this (⟨[], []⟩, eventsLen)
  induction edus with
  | nil => simp
  | cons edu edus ih =>
    intro sel
    rw [foldl_cons, ih, mem_all_push]
    simp [or_assoc]

theorem pushAll_fits (edus : List Edu) (fits : used ≤ min eventsLen EDU_LIMIT) :
    used + (pushAll eventsLen edus).1.shipped.length ≤ min (pushAll eventsLen edus).2 EDU_LIMIT := by
  suffices ∀ sel : Selected × Nat, used + sel.1.shipped.length ≤ min sel.2 EDU_LIMIT →
      used + (edus.foldl (fun sel edu => sel.1.push sel.2 edu) sel).1.shipped.length ≤
        min (edus.foldl (fun sel edu => sel.1.push sel.2 edu) sel).2 EDU_LIMIT by
    exact this (⟨[], []⟩, eventsLen) fits
  induction edus with
  | nil => exact fun _ fits => fits
  | cons edu edus ih => exact fun sel fits => ih _ (push_fits fits)

end Selected

namespace Selecting

variable {around : Surroundings}

inductive RowRead (around : Surroundings) (num : Nat) (scan : RoomScan) (user : UserId) (value : StoredReceipt) :
    RoomScan → Nat → Prop
  | passed : (around.userIsLocal user → receiptOf user value = some none) → RowRead around num scan user value scan num
  | entered {data : ReceiptData} : around.userIsLocal user → receiptOf user value = some (some data) →
      RowRead around num scan user value (scan.enter (num ≥ SELECT_RECEIPT_LIMIT) user data)
        (if user ∈ scan.users then num else num + 1)

variable {scan : RoomScan} {state : Selecting} {scan' : RoomScan}

theorem RowRead.same {num num' : Nat} {user : UserId} {v : StoredReceipt}
    (read : RowRead around num scan user v scan' num') : scan'.rest = scan.rest ∧ scan'.room = scan.room := by
  cases read <;> simp

inductive Move (around : Surroundings) (state : Selecting) : Selecting → Prop
  | idle : Move around state state
  | report {user : UserId} : Move around state { state with
        deviceListChanges := user :: state.deviceListChanges
        devices := (state.devices.push state.eventsLen (.deviceListUpdate user)).1
        eventsLen := (state.devices.push state.eventsLen (.deviceListUpdate user)).2 }
  | change {user : UserId} {count : UInt64} {changes : List (UserId × UInt64)} :
      state.changes = (user, count) :: changes → user ∈ state.deviceListChanges →
      Move around state { state with changes := changes, maxEduCount := max state.maxEduCount count }
  | row {before after : List RoomScan} {scan scan' : RoomScan} {user : UserId} {count : UInt64} {value : StoredReceipt}
      {rest : List ReceiptItem} {num : Nat} :
      state.scans = before ++ scan :: after → scan.stopped = false → scan.rest = (user, count, value) :: rest →
      RowRead around state.num { scan with rest := rest } user value scan' num →
      Move around state { state with
        maxEduCount := max state.maxEduCount count
        num := num
        scans := before ++ scan' :: after }
  | panic {scan : RoomScan} {user : UserId} {count : UInt64} {value : StoredReceipt} {rest : List ReceiptItem} :
      scan ∈ state.scans → scan.rest = (user, count, value) :: rest → around.userIsLocal user → receiptOf user value = none →
      Move around state { state with maxEduCount := max state.maxEduCount count, panicked := true }
  | ranked : state.receipts = none → state.scans.all RoomScan.finished → Move around state { state with
        receipts := some (Selected.pushAll state.eventsLen (receiptEdus state.scans)).1
        eventsLen := (Selected.pushAll state.eventsLen (receiptEdus state.scans)).2 }
  | presenceRow {user : UserId} {count : UInt64} {update : Option PresenceUpdate}
      {presenceRows : List (UserId × UInt64 × Option PresenceUpdate)} {presenceUpdates : List (UserId × PresenceUpdate)} :
      state.presenceRows = (user, count, update) :: presenceRows → state.presence = none →
      Move around state { state with
        presenceRows := presenceRows
        presenceUpdates := presenceUpdates
        maxEduCount := max state.maxEduCount count }
  | presenceDone {eventsLen : Nat} {sent : Option Edu} : state.presence = none → state.eventsLen ≤ eventsLen →
      (sent.isSome → state.eventsLen < min eventsLen EDU_LIMIT) →
      Move around state { state with eventsLen := eventsLen, presence := some sent }

theorem move_deviceChangesTurn (state : Selecting) :
    ∃ middle, Move around state middle ∧ Move around middle state.deviceChangesTurn := by
  rw [deviceChangesTurn]
  split
  · exact ⟨state, .idle, .idle⟩
  next user n changes next =>
    dsimp only
    split
    next seen =>
      exact ⟨state, .idle, .change next seen⟩
    next new =>
      exact ⟨_, @Move.report around state user, .change next mem_cons_self⟩

theorem move_receiptsRoomTurn (state : Selecting) (i : Nat) : Move around state (state.receiptsRoomTurn around i) := by
  rw [receiptsRoomTurn]
  split
  · exact .idle
  rename_i scan got
  obtain ⟨old, after, scans, set, -⟩ := split_of_getElem? got
  split
  · exact .idle
  rename_i going
  rw [Bool.not_eq_true] at going
  split
  · exact .idle
  rename_i user n v rest next
  simp only [set]
  split
  next remote =>
    refine .row scans going next (.passed fun here => ?_)
    simp [here] at remote
  rename_i here
  have here : around.userIsLocal user := by simpa using here
  split
  next unexpected =>
    exact .panic (scans ▸ mem_append_right _ mem_cons_self) next here unexpected
  next passed =>
    exact .row scans going next (.passed fun _ => passed)
  next data readable =>
    exact .row scans going next (.entered here readable)

theorem move_receiptsTurn (state : Selecting) : Move around state state.receiptsTurn := by
  rw [receiptsTurn]
  split
  · exact .idle
  next ok =>
    simp only [Bool.or_eq_true, Bool.not_eq_true', not_or, Bool.not_eq_true, Option.isSome_eq_false_iff,
      Option.isNone_iff_eq_none, Bool.not_eq_false] at ok
    exact .ranked ok.1 ok.2

theorem move_presenceDone (undone : state.presence = none) : Move around state state.presenceDone := by
  rw [presenceDone]
  split
  · exact .presenceDone undone le_rfl nofun
  · refine .presenceDone undone (Nat.le_succ _) fun sent => ?_
    split at sent
    · cases sent
    · omega

theorem move_presenceTurn (state : Selecting) :
    ∃ middle, Move around state middle ∧ Move around middle (state.presenceTurn around) := by
  rw [presenceTurn]
  split
  · exact ⟨state, .idle, .idle⟩
  rename_i open'
  rw [Bool.not_eq_true, Option.isSome_eq_false_iff, Option.isNone_iff_eq_none] at open'
  split
  · exact ⟨state, .idle, move_presenceDone open'⟩
  rename_i user n update presenceRows next
  dsimp only
  split
  · exact ⟨_, .presenceRow next open', .idle⟩
  split
  · exact ⟨_, .presenceRow next open', .idle⟩
  split
  · exact ⟨_, .presenceRow next open', move_presenceDone open'⟩
  · exact ⟨_, .presenceRow next open', .idle⟩

theorem move_step (state : Selecting) (turn : Turn) :
    ∃ middle, Move around state middle ∧ Move around middle (state.step around turn) := by
  unfold step
  split
  · exact ⟨state, .idle, .idle⟩
  cases turn with
  | deviceChanges => exact move_deviceChangesTurn state
  | receiptsRoom i => exact ⟨state, .idle, move_receiptsRoomTurn state i⟩
  | receipts => exact ⟨state, .idle, move_receiptsTurn state⟩
  | presence => exact move_presenceTurn state

theorem run_of_moves {h : Selecting → Prop} (keeps : ∀ state next, Move around state next → h state → h next)
    (initially : h state) (turns : List Turn) : h (run (step around) state turns) := by
  have always : Admits (step around) (fun _ _ => True) state turns := admits_of_forall fun _ _ _ => trivial
  refine (along_of_keeps (fun state turn held _ => ?_) initially always).last
  obtain ⟨middle, a, second⟩ := move_step state turn
  exact keeps _ _ second (keeps _ _ a held)

end Selecting

end Wbfuwunel.Sending
