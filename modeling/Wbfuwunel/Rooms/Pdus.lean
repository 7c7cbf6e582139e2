import Wbfuwunel.Core.RawId
import Wbfuwunel.Rooms.Timeline

/-! Reading a room's timeline from a bound: `rooms/timeline/pdus.rs`.

A read seeks the key one step past the bound and goes on while the keys are the room's. Across the border between
backfilled and appended events the step leaves the counts that events have, and the key it seeks lies before all of them.
-/

set_option autoImplicit false

namespace Wbfuwunel.Rooms

open Foundation Core List Store RawId

/-- `pduid_pdu`, and what the short ids' service answers for a room. -/
structure PduTable (V : Type) where
  getShortroomid : RoomId → Except Error UInt64
  pduidPdu : Store RawId V

namespace PduTable

variable {V W : Type}

def pduCountToId (shortroomid : UInt64) (count : Count) (direction : Direction) : RawId :=
  .ofId ⟨shortroomid, count.saturatingInc direction⟩

variable (table : PduTable V)

def countToId (room : RoomId) (count : Count) (direction : Direction) : Except Error RawId :=
  (table.getShortroomid room).map fun shortroomid => pduCountToId shortroomid count direction

variable (read : V → Except Error W)

def eachSlice (row : RawId × V) : Except Error (Count × W) :=
  (read row.2).map fun pdu => (row.1.pduCount, pdu)

def pdus (room : RoomId) (bound : Option Count) : List (Except Error (Count × W)) :=
  match table.countToId room (bound.getD .min) .forward with
  | .error error => [.error error]
  | .ok current =>
    ((table.pduidPdu.rowsFrom current).takeWhile fun row => current.shortroomid.isPrefixOf row.1.asBytes).map
      (eachSlice read)

def pdusRev (room : RoomId) (bound : Option Count) : List (Except Error (Count × W)) :=
  match table.countToId room (bound.getD .max) .backward with
  | .error error => [.error error]
  | .ok current =>
    ((table.pduidPdu.rowsDownFrom current).takeWhile fun row => current.shortroomid.isPrefixOf row.1.asBytes).map
      (eachSlice read)

/-! ## What a read should yield -/

def Stored (shortroomid : UInt64) (event : Count × V) : Prop :=
  table.pduidPdu.find (.ofId ⟨shortroomid, event.1⟩) = some event.2

/-- The room's rows are those of events with valid counts. -/
def Populated (shortroomid : UInt64) : Prop := ∀ row ∈ table.pduidPdu.rows,
  row.1.shortroomid = toBeBytes64 shortroomid → ∃ count : Count, count.Valid ∧ row.1 = .ofId ⟨shortroomid, count⟩

def deliver (event : Count × V) : Except Error (Count × W) :=
  (read event.2).map fun pdu => (event.1, pdu)

def Yields (shortroomid : UInt64) (selects : Int → Prop) (ordered : Int → Int → Prop)
    (items : List (Except Error (Count × W))) : Prop :=
  ∃ events : List (Count × V), items = events.map (deliver read) ∧
    (∀ event, event ∈ events ↔ table.Stored shortroomid event ∧ selects event.1.intoSigned.toInt) ∧
    events.Pairwise fun first second => ordered first.1.intoSigned.toInt second.1.intoSigned.toInt

def events (shortroomid : UInt64) : List (Count × V) :=
  (table.pduidPdu.rows.filter fun row => (toBeBytes64 shortroomid).isPrefixOf row.1.asBytes).map fun row =>
    (row.1.pduCount, row.2)

section Room

variable {table : PduTable V} {shortroomid : UInt64} (populated : table.Populated shortroomid)

theorem begins_iff (raw : RawId) : toBeBytes64 shortroomid <+: raw.asBytes ↔ raw.shortroomid = toBeBytes64 shortroomid := by
  have width : raw.shortroomid.length = 8 := by
    rcases raw with raw | raw <;> exact slice_length (by rw [raw.2]; omega)
  constructor
  · intro pre
    refine (prefix_of_prefix_length_le pre raw.shortroomid_begins (by simp [width])).eq_of_length ?_ |>.symm
    simp [width]
  · intro eq
    exact eq ▸ raw.shortroomid_begins

theorem begins_ofId (shortroomid : UInt64) (count : Count) :
    toBeBytes64 shortroomid <+: (ofId ⟨shortroomid, count⟩).asBytes :=
  (begins_iff _).mpr (shortroomid_ofId _)

include populated in
theorem Populated.row {row : RawId × V} (mem : row ∈ table.pduidPdu.rows)
    (pre : (toBeBytes64 shortroomid).isPrefixOf row.1.asBytes) :
    ∃ count : Count, count.Valid ∧ row.1 = .ofId ⟨shortroomid, count⟩ ∧ row.1.pduCount = count := by
  obtain ⟨count, valid, key⟩ := populated row mem ((begins_iff row.1).mp ( isPrefixOf_iff_prefix.mp pre))
  exact ⟨count, valid, key, key ▸ pduCount_ofId shortroomid valid.inRange⟩

include populated in
theorem Populated.mem_events {event : Count × V} : event ∈ table.events shortroomid ↔ table.Stored shortroomid event := by
  unfold events Stored
  rw [find_eq_some_iff]
  constructor
  · intro mem
    obtain ⟨row, member, rfl⟩ := mem_map.mp mem
    obtain ⟨got, begins⟩ := mem_filter.mp member
    obtain ⟨n, -, k, same⟩ := populated.row got begins
    rw [same, ← k]
    exact got
  · intro got
    have begins := isPrefixOf_iff_prefix.mpr (begins_ofId shortroomid event.1)
    obtain ⟨n, valid, k, same⟩ := populated.row got begins
    have named : event.1 = n := congrArg Id.count (ofId_injective k)
    exact mem_map.mpr ⟨_, mem_filter.mpr ⟨got, begins⟩, by rw [same, ← named]⟩

include populated in
theorem Populated.valid {e : Count × V} (mem : e ∈ table.events shortroomid) : e.1.Valid := by
  obtain ⟨row, member, rfl⟩ := mem_map.mp mem
  obtain ⟨got, begins⟩ := mem_filter.mp member
  obtain ⟨n, valid, -, same⟩ := populated.row got begins
  exact same ▸ valid

include populated in
theorem Populated.ascending : (table.events shortroomid).Pairwise fun first b =>
    first.1.intoSigned.toInt < b.1.intoSigned.toInt := by
  refine pairwise_map.mpr (List.Pairwise.imp_of_mem ?_ (table.pduidPdu.ordered.filter _))
  intro first b mem beside smaller
  obtain ⟨got, begins⟩ := mem_filter.mp mem
  obtain ⟨got', begins'⟩ := mem_filter.mp beside
  obtain ⟨n, valid, k, same⟩ := populated.row got begins
  obtain ⟨n', valid', k', same'⟩ := populated.row got' begins'
  rw [k, k', ofId_lt_iff, place_lt_iff valid.inRange valid'.inRange] at smaller
  rwa [same, same']

include populated in
theorem Populated.scan (read : V → Except Error W) (selects : RawId → Bool) (chosen : Count → Bool)
    (agree : ∀ n : Count, n.Valid → selects (.ofId ⟨shortroomid, n⟩) = chosen n) :
    (table.pduidPdu.rows.filter fun row => (toBeBytes64 shortroomid).isPrefixOf row.1.asBytes && selects row.1).map
        (eachSlice read) =
      ((table.events shortroomid).filter fun e => chosen e.1).map (deliver read) := by
  rw [events, filter_map, map_map, filter_filter]
  have eq : ∀ row ∈ table.pduidPdu.rows, ((toBeBytes64 shortroomid).isPrefixOf row.1.asBytes && selects row.1) =
      ((chosen row.1.pduCount) && (toBeBytes64 shortroomid).isPrefixOf row.1.asBytes) := by
    intro row mem
    cases pre : (toBeBytes64 shortroomid).isPrefixOf row.1.asBytes with
    | false => simp
    | true =>
      obtain ⟨n, valid, k, named⟩ := populated.row mem pre
      rw [named, k, agree n valid]
      simp
  rw [filter_congr eq]
  rfl

include populated in
theorem Populated.pdus_eq {r : RoomId} (known : table.getShortroomid r = .ok shortroomid) (read : V → Except Error W)
    (le : Option Count) : table.pdus read r le = ((table.events shortroomid).filter fun e =>
      !decide (place e.1 < place ((le.getD .min).saturatingInc .forward))).map (deliver read) := by
  simp only [pdus, countToId, known, Except.map, pduCountToId, shortroomid_ofId]
  rw [rowsFrom_takeWhile _ lt_iff (begins_ofId shortroomid _)]
  refine populated.scan read (fun k => !decide (k < _)) (fun n => !decide (place n < _)) fun n _ => ?_
  rw [decide_eq_decide.mpr (ofId_lt_iff ..)]

include populated in
theorem Populated.pdusRev_eq {r : RoomId} (known : table.getShortroomid r = .ok shortroomid)
    (read : V → Except Error W) (le : Option Count) :
    table.pdusRev read r le = ((table.events shortroomid).filter fun e =>
      !decide (place ((le.getD .max).saturatingInc .backward) < place e.1)).reverse.map (deliver read) := by
  simp only [pdusRev, countToId, known, Except.map, pduCountToId, shortroomid_ofId]
  rw [rowsDownFrom_takeWhile _ lt_iff (begins_ofId shortroomid _), map_reverse, map_reverse]
  congr 1
  refine populated.scan read (fun k => !decide (_ < k)) (fun n => !decide (_ < place n)) fun n _ => ?_
  rw [decide_eq_decide.mpr (ofId_lt_iff ..)]

/-! ## Which reads are exact -/

section Ordered

variable {read : V → Except Error W} {selects : Int → Prop} [DecidablePred selects]
  {items : List (Except Error (Count × W))}

include populated in
theorem Populated.yields_ascending : table.Yields read shortroomid selects (· < ·) items ↔
    items = ((table.events shortroomid).filter fun e => decide (selects e.1.intoSigned.toInt)).map (deliver read) := by
  have members (e : Count × V) : e ∈ (table.events shortroomid).filter (fun e =>
      decide (selects e.1.intoSigned.toInt)) ↔ table.Stored shortroomid e ∧ selects e.1.intoSigned.toInt := by
    rw [mem_filter, populated.mem_events, decide_eq_true_eq]
  constructor
  · rintro ⟨es, rfl, ls, ordered⟩
    rw [eq_of_ascending ordered (populated.ascending.filter _) fun e => (ls e).trans (members e).symm]
  · rintro rfl
    exact ⟨_, rfl, members, populated.ascending.filter _⟩

include populated in
theorem Populated.yields_descending : table.Yields read shortroomid selects (· > ·) items ↔
    items = ((table.events shortroomid).filter fun e =>
      decide (selects e.1.intoSigned.toInt)).reverse.map (deliver read) := by
  have backwards : table.Yields read shortroomid selects (· > ·) items ↔
      table.Yields read shortroomid selects (· < ·) items.reverse := by
    constructor
    · rintro ⟨es, rfl, ls, ordered⟩
      exact ⟨es.reverse, by simp, by simpa using ls, pairwise_reverse.mpr ordered⟩
    · rintro ⟨es, eq, ls, ordered⟩
      refine ⟨es.reverse, ?_, by simpa using ls, pairwise_reverse.mpr ordered⟩
      rw [map_reverse, ← eq, reverse_reverse]
  rw [backwards, populated.yields_ascending, map_reverse, reverse_eq_iff]

end Ordered

include populated in
theorem Populated.unbackfilled_iff : (∀ e, table.Stored shortroomid e → e.1.isBackfilled = false) ↔
    ∀ e ∈ table.events shortroomid, 0 < e.1.intoSigned.toInt := by
  simp only [← populated.mem_events]
  refine forall₂_congr fun e mem => ?_
  rcases sides (populated.valid mem).inRange with ⟨back, side⟩ | ⟨back, side⟩ <;>
    simp only [back, reduceCtorEq, false_iff, true_iff] <;> omega

include populated in
/-- Upwards from backfilled -1 all events of the room come. -/
theorem Populated.pdus_yields_iff {r : RoomId} (known : table.getShortroomid r = .ok shortroomid)
    (read : V → Except Error W) {le : Count} (valid : le.Valid) :
    table.Yields read shortroomid (le.intoSigned.toInt < ·) (· < ·) (table.pdus read r (some le)) ↔
      (∀ e, table.Stored shortroomid e → e.1.isBackfilled = false) ∨ le ≠ .backfilled (-1) := by
  have seek := place_forward valid
  have later {e : Count × V} (mem : e ∈ table.events shortroomid) :=
    place_lt_iff valid.inRange (populated.valid mem).inRange
  rw [populated.yields_ascending, populated.pdus_eq known, populated.unbackfilled_iff, Option.getD_some, map_filter_eq_iff]
  · simp only [Bool.not_eq_true', decide_eq_false_iff_not, decide_eq_true_eq]
    by_cases border : le = .backfilled (-1)
    · -- the seek key is that of a backfilled zero, before every event
      rw [if_pos border] at seek
      have edge : le.intoSigned.toInt = -1 := by rw [border]; rfl
      rw [or_iff_left (not_not_intro border)]
      refine forall₂_congr fun e mem => ?_
      have pos := place_pos (populated.valid mem).inRange
      rcases sides (populated.valid mem).inRange with ⟨-, side⟩ | ⟨-, side⟩ <;> omega
    · rw [if_neg border] at seek
      refine iff_of_true (fun e mem gt => ?_) (.inr border)
      have := later mem
      omega
  · intro e mem sel
    have := later mem
    simp only [decide_eq_true_eq, Bool.not_eq_true', decide_eq_false_iff_not] at sel ⊢
    split_ifs at seek <;> omega

include populated in
/-- Downwards from normal 1 no event of the room comes. -/
theorem Populated.pdusRev_yields_iff {r : RoomId} (known : table.getShortroomid r = .ok shortroomid)
    (read : V → Except Error W) {le : Count} (valid : le.Valid) :
    table.Yields read shortroomid (· < le.intoSigned.toInt) (· > ·) (table.pdusRev read r (some le)) ↔
      (∀ e, table.Stored shortroomid e → e.1.isBackfilled = false) ∨ le ≠ .normal 1 := by
  have seek := place_backward valid
  have pos := place_pos valid.inRange
  have old {e : Count × V} (mem : e ∈ table.events shortroomid) :=
    place_lt_iff (populated.valid mem).inRange valid.inRange
  rw [populated.yields_descending, populated.pdusRev_eq known, populated.unbackfilled_iff, Option.getD_some, map_reverse,
    map_reverse, reverse_inj, eq_comm, map_filter_eq_iff]
  · simp only [Bool.not_eq_true', decide_eq_false_iff_not, decide_eq_true_eq]
    by_cases border : le = .normal 1
    · -- the seek key is that of a normal zero, before every event
      rw [if_pos border] at seek
      have edge : le.intoSigned.toInt = 1 := by rw [border]; rfl
      rw [or_iff_left (not_not_intro border)]
      refine forall₂_congr fun e mem => ?_
      have pos := place_pos (populated.valid mem).inRange
      rcases sides (populated.valid mem).inRange with ⟨-, side⟩ | ⟨-, side⟩ <;> omega
    · rw [if_neg border] at seek
      refine iff_of_true (fun e mem lt => ?_) (.inr border)
      have := old mem
      omega
  · intro e mem sel
    have := old mem
    simp only [decide_eq_true_eq, Bool.not_eq_true', decide_eq_false_iff_not] at sel ⊢
    split_ifs at seek <;> omega

end Room

/-- From every bound, upwards and downwards, exactly the room's events beyond it come, in order — just when the room has
no backfilled event or the bound is not next to the border. -/
theorem pdus_exact_iff (table : PduTable V) (read : V → Except Error W) {room : RoomId} {shortroomid : UInt64}
    (known : table.getShortroomid room = .ok shortroomid) (populated : table.Populated shortroomid) {bound : Count}
    (valid : bound.Valid) :
    table.Yields read shortroomid (bound.intoSigned.toInt < ·) (· < ·) (table.pdus read room (some bound)) ∧
        table.Yields read shortroomid (· < bound.intoSigned.toInt) (· > ·) (table.pdusRev read room (some bound)) ↔
      (∀ event, table.Stored shortroomid event → event.1.isBackfilled = false) ∨
        bound ≠ .backfilled (-1) ∧ bound ≠ .normal 1 := by
  rw [populated.pdus_yields_iff known read valid, populated.pdusRev_yields_iff known read valid, ← or_and_left]

def createdLate : PduTable String where
  getShortroomid _ := .ok 5
  pduidPdu := (Store.empty.put (.ofId ⟨5, .backfilled (-7)⟩) "$before").put (.ofId ⟨5, .normal 1⟩) "$create"

theorem createdLate_populated : createdLate.Populated 5 := by
  intro row mem _
  rcases mem_put.mp mem with rfl | ⟨mem, -⟩
  · exact ⟨.normal 1, by decide, rfl⟩
  · rcases mem_put.mp mem with rfl | ⟨mem, -⟩
    · exact ⟨.backfilled (-7), by decide, rfl⟩
    · cases mem

/-- From normal 2 the two events come downwards, and none upwards. -/
theorem pdus_exact_from_two :
    createdLate.Yields Except.ok 5 (2 < ·) (· < ·) (createdLate.pdus Except.ok "!r:localhost" (some (.normal 2))) ∧
      createdLate.Yields Except.ok 5 (· < 2) (· > ·) (createdLate.pdusRev Except.ok "!r:localhost" (some (.normal 2))) :=
  (pdus_exact_iff createdLate Except.ok rfl createdLate_populated (by decide)).mpr (.inr (by decide))

/-- Downwards from normal 1 the event before it is missed; upwards from backfilled -1 the same event comes again. -/
theorem border_misread : createdLate.pdusRev Except.ok "!r:localhost" (some (.normal 1)) = [] ∧
      createdLate.pdus Except.ok "!r:localhost" (some (.backfilled (-1))) =
        [.ok (.backfilled (-7), "$before"), .ok (.normal 1, "$create")] ∧
      createdLate.Stored 5 (.backfilled (-7), "$before") := by
  refine ⟨?_, ?_, ?_⟩ <;> rfl

end PduTable

end Wbfuwunel.Rooms
