import Wbfuwunel.Foundation.Bytes
import Wbfuwunel.Foundation.Saturating

/-! Counts of events and the keys made of them: `core/matrix/pdu`, `count.rs`, `id.rs` and `raw_id.rs`.

A key begins with the room's number. An appended event's count follows it directly; a backfilled one's follows a word of
zeros, so that its key lies before those of all appended events.
-/

set_option autoImplicit false

namespace Wbfuwunel.Core

open Foundation List

inductive Direction where
  | forward
  | backward
  deriving DecidableEq, Repr

inductive Count where
  | normal (count : UInt64)
  | backfilled (count : Int64)
  deriving DecidableEq, Repr

namespace Count

def fromSigned (signed : Int64) : Count := if signed ≤ 0 then backfilled signed else normal signed.toUInt64

def fromUnsigned (unsigned : UInt64) : Count := fromSigned unsigned.toInt64

def intoSigned : Count → Int64
  | normal count => count.toInt64
  | backfilled count => count

def saturatingAdd : Count → UInt64 → Count
  | normal count, add => normal (saturatingAdd64 count add)
  | backfilled count, add => backfilled (saturatingAddSigned64 count add.toInt64)

def saturatingSub : Count → UInt64 → Count
  | normal count, sub => normal (saturatingSub64 count sub)
  | backfilled count, sub => backfilled (saturatingSubSigned64 count sub.toInt64)

/-- The variant stays, on whichever side of the border the step ends. -/
def saturatingInc (count : Count) : Direction → Count
  | .forward => count.saturatingAdd 1
  | .backward => count.saturatingSub 1

def min : Count := backfilled Int64.minValue

def max : Count := normal Int64.maxValue.toUInt64

def Valid : Count → Prop
  | normal count => 0 < count.toNat ∧ count.toNat < 2 ^ 63
  | backfilled count => -2 ^ 63 < count.toInt ∧ count.toInt < 0

instance decidableValid : DecidablePred Valid
  | normal count => inferInstanceAs (Decidable (0 < count.toNat ∧ count.toNat < 2 ^ 63))
  | backfilled count => inferInstanceAs (Decidable (-2 ^ 63 < count.toInt ∧ count.toInt < 0))

/-- The counts a key tells apart: the least backfilled one with them, which no event has. -/
def InRange : Count → Prop
  | normal count => 0 < count.toNat ∧ count.toNat < 2 ^ 63
  | backfilled count => count.toInt < 0

instance decidableInRange : DecidablePred InRange
  | normal count => inferInstanceAs (Decidable (0 < count.toNat ∧ count.toNat < 2 ^ 63))
  | backfilled count => inferInstanceAs (Decidable (count.toInt < 0))

theorem Valid.inRange {n : Count} (valid : n.Valid) : n.InRange := by
  cases n with
  | normal number => exact valid
  | backfilled number => exact valid.2

def isBackfilled : Count → Bool
  | normal _ => false
  | backfilled _ => true

end Count

open Count

structure Id where
  shortroomid : UInt64
  count : Count
  deriving DecidableEq, Repr

abbrev RawIdNormal := { raw : Bytes // raw.length = 16 }

abbrev RawIdBackfilled := { raw : Bytes // raw.length = 24 }

inductive RawId where
  | normal (raw : RawIdNormal)
  | backfilled (raw : RawIdBackfilled)
  deriving DecidableEq

namespace RawId

def asBytes : RawId → Bytes
  | normal raw => raw.1
  | backfilled raw => raw.1

def shortroomid : RawId → Bytes
  | normal raw => slice raw.1 0 8
  | backfilled raw => slice raw.1 0 8

def count : RawId → Bytes
  | normal raw => slice raw.1 8 16
  | backfilled raw => slice raw.1 16 24

def ofId (id : Id) : RawId :=
  match id.count with
  | .normal count => normal ⟨toBeBytes64 id.shortroomid ++ toBeBytes64 count, by simp⟩
  | .backfilled count =>
    backfilled ⟨toBeBytes64 id.shortroomid ++ (toBeBytes64 0 ++ toBeBytes64 count.toUInt64), by simp⟩

variable (raw : RawId)

/-- Whether the count is negative is read off its bits, not off the shape of the key. -/
def toId : Id where
  shortroomid := fromBeBytes64 raw.shortroomid
  count := .fromUnsigned (fromBeBytes64 raw.count)

/-- A key is told by its length; any other length stops the server. -/
def ofBytes (bytes : Bytes) : Option RawId :=
  if width : bytes.length = 16 then some (normal ⟨bytes, width⟩)
  else if width : bytes.length = 24 then some (backfilled ⟨bytes, width⟩)
  else none

def pduCount : Count := raw.toId.count

theorem asBytes_injective : Function.Injective asBytes := by
  rintro (⟨a, width⟩ | ⟨a, width⟩) (⟨b, width'⟩ | ⟨b, width'⟩) eq <;>
    simp only [asBytes] at eq <;> subst eq
  · rfl
  · omega
  · omega
  · rfl

instance keyOrder : LinearOrder RawId := LinearOrder.lift' asBytes asBytes_injective

theorem lt_iff (a b : RawId) : a < b ↔ a.asBytes < b.asBytes := Iff.rfl

theorem shortroomid_begins : raw.shortroomid <+: raw.asBytes := by
  cases raw <;> exact take_prefix _ _

theorem asBytes_ofId (id : Id) : (ofId id).asBytes = toBeBytes64 id.shortroomid ++ match id.count with
    | .normal n => toBeBytes64 n
    | .backfilled n => toBeBytes64 0 ++ toBeBytes64 n.toUInt64 := by
  unfold ofId
  split <;> rfl

@[simp] theorem shortroomid_ofId (id : Id) : (ofId id).shortroomid = toBeBytes64 id.shortroomid := by
  unfold ofId
  split <;> simp [shortroomid, slice]

@[simp] theorem count_ofId (id : Id) : (ofId id).count = match id.count with
    | .normal count => toBeBytes64 count
    | .backfilled count => toBeBytes64 count.toUInt64 := by
  unfold ofId
  split
  · simp [count, slice, take_of_length_le]
  · simp [count, slice, drop_append, take_of_length_le]

theorem ofId_injective : Function.Injective ofId := by
  rintro ⟨shortroomid, n⟩ ⟨o, n'⟩ eq
  have rooms : toBeBytes64 shortroomid = toBeBytes64 o := by simpa using congrArg RawId.shortroomid eq
  have counts := congrArg RawId.count eq
  rw [toBeBytes64_inj] at rooms
  cases n with
  | normal number =>
    cases n' with
    | normal number' =>
      simp only [count_ofId, toBeBytes64_inj] at counts
      rw [rooms, counts]
    | backfilled number' => cases eq
  | backfilled number =>
    cases n' with
    | normal number' => cases eq
    | backfilled number' =>
      simp only [count_ofId, toBeBytes64_inj] at counts
      have bits : number = number' := by simpa using congrArg UInt64.toInt64 counts
      rw [rooms, bits]

variable {count : Count}

theorem pduCount_ofId (shortroomid : UInt64) (valid : count.InRange) : (ofId ⟨shortroomid, count⟩).pduCount = count := by
  simp only [pduCount, toId]
  cases count with
  | normal n =>
    obtain ⟨positive, small⟩ := valid
    have signed := toInt_toInt64 n
    have gt : ¬n.toInt64 ≤ 0 := by
      rw [Int64.le_iff_toInt_le, Int64.toInt_zero]
      omega
    simp [fromUnsigned, fromSigned, gt]
  | backfilled n =>
    have lt : n ≤ 0 := by
      rw [Int64.le_iff_toInt_le]
      exact le_of_lt valid
    simp [fromUnsigned, fromSigned, lt]

@[simp] theorem ofBytes_asBytes : ofBytes raw.asBytes = some raw := by
  obtain ⟨bytes, width⟩ | ⟨bytes, width⟩ := raw
  · simp [ofBytes, asBytes, width]
  · simp [ofBytes, asBytes, width]

theorem toId_ofId {id : Id} (valid : id.count.InRange) : (ofId id).toId = id := by
  have count : (ofId id).toId.count = id.count := pduCount_ofId id.shortroomid valid
  have r : (ofId id).toId.shortroomid = id.shortroomid := by simp [toId]
  generalize (ofId id).toId = read at count r
  obtain ⟨shortroomid, number⟩ := read
  cases count
  cases r
  rfl

/-! ## The order of a room's keys -/

/-- Where a count's key lies among those of its room. A normal zero would be first, then the backfilled counts by their
bits, then the other normal ones. -/
def place : Count → Nat
  | .normal count => if count.toNat = 0 then 0 else 2 ^ 64 + count.toNat
  | .backfilled count => 1 + count.toUInt64.toNat

theorem ofId_lt_iff (shortroomid : UInt64) (a b : Count) :
    ofId ⟨shortroomid, a⟩ < ofId ⟨shortroomid, b⟩ ↔ place a < place b := by
  rw [lt_iff, asBytes_ofId, asBytes_ofId, append_lt_append_iff _ _ rfl]
  simp only [lt_irrefl, true_and, false_or]
  -- A normal count's word is compared with the backfilled one's zeros.
  have split (count : UInt64) := append_nil (toBeBytes64 count)
  cases a with
  | normal n =>
    have lt := n.toNat_lt
    cases b with
    | normal o =>
      have lt' := o.toNat_lt
      rw [toBeBytes64_lt_iff, UInt64.lt_iff_toNat_lt]
      simp only [place]
      split_ifs <;> omega
    | backfilled o =>
      have lt' := o.toUInt64.toNat_lt
      simp only
      rw [← split n, append_lt_append_iff _ _ (by simp), toBeBytes64_lt_iff, toBeBytes64_inj, UInt64.lt_iff_toNat_lt,
        ← UInt64.toNat_inj]
      have some : [] < toBeBytes64 o.toUInt64 := by
        simp [toBeBytes64, bigEndian]
      simp only [place, UInt64.toNat_zero, some, and_true]
      split_ifs <;> omega
  | backfilled n =>
    have lt := n.toUInt64.toNat_lt
    cases b with
    | normal o =>
      have lt' := o.toNat_lt
      simp only
      rw [← split o, append_lt_append_iff _ _ (by simp), toBeBytes64_lt_iff, UInt64.lt_iff_toNat_lt]
      simp only [place, UInt64.toNat_zero, not_lt_nil, and_false, or_false]
      split_ifs <;> omega
    | backfilled o =>
      simp only [append_lt_append_iff _ _ rfl, lt_irrefl, true_and, false_or]
      rw [toBeBytes64_lt_iff, UInt64.lt_iff_toNat_lt]
      simp only [place]
      omega

theorem place_eq (valid : count.InRange) :
    (place count : Int) = 2 ^ 64 + count.intoSigned.toInt + if count.isBackfilled then 1 else 0 := by
  cases count with
  | normal n =>
    obtain ⟨positive, small⟩ := valid
    have signed := toInt_toInt64 n
    simp only [place, intoSigned, isBackfilled, Bool.false_eq_true, if_false]
    split_ifs <;> omega
  | backfilled n =>
    have negative : n.toInt < 0 := valid
    have bits := toNat_toUInt64 n
    simp only [place, intoSigned, isBackfilled, if_true]
    omega

theorem sides (valid : count.InRange) :
    count.isBackfilled ∧ count.intoSigned.toInt < 0 ∨ count.isBackfilled = false ∧ 0 < count.intoSigned.toInt := by
  cases count with
  | normal n =>
    obtain ⟨positive, small⟩ := valid
    refine .inr ⟨rfl, ?_⟩
    rw [intoSigned, toInt_toInt64]
    omega
  | backfilled n => exact .inl ⟨rfl, valid⟩

theorem place_pos (valid : count.InRange) : 0 < place count := by
  cases count with
  | normal n =>
    obtain ⟨positive, -⟩ := valid
    simp only [place]
    split_ifs <;> omega
  | backfilled n =>
    simp only [place]
    omega

theorem place_lt_iff {a b : Count} (valid : a.InRange) (valid' : b.InRange) :
    place a < place b ↔ a.intoSigned.toInt < b.intoSigned.toInt := by
  have here := place_eq valid
  have there := place_eq valid'
  rcases sides valid with ⟨back, side⟩ | ⟨back, side⟩ <;> rcases sides valid' with ⟨back', side'⟩ | ⟨back', side'⟩ <;>
    simp only [back, back'] at here there <;> omega

theorem ofId_lt_iff_of_ne {a b : Id} (ne : a.shortroomid ≠ b.shortroomid) :
    ofId a < ofId b ↔ a.shortroomid < b.shortroomid := by
  rw [lt_iff, asBytes_ofId, asBytes_ofId, append_lt_append_iff _ _ (by simp), toBeBytes64_lt_iff]
  simp [ne]

theorem shortroomid_begins_iff (r : UInt64) (id : Id) : toBeBytes64 r <+: (ofId id).asBytes ↔ id.shortroomid = r := by
  rw [asBytes_ofId, ← append_nil (toBeBytes64 r), field_begins_iff (by simp)]
  simp [eq_comm]

/-- A key gives its event's place back, keys lie in the order of the rooms and then of the timeline, and a room's keys
are those that begin with its number. -/
theorem ofId_faithful (first second : Id) (room : UInt64) (valid : first.count.InRange) (valid' : second.count.InRange) :
    (ofBytes (ofId first).asBytes).map toId = some first ∧
      ((ofId first).asBytes < (ofId second).asBytes ↔ first.shortroomid < second.shortroomid ∨
        first.shortroomid = second.shortroomid ∧ first.count.intoSigned < second.count.intoSigned) ∧
      (toBeBytes64 room <+: (ofId first).asBytes ↔ first.shortroomid = room) := by
  refine ⟨?_, ?_, shortroomid_begins_iff room first⟩
  · rw [ofBytes_asBytes, Option.map_some, toId_ofId valid]
  · rw [← lt_iff]
    by_cases eq : first.shortroomid = second.shortroomid
    · obtain ⟨shortroomid, count⟩ := first
      obtain ⟨shortroomid', count'⟩ := second
      cases eq
      rw [ofId_lt_iff, place_lt_iff valid valid', ← Int64.lt_iff_toInt_lt]
      simp
    · rw [ofId_lt_iff_of_ne eq]
      simp [eq]

/-- The last backfilled event of a room and the first one of its timeline. -/
theorem ofId_faithful_border : (ofBytes (ofId ⟨7, .backfilled (-1)⟩).asBytes).map toId = some ⟨7, .backfilled (-1)⟩ ∧
      (ofId ⟨7, .backfilled (-1)⟩).asBytes < (ofId ⟨7, .normal 1⟩).asBytes := by
  obtain ⟨reads, order, -⟩ := ofId_faithful ⟨7, .backfilled (-1)⟩ ⟨7, .normal 1⟩ 7 (by decide) (by decide)
  exact ⟨reads, order.mpr (.inr ⟨rfl, by decide⟩)⟩

/-- Where a read upwards starts: right above the count, except that backfilled -1 is followed by a backfilled zero. -/
theorem place_forward (valid : count.Valid) : (place (count.saturatingInc .forward) : Int) =
    if count = .backfilled (-1) then 1 else place count + 1 := by
  cases count with
  | normal n =>
    obtain ⟨positive, small⟩ := valid
    have next := saturatingAdd64_toNat n 1
    simp only [Count.saturatingInc, Count.saturatingAdd, place, reduceCtorEq, if_false]
    rw [UInt64.toNat_one] at next
    split_ifs <;> omega
  | backfilled n =>
    obtain ⟨small, negative⟩ := valid
    have next := saturatingAddSigned64_toInt n 1
    have one : (1 : UInt64).toInt64 = 1 := rfl
    have border : n = -1 ↔ n.toInt = -1 := by rw [← Int64.toInt_inj]; rfl
    have bits := toNat_toUInt64 n
    have bits' := toNat_toUInt64 (saturatingAddSigned64 n 1)
    simp only [Count.saturatingInc, Count.saturatingAdd, place, Count.backfilled.injEq, one, border]
    rw [next, clampSigned64, Int64.toInt_one] at bits'
    split_ifs <;> omega

/-- Where a read downwards starts: right below the count, except that normal 1 is followed by a normal zero. -/
theorem place_backward (valid : count.Valid) : (place (count.saturatingInc .backward) : Int) =
    if count = .normal 1 then 0 else place count - 1 := by
  cases count with
  | normal n =>
    obtain ⟨positive, small⟩ := valid
    have next := saturatingSub64_toNat n 1
    have border : n = 1 ↔ n.toNat = 1 := by rw [← UInt64.toNat_inj]; rfl
    simp only [Count.saturatingInc, Count.saturatingSub, place, Count.normal.injEq, border]
    rw [UInt64.toNat_one] at next
    split_ifs <;> omega
  | backfilled n =>
    obtain ⟨small, negative⟩ := valid
    have next := saturatingSubSigned64_toInt n 1
    have one : (1 : UInt64).toInt64 = 1 := rfl
    have bits := toNat_toUInt64 n
    have bits' := toNat_toUInt64 (saturatingSubSigned64 n 1)
    simp only [Count.saturatingInc, Count.saturatingSub, place, one, reduceCtorEq, if_false]
    rw [next, clampSigned64, Int64.toInt_one] at bits'
    omega

end RawId

end Wbfuwunel.Core
