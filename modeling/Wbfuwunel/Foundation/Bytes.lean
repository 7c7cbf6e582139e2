import Mathlib.Data.List.Lex
import Mathlib.Tactic.Ring

/-! Byte strings, big-endian numbers and half-open slices.

Every wire and storage format above this module is a concatenation of fixed
width integers and variable sections. Numbers keep an explicit width, and a
slice is cut by two offsets the way a byte slice is.
-/

set_option autoImplicit false

namespace Wbfuwunel.Foundation

open List

abbrev Bytes := List UInt8

/-- The `width` low bytes of a number, most significant first. -/
def bigEndian : Nat → Nat → Bytes
  | 0, _ => []
  | width + 1, value => UInt8.ofNat (value / 256 ^ width) :: bigEndian width value

def ofBigEndian : Bytes → Nat
  | [] => 0
  | byte :: rest => byte.toNat * 256 ^ rest.length + ofBigEndian rest

@[simp] theorem bigEndian_length (width v : Nat) : (bigEndian width v).length = width := by
  induction width with
  | zero => rfl
  | succ width ih => simp [bigEndian, ih]

theorem ofBigEndian_bigEndian (width v : Nat) : ofBigEndian (bigEndian width v) = v % 256 ^ width := by
  induction width with
  | zero => simp [bigEndian, ofBigEndian, Nat.mod_one]
  | succ width ih =>
    simp only [bigEndian, ofBigEndian, bigEndian_length, ih, UInt8.toNat_ofNat', Nat.reducePow]
    rw [Nat.mod_pow_succ, Nat.mul_comm, Nat.add_comm]

theorem ofBigEndian_lt (bytes : Bytes) : ofBigEndian bytes < 256 ^ bytes.length := by
  induction bytes with
  | nil => simp [ofBigEndian]
  | cons byte rest ih =>
    have lt : byte.toNat + 1 ≤ 256 := byte.toNat_lt
    calc ofBigEndian (byte :: rest) < byte.toNat * 256 ^ rest.length + 256 ^ rest.length :=
          Nat.add_lt_add_left ih _
      _ = (byte.toNat + 1) * 256 ^ rest.length := by ring
      _ ≤ 256 * 256 ^ rest.length := Nat.mul_le_mul_right _ lt
      _ = 256 ^ (byte :: rest).length := by rw [length_cons, Nat.pow_succ, Nat.mul_comm]

theorem bigEndian_add_mul (width high low : Nat) : bigEndian width (high * 256 ^ width + low) = bigEndian width low := by
  induction width generalizing high with
  | zero => rfl
  | succ width ih =>
    have regroup : high * 256 ^ (width + 1) + low = (high * 256) * 256 ^ width + low := by ring
    have byte : UInt8.ofNat (((high * 256) * 256 ^ width + low) / 256 ^ width) = UInt8.ofNat (low / 256 ^ width) := by
      rw [Nat.add_comm, Nat.add_mul_div_right _ _ (Nat.pow_pos (by decide))]
      apply UInt8.toNat.inj
      simp only [UInt8.toNat_ofNat']
      omega
    simp only [bigEndian, regroup, byte, ih]

theorem bigEndian_ofBigEndian (bytes : Bytes) : bigEndian bytes.length (ofBigEndian bytes) = bytes := by
  induction bytes with
  | nil => rfl
  | cons byte rest ih =>
    have head : (byte.toNat * 256 ^ rest.length + ofBigEndian rest) / 256 ^ rest.length = byte.toNat := by
      rw [Nat.add_comm, Nat.add_mul_div_right _ _ (Nat.pow_pos (by decide)), Nat.div_eq_of_lt (ofBigEndian_lt rest),
        Nat.zero_add]
    simp only [length_cons, bigEndian, ofBigEndian, bigEndian_add_mul, ih, head, UInt8.ofNat_toNat]

def slice (bytes : Bytes) (start stop : Nat) : Bytes :=
  (bytes.drop start).take (stop - start)

variable {bytes : Bytes} {start stop : Nat}

theorem slice_length (mem : stop ≤ bytes.length) : (slice bytes start stop).length = stop - start := by
  simp only [slice, length_take, length_drop]
  omega

theorem slice_append (old part after : Bytes) (pre : start = old.length)
    (ends : stop = old.length + part.length) : slice (old ++ (part ++ after)) start stop = part := by
  subst pre ends
  simp [slice]

theorem take_append_slice (ordered : start ≤ stop) : bytes.take start ++ slice bytes start stop = bytes.take stop := by
  have split : stop = start + (stop - start) := by omega
  rw [slice, split, take_add]
  simp

theorem slice_append_drop (ordered : start ≤ stop) : slice bytes start stop ++ bytes.drop stop = bytes.drop start := by
  have split : bytes.drop stop = (bytes.drop start).drop (stop - start) := by
    rw [drop_drop, Nat.add_sub_cancel' ordered]
  rw [split, slice, take_append_drop]

/-- Write `part` over the bytes at `start`, as far as there are bytes there; everything
else keeps its value and the length does not change. -/
def patch (bytes : Bytes) (start : Nat) (part : Bytes) : Bytes :=
  bytes.take start ++ part.take (bytes.length - start) ++ bytes.drop (start + part.length)

theorem patch_append (before old new after : Bytes) (pre : start = before.length) (eq : new.length = old.length) :
    patch (before ++ (old ++ after)) start new = before ++ (new ++ after) := by
  subst pre
  have r : new.length ≤ old.length + after.length := by omega
  simp [patch, eq, take_of_length_le r]

def toBeBytes32 (value : UInt32) : Bytes := bigEndian 4 value.toNat

def fromBeBytes32 (bytes : Bytes) : UInt32 := UInt32.ofNat (ofBigEndian bytes)

@[simp] theorem toBeBytes32_length (v : UInt32) : (toBeBytes32 v).length = 4 :=
  bigEndian_length 4 _

@[simp] theorem fromBeBytes32_toBeBytes32 (v : UInt32) : fromBeBytes32 (toBeBytes32 v) = v := by
  have lt := v.toNat_lt
  apply UInt32.toNat.inj
  simp only [fromBeBytes32, toBeBytes32, ofBigEndian_bigEndian, UInt32.toNat_ofNat']
  omega

theorem toBeBytes32_fromBeBytes32 (width : bytes.length = 4) : toBeBytes32 (fromBeBytes32 bytes) = bytes := by
  have lt := ofBigEndian_lt bytes
  rw [width] at lt
  have v : (fromBeBytes32 bytes).toNat = ofBigEndian bytes := by
    simp only [fromBeBytes32, UInt32.toNat_ofNat']
    omega
  rw [toBeBytes32, v, ← width]
  exact bigEndian_ofBigEndian bytes

def toBeBytes64 (value : UInt64) : Bytes := bigEndian 8 value.toNat

def fromBeBytes64 (bytes : Bytes) : UInt64 := UInt64.ofNat (ofBigEndian bytes)

@[simp] theorem toBeBytes64_length (v : UInt64) : (toBeBytes64 v).length = 8 :=
  bigEndian_length 8 _

@[simp] theorem fromBeBytes64_toBeBytes64 (v : UInt64) : fromBeBytes64 (toBeBytes64 v) = v := by
  have lt := v.toNat_lt
  apply UInt64.toNat.inj
  simp only [fromBeBytes64, toBeBytes64, ofBigEndian_bigEndian, UInt64.toNat_ofNat']
  omega

theorem toBeBytes64_fromBeBytes64 (width : bytes.length = 8) : toBeBytes64 (fromBeBytes64 bytes) = bytes := by
  have lt := ofBigEndian_lt bytes
  rw [width] at lt
  have v : (fromBeBytes64 bytes).toNat = ofBigEndian bytes := by
    simp only [fromBeBytes64, UInt64.toNat_ofNat']
    omega
  rw [toBeBytes64, v, ← width]
  exact bigEndian_ofBigEndian bytes

@[simp] theorem toBeBytes32_inj {a b : UInt32} : toBeBytes32 a = toBeBytes32 b ↔ a = b :=
  ⟨fun eq => by simpa using congrArg fromBeBytes32 eq, fun eq => eq ▸ rfl⟩

@[simp] theorem toBeBytes64_inj {a b : UInt64} : toBeBytes64 a = toBeBytes64 b ↔ a = b :=
  ⟨fun eq => by simpa using congrArg fromBeBytes64 eq, fun eq => eq ▸ rfl⟩

theorem field_begins_iff {a b rest o : Bytes} (width : a.length = b.length) :
    a ++ rest <+: b ++ o ↔ a = b ∧ rest <+: o := by
  constructor
  · rintro ⟨tail, eq⟩
    rw [append_assoc] at eq
    obtain ⟨equal, begins⟩ := append_inj eq width
    exact ⟨equal, tail, begins⟩
  · rintro ⟨rfl, begins⟩
    exact prefix_append_right_inj a |>.mpr begins

/-! ## Key order

Byte by byte, a proper beginning before what extends it. The strings that begin with a given one are consecutive in this
order, from that one on.
-/

instance byteOrder : LinearOrder UInt8 where
  le_refl := UInt8.le_refl
  le_trans _ _ _ := UInt8.le_trans
  lt_iff_le_not_ge first second := by rw [UInt8.not_le]; exact ⟨fun h => ⟨UInt8.le_of_lt h, h⟩, And.right⟩
  le_antisymm _ _ := UInt8.le_antisymm
  le_total := UInt8.le_total
  toDecidableLE := inferInstance

instance wordOrder : LinearOrder UInt64 where
  le_refl := UInt64.le_refl
  le_trans _ _ _ := UInt64.le_trans
  lt_iff_le_not_ge first second := by rw [UInt64.not_le]; exact ⟨fun h => ⟨UInt64.le_of_lt h, h⟩, And.right⟩
  le_antisymm _ _ := UInt64.le_antisymm
  le_total := UInt64.le_total
  toDecidableLE := inferInstance

variable {α : Type} [LinearOrder α]

theorem not_lt_of_begins {start list : List α} (pre : start <+: list) : ¬list < start := by
  obtain ⟨rest, rfl⟩ := pre
  induction start with
  | nil => exact not_lt_nil _
  | cons a start ih => simpa [cons_lt_cons_iff] using ih

theorem begins_of_between {start middle last : List α} (gt : ¬middle < start) (lt : ¬last < middle)
    (pre : start <+: last) : start <+: middle := by
  induction start generalizing middle last with
  | nil => exact nil_prefix
  | cons a start ih =>
    obtain ⟨rest, rfl⟩ := pre
    cases middle with
    | nil => exact absurd (nil_lt_cons a start) gt
    | cons head middle =>
      simp only [cons_append, cons_lt_cons_iff, not_or, not_and, not_lt] at gt lt
      have eq : a = head := le_antisymm gt.1 lt.1
      subst eq
      exact cons_prefix_cons.mpr ⟨rfl, ih (not_lt.mpr (gt.2 rfl)) (not_lt.mpr (lt.2 rfl)) (prefix_append start rest)⟩

theorem append_lt_append_iff {a b : List α} (left right : List α) (eq : a.length = b.length) :
    a ++ left < b ++ right ↔ a < b ∨ a = b ∧ left < right := by
  induction a generalizing b with
  | nil =>
    obtain rfl : b = [] := length_eq_zero_iff.mp eq.symm
    simp
  | cons head a ih =>
    cases b with
    | nil => simp at eq
    | cons o b =>
      simp only [cons_append, cons_lt_cons_iff, ih (by simpa using eq), List.cons.injEq]
      tauto

theorem lt_iff_ofBigEndian_lt {a b : Bytes} (eq : a.length = b.length) : a < b ↔ ofBigEndian a < ofBigEndian b := by
  induction a generalizing b with
  | nil =>
    obtain rfl : b = [] := length_eq_zero_iff.mp eq.symm
    simp
  | cons head a ih =>
    cases b with
    | nil => simp at eq
    | cons o b =>
      have width : a.length = b.length := by simpa using eq
      have lt := ofBigEndian_lt a
      have beside := ofBigEndian_lt b
      rw [cons_lt_cons_iff, ih width, ofBigEndian, ofBigEndian, UInt8.lt_iff_toNat_lt, ← UInt8.toNat_inj]
      rw [width] at lt ⊢
      generalize 256 ^ b.length = weight at *
      -- A head that is less by one outweighs every rest.
      rcases Nat.lt_trichotomy head.toNat o.toNat with less | equal | more
      · have outweighs := Nat.mul_le_mul_right weight (Nat.succ_le_of_lt less)
        rw [Nat.succ_mul] at outweighs
        omega
      · rw [equal]
        omega
      · have outweighs := Nat.mul_le_mul_right weight (Nat.succ_le_of_lt more)
        rw [Nat.succ_mul] at outweighs
        omega

theorem toBeBytes64_lt_iff (a b : UInt64) : toBeBytes64 a < toBeBytes64 b ↔ a < b := by
  have lt := a.toNat_lt
  have lt' := b.toNat_lt
  rw [lt_iff_ofBigEndian_lt (by simp), toBeBytes64, toBeBytes64, ofBigEndian_bigEndian, ofBigEndian_bigEndian,
    UInt64.lt_iff_toNat_lt]
  omega

/-! ## Text

Strings as their UTF-8 bytes. The byte 255 never occurs in them, which is what makes it a separator.
-/

section Text

def utf8 (text : String) : Bytes := text.toByteArray.data.toList

def ofUtf8 (bytes : Bytes) : Option String := String.fromUTF8? ⟨bytes.toArray⟩

variable {a b text : String} {byte : UInt8}

theorem utf8_injective (eq : utf8 a = utf8 b) : a = b := by
  refine String.toByteArray_inj.mp (ByteArray.ext ?_)
  exact Array.toList_inj.mp eq

@[simp] theorem utf8_inj : utf8 a = utf8 b ↔ a = b :=
  ⟨utf8_injective, fun eq => eq ▸ rfl⟩

@[simp] theorem ofUtf8_utf8 (text : String) : ofUtf8 (utf8 text) = some text := by
  have valid := text.isValidUTF8
  simp only [ofUtf8, utf8, String.fromUTF8?]
  simp [valid, String.fromUTF8]

theorem utf8_of_ofUtf8 {bytes : Bytes} (decoded : ofUtf8 bytes = some text) : utf8 text = bytes := by
  simp only [ofUtf8, String.fromUTF8?] at decoded
  split at decoded
  · cases decoded
    simp [utf8, String.fromUTF8]
  · cases decoded

theorem byte_lt_of_mem_utf8EncodeChar {char : Char} (mem : byte ∈ String.utf8EncodeChar char) : byte.toNat < 248 := by
  have le : ∀ v : Nat, v < 248 → (UInt8.ofNat v).toNat < 248 := by
    intro v lt
    rw [UInt8.toNat_ofNat']
    omega
  simp only [String.utf8EncodeChar] at mem
  split at mem
  · simp only [mem_singleton] at mem
    exact mem ▸ le _ (by omega)
  · split at mem
    · simp only [mem_cons, not_mem_nil, or_false] at mem
      rcases mem with rfl | rfl <;> exact le _ (by omega)
    · split at mem
      · simp only [mem_cons, not_mem_nil, or_false] at mem
        rcases mem with rfl | rfl | rfl <;> exact le _ (by omega)
      · simp only [mem_cons, not_mem_nil, or_false] at mem
        rcases mem with rfl | rfl | rfl | rfl <;> exact le _ (by omega)

theorem byte_lt_of_mem_utf8 (mem : byte ∈ utf8 text) : byte.toNat < 248 := by
  obtain ⟨chars, encoded⟩ := text.isValidUTF8
  have ls : utf8 text = chars.flatMap String.utf8EncodeChar := by
    rw [utf8, encoded, List.utf8Encode, data_toByteArray]
  obtain ⟨char, _, inChar⟩ := mem_flatMap.mp (ls ▸ mem)
  exact byte_lt_of_mem_utf8EncodeChar inChar

@[simp] theorem separator_not_mem_utf8 (text : String) : 255 ∉ utf8 text := fun mem =>
  absurd (byte_lt_of_mem_utf8 mem) (by decide)

/-- Parts that are told from whatever follows them are told apart in a row. -/
theorem eq_of_flatten_eq {α : Type} {encodes : α → Bytes → Prop}
    (apart : ∀ {item item' part part' rest rest'}, encodes item part → encodes item' part' →
      part ++ rest = part' ++ rest' → item = item' ∧ rest = rest')
    (nonempty : ∀ item, ¬encodes item []) {items items' : List α} {parts parts' : List Bytes}
    (encoded : List.Forall₂ encodes items parts) (encoded' : List.Forall₂ encodes items' parts')
    (same : parts.flatten = parts'.flatten) : items = items' := by
  induction encoded generalizing items' parts' with
  | nil =>
    cases encoded' with
    | nil => rfl
    | cons head tail =>
      rw [flatten_nil, flatten_cons, eq_comm, append_eq_nil_iff] at same
      exact absurd (same.1 ▸ head) (nonempty _)
  | cons head tail ih =>
    cases encoded' with
    | nil =>
      rw [flatten_cons, flatten_nil, append_eq_nil_iff] at same
      exact absurd (same.1 ▸ head) (nonempty _)
    | cons head' tail' =>
      obtain ⟨rfl, same⟩ := apart head head' same
      rw [ih tail' same]

def hexDigit (value : Nat) : Char := "0123456789abcdef".toList.getD (value % 16) '0'

/-- `width` lower-case digits, the most significant first. -/
def hexDigits : Nat → Nat → List Char
  | 0, _ => []
  | width + 1, value => hexDigit (value / 16 ^ width) :: hexDigits width value

theorem mod_eq_of_hexDigit_eq {a b : Nat} (eq : hexDigit a = hexDigit b) : a % 16 = b % 16 := by
  have distinct : ∀ one < 16, ∀ two < 16, "0123456789abcdef".toList.getD one '0' =
      "0123456789abcdef".toList.getD two '0' → one = two := by decide
  exact distinct _ (Nat.mod_lt _ (by decide)) _ (Nat.mod_lt _ (by decide)) eq

theorem hexDigits_injective {width a b : Nat} (firstFits : a < 16 ^ width) (secondFits : b < 16 ^ width)
    (eq : hexDigits width a = hexDigits width b) : a = b := by
  suffices remainders : a % 16 ^ width = b % 16 ^ width by
    rwa [Nat.mod_eq_of_lt firstFits, Nat.mod_eq_of_lt secondFits] at remainders
  clear firstFits secondFits
  induction width with
  | zero => simp [Nat.mod_one]
  | succ width ih =>
    simp only [hexDigits, List.cons.injEq] at eq
    have head := mod_eq_of_hexDigit_eq eq.1
    rw [Nat.mod_pow_succ, Nat.mod_pow_succ, head, ih eq.2]

end Text

end Wbfuwunel.Foundation
