import Wbfuwunel.Wire.PackRoundTrip

/-! `decode` on a machine with a word of so many bits: an addition may pass the word, and an access may leave the buffer.
Either ends the run with a fault. -/

set_option autoImplicit false

namespace Wbfuwunel.Wire.Machine

open Foundation Pack

inductive Fault where
  | overflow
  | outOfRange
  deriving DecidableEq, Repr

variable (word : Nat) (crc32c : Bytes → UInt32) (bytes : Bytes)

def add (first second : Nat) : Except Fault Nat :=
  if first + second < 2 ^ word then .ok (first + second) else .error .overflow

def saturatingAdd (first second : Nat) : Nat := min (first + second) (2 ^ word - 1)

def index (offset : Nat) : Except Fault UInt8 :=
  if offset < bytes.length then .ok (bytes.getD offset 0) else .error .outOfRange

def range (start stop : Nat) : Except Fault Bytes :=
  if start ≤ stop ∧ stop ≤ bytes.length then .ok (slice bytes start stop) else .error .outOfRange

def readU32 (offset : Nat) : Except Fault UInt32 := do
  let stop ← add word offset 4
  return fromBeBytes32 (← range bytes offset stop)

/-- The inner result is what the caller gets. -/
def decode : Except Fault (Except PackError PackView) := do
  let len := bytes.length
  if len < overhead then return .error (.tooShort len)
  let version ← index bytes 0
  if version ≠ Wire.version then return .error (.unsupportedVersion version)
  match Kind.tryFrom (← index bytes 1) with
  | .error error => return .error error
  | .ok kind =>
  let subtype ← index bytes 2
  let flags : Flags := ⟨← index bytes 3⟩
  if flags.hasReservedBits then return .error (.reservedFlags flags.bits)
  let id := fromBeBytes64 (← range bytes 4 12)
  let seq := fromBeBytes32 (← range bytes 12 16)
  let metaLen := (← readU32 word bytes headerLen).toNat
  if metaLen > len then return .error (.truncated (saturatingAdd word metaLen overhead) len)
  let metaStart ← add word headerLen 4
  let metaEnd ← add word metaStart metaLen
  let dataLenAt ← add word metaEnd 4
  let needed ← add word dataLenAt 4
  if needed > len then return .error (.truncated needed len)
  let metaCrcExpected ← readU32 word bytes metaEnd
  let metaCrcActual := crc32c (← range bytes 0 metaEnd)
  if metaCrcExpected ≠ metaCrcActual then return .error (.metaCrc metaCrcExpected metaCrcActual)
  let dataLen := (← readU32 word bytes dataLenAt).toNat
  if dataLen > len then return .error (.truncated (saturatingAdd word dataLen overhead) len)
  let dataStart ← add word dataLenAt 4
  let dataEnd ← add word dataStart dataLen
  let total ← add word dataEnd 4
  if total > len then return .error (.truncated total len)
  if total < len then return .error (.trailingBytes total len)
  let dataCrcExpected ← readU32 word bytes dataEnd
  let dataCrcActual := crc32c (← range bytes dataStart dataEnd)
  if dataCrcExpected ≠ dataCrcActual then return .error (.dataCrc dataCrcExpected dataCrcActual)
  -- `split_at_mut`
  let beforeData ← range bytes 0 dataStart
  let fromData ← range bytes dataStart len
  let metaSection ← range beforeData metaStart metaEnd
  let data ← range fromData 0 dataLen
  return .ok { header := { version, kind, subtype, flags, id, seq }, metaSection, data }

def Safe {α : Type} (run : Except Fault α) : Prop := ∃ result, run = .ok result

section Rules

variable {word bytes} {α : Type}

theorem safe_pure (v : α) : Safe (pure v) := ⟨v, rfl⟩

theorem safe_ite {condition : Prop} [Decidable condition] (v : α) (run : Except Fault α) :
    Safe (if condition then pure v else run) ↔ (¬condition → Safe run) := by
  split <;> simp_all [safe_pure]

theorem safe_guard {condition : Prop} [Decidable condition] {β : Type} (v : β) (fault : Fault) (rest : β → Except Fault α) :
    Safe ((if condition then .ok v else .error fault) >>= rest) ↔ condition ∧ Safe (rest v) := by
  by_cases h : condition <;> simp [h, Safe, bind, Except.bind]

variable (rest : Nat → Except Fault α)

theorem safe_add (a b : Nat) : Safe (add word a b >>= rest) ↔ a + b < 2 ^ word ∧ Safe (rest (a + b)) :=
  safe_guard ..

theorem safe_index (offset : Nat) (rest : UInt8 → Except Fault α) :
    Safe (index bytes offset >>= rest) ↔ offset < bytes.length ∧ Safe (rest (bytes.getD offset 0)) :=
  safe_guard ..

theorem safe_range (start stop : Nat) (rest : Bytes → Except Fault α) :
    Safe (range bytes start stop >>= rest) ↔ (start ≤ stop ∧ stop ≤ bytes.length) ∧ Safe (rest (slice bytes start stop)) :=
  safe_guard ..

theorem safe_readU32 (offset : Nat) (rest : UInt32 → Except Fault α) : Safe (readU32 word bytes offset >>= rest) ↔
    (offset + 4 < 2 ^ word ∧ offset + 4 ≤ bytes.length) ∧ Safe (rest (Wire.readU32 bytes offset)) := by
  rw [readU32]
  simp only [safe_add, safe_range, bind_assoc, Nat.le_add_right, true_and, and_assoc]
  rfl

end Rules

/-- Every check up to the length of the data is passed. -/
def Reaches : Prop :=
  overhead ≤ bytes.length ∧ bytes.getD 0 0 = Wire.version ∧ (Kind.tryFrom (bytes.getD 1 0)).isOk ∧
    Flags.hasReservedBits ⟨bytes.getD 3 0⟩ = false ∧ dataStartOf bytes ≤ bytes.length ∧
    Wire.readU32 bytes (metaEndOf bytes) = crc32c (bytes.take (metaEndOf bytes)) ∧
    (Wire.readU32 bytes (metaEndOf bytes + 4)).toNat ≤ bytes.length

section Bounded

variable {word bytes} (width : word = 32 ∨ word = 64) (fits : bytes.length ≤ 2 ^ (word - 1) - 1)
include width fits

theorem safe_decode_iff : Safe (decode word crc32c bytes) ↔ (Reaches crc32c bytes → dataEndOf bytes + 4 < 2 ^ word) := by
  have wide : 2 ^ 32 ≤ 2 ^ word ∧ 2 * (2 ^ (word - 1) - 1) + 2 = 2 ^ word := by rcases width with rfl | rfl <;> decide
  simp only [decode, safe_index, safe_ite]
  cases got : Kind.tryFrom (bytes.getD 1 0) with
  | error error =>
    refine iff_of_true (fun long => ?_) fun reaches => ?_
    · simp only [overhead] at long
      exact ⟨by omega, fun _ => ⟨by omega, safe_pure _⟩⟩
    · simp only [Reaches, got, Except.toBool, Bool.false_eq_true, false_and, and_false] at reaches
  | ok kind =>
    -- each rule turns one operation into its condition, in the order of the code
    simp only [safe_add, safe_index, safe_range, safe_ite, safe_readU32, safe_pure]
    have offset : headerLen + 4 + (Wire.readU32 bytes headerLen).toNat = metaEndOf bytes := rfl
    have front : slice bytes 0 (metaEndOf bytes) = bytes.take (metaEndOf bytes) := by simp [slice]
    have part (start stop : Nat) : (slice bytes start stop).length = min (stop - start) (bytes.length - start) := by simp [slice]
    simp only [Reaches, got, Except.toBool, offset, front, part, dataEndOf, dataStartOf]
    simp only [overhead] at offset ⊢
    constructor
    · rintro safe ⟨long, v, -, flags, r, crc, capped⟩
      grind
    · intro enough long
      refine ⟨by omega, fun v => ⟨by omega, by omega, by omega, fun flags => ⟨by omega, by omega, by omega, fun _ =>
        ⟨by omega, by omega, by omega, by omega, fun r => ⟨by omega, by omega, fun crc => ⟨by omega, fun capped => ?_⟩⟩⟩⟩⟩⟩
      have total := enough ⟨by omega, by simpa using v, trivial, by simpa using flags, by omega, by simpa using crc, by omega⟩
      exact ⟨by omega, by omega, total, fun _ _ => ⟨by omega, by omega, fun _ =>
        ⟨by omega, by omega, by omega, by omega, trivial⟩⟩⟩

/-- The one addition that can pass the word is the last: the data's length is held against the buffer's alone. -/
theorem decode_safe_iff : (Safe (decode word crc32c bytes) ↔ (Reaches crc32c bytes → dataEndOf bytes + 4 < 2 ^ word)) ∧
      (2 * bytes.length + 4 < 2 ^ word → Safe (decode word crc32c bytes)) := by
  have safe := safe_decode_iff crc32c width fits
  refine ⟨safe, fun lt => safe.mpr fun reaches => ?_⟩
  obtain ⟨-, -, -, -, r, -, capped⟩ := reaches
  rw [dataEndOf]
  omega

end Bounded

def helloData : Bytes := utf8 "hello"

/-- A control pack with an empty object for its meta. -/
def hello : Bytes :=
  [1, 1, 2, 0, 0, 0, 0, 0, 0, 0, 0, 7, 0, 0, 0, 1, 0, 0, 0, 2, 123, 125, 24, 255, 143, 239, 0, 0, 0, 5] ++ helloData ++
    [154, 113, 187, 76]

/-- CRC-32C, for the two sections of the pack. -/
def helloCrc (part : Bytes) : UInt32 := if part = helloData then 0x9A71BB4C else 0x18FF8FEF

theorem decode_safe_of_hello : Reaches helloCrc hello ∧ Safe (decode 32 helloCrc hello) ∧
    (Wire.decode helloCrc hello).toOption.map PackView.data = some helloData :=
  ⟨by unfold Reaches; decide, (decode_safe_iff helloCrc (.inl rfl) (by decide)).1.mpr fun _ => by decide, by decide⟩

/-- A meta section that leaves no room for data. -/
def hostile : Pack where
  kind := .control
  subtype := 0
  flags := ⟨0⟩
  id := 0
  seq := 0
  metaSection := List.replicate (2 ^ 31 - 29) 0
  data := []
  flags_known := by decide
  meta_fits := by rw [List.length_replicate]; decide
  data_fits := by decide

/-- The largest buffer of a 32-bit machine, whose data claim to be as long as the buffer. -/
theorem decode_overflows : let bytes := hostile.framed (fun _ => 0) 0x7FFFFFFF []
    bytes.length = 2 ^ 31 - 1 ∧ ¬Safe (decode 32 (fun _ => 0) bytes) := by
  intro bytes
  have metaLen : hostile.metaSection.length = 2 ^ 31 - 29 := List.length_replicate
  have len : bytes.length = 2 ^ 31 - 1 := by
    rw [framed_length, dataStart, metaLen]
    rfl
  have metaEnd : metaEndOf bytes = headerLen + 4 + hostile.metaSection.length := by
    rw [metaEndOf, readU32_metaLen, toNat_ofNat_length hostile.meta_fits]
  have dataLen : (Wire.readU32 bytes (metaEndOf bytes + 4)).toNat = 2 ^ 31 - 1 := by
    rw [metaEnd, readU32_dataLen]
    rfl
  obtain ⟨tail, leading⟩ : ∃ tail, bytes = [version, Kind.control.byte, 0, 0] ++ tail := ⟨_, framed_leading ..⟩
  refine ⟨len, fun safe => ?_⟩
  have total := (safe_decode_iff _ (.inl rfl) len.le).mp safe ⟨?_, ?_, ?_, ?_, ?_, ?_, ?_⟩
  · rw [dataEndOf, dataLen, dataStartOf, metaEnd, metaLen] at total
    exact absurd total (by decide)
  · rw [len]; decide
  · rw [leading]; rfl
  · rw [leading]; rfl
  · rw [leading]; exact hostile.flags_known
  · rw [dataStartOf, metaEnd, metaLen, len]; decide
  · rw [metaEnd, readU32_metaCrc]
  · rw [dataLen, len]

end Wbfuwunel.Wire.Machine
