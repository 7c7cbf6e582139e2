import Wbfuwunel.Foundation.Bytes

/-! One pack: a fixed header, a variable meta section, a variable data section,
and a checksum after each variable section.

CRC-32C is a parameter: the format only relies on it being one function from
byte strings to 32-bit words. Offsets and lengths (`usize`) are natural numbers.
-/

set_option autoImplicit false

namespace Wbfuwunel.Wire

open Foundation

def version : UInt8 := 1

def headerLen : Nat := 16

/-- Fixed bytes around the two variable sections: header, two lengths, two checksums. -/
def overhead : Nat := headerLen + 4 + 4 + 4 + 4

inductive Kind where
  | control | stream | upload | download | invite
  | session | account | sync | room | event | receipt | device | keys | push
  | media | search | voip | misc | report | admin
  deriving DecidableEq, Repr

def Kind.byte : Kind → UInt8
  | .control => 0x01
  | .stream => 0x02
  | .upload => 0x03
  | .download => 0x04
  | .invite => 0x05
  | .session => 0x10
  | .account => 0x11
  | .sync => 0x12
  | .room => 0x13
  | .event => 0x14
  | .receipt => 0x15
  | .device => 0x16
  | .keys => 0x17
  | .push => 0x18
  | .media => 0x19
  | .search => 0x1A
  | .voip => 0x1B
  | .misc => 0x1C
  | .report => 0x1D
  | .admin => 0x20

inductive PackError where
  | tooShort (len : Nat)
  | unsupportedVersion (version : UInt8)
  | unknownKind (byte : UInt8)
  | reservedFlags (bits : UInt8)
  | truncated (needed len : Nat)
  | trailingBytes (expected len : Nat)
  | metaCrc (expected actual : UInt32)
  | dataCrc (expected actual : UInt32)
  | metaNotJson
  | sectionTooLarge (len : Nat)
  | dataAlreadyReserved
  deriving DecidableEq, Repr

def Kind.tryFrom (byte : UInt8) : Except PackError Kind :=
  match byte with
  | 0x01 => .ok .control
  | 0x02 => .ok .stream
  | 0x03 => .ok .upload
  | 0x04 => .ok .download
  | 0x05 => .ok .invite
  | 0x10 => .ok .session
  | 0x11 => .ok .account
  | 0x12 => .ok .sync
  | 0x13 => .ok .room
  | 0x14 => .ok .event
  | 0x15 => .ok .receipt
  | 0x16 => .ok .device
  | 0x17 => .ok .keys
  | 0x18 => .ok .push
  | 0x19 => .ok .media
  | 0x1A => .ok .search
  | 0x1B => .ok .voip
  | 0x1C => .ok .misc
  | 0x1D => .ok .report
  | 0x20 => .ok .admin
  | unknown => .error (.unknownKind unknown)

/-- The flags byte. Reserved bits must be zero on the wire. -/
structure Flags where
  bits : UInt8
  deriving DecidableEq, Repr

namespace Flags

def isResponse : Flags := ⟨0b00000100⟩
def isLast : Flags := ⟨0b00001000⟩
def known : UInt8 := 0b00011111

def hasReservedBits (flags : Flags) : Bool := flags.bits &&& ~~~known != 0

end Flags

structure PackHeader where
  version : UInt8
  kind : Kind
  subtype : UInt8
  flags : Flags
  id : UInt64
  seq : UInt32
  deriving DecidableEq, Repr

/-- A decoded pack. The source borrows both sections from the buffer; here they are
the bytes of those slices. -/
structure PackView where
  header : PackHeader
  metaSection : Bytes
  data : Bytes
  deriving DecidableEq, Repr

structure PackBuilder where
  buf : Bytes
  metaEnd : Nat
  dataStart : Option Nat
  deriving DecidableEq, Repr

namespace PackBuilder

def new (kind : Kind) (subtype : UInt8) (flags : Flags) (id : UInt64) (seq : UInt32) : PackBuilder where
  -- the trailing zero length is patched by `metaSection`
  buf := [Wire.version, kind.byte, subtype, flags.bits] ++ toBeBytes64 id ++ toBeBytes32 seq ++ toBeBytes32 0
  metaEnd := headerLen + 4
  dataStart := none

variable (builder : PackBuilder) (content : Bytes)

/-- `PackBuilder::meta`: sets the meta section, which must precede the data slot. -/
def metaSection : Except PackError PackBuilder :=
  if builder.dataStart.isSome then .error .dataAlreadyReserved
  else if content.length < 2 ^ 32 then
    let buf := builder.buf.take headerLen ++ toBeBytes32 (UInt32.ofNat content.length) ++ content
    .ok { builder with buf, metaEnd := buf.length }
  else .error (.sectionTooLarge content.length)

/-- Reserves `len` zeroed bytes for data; `fill` is what the caller then writes there. -/
def dataSlot (builder : PackBuilder) (len : Nat) : Except PackError PackBuilder :=
  if builder.dataStart.isSome then .error .dataAlreadyReserved
  else if len < 2 ^ 32 then
    -- four bytes for the meta checksum, patched by `finish`
    let buf := builder.buf ++ List.replicate 4 0 ++ toBeBytes32 (UInt32.ofNat len)
    .ok { builder with buf := buf ++ List.replicate len 0, dataStart := some buf.length }
  else .error (.sectionTooLarge len)

/-- Writes through the slice `dataSlot` handed out. Without a slot there is none. -/
def fill : PackBuilder :=
  match builder.dataStart with
  | none => builder
  | some start => { builder with buf := patch builder.buf start content }

def data : Except PackError PackBuilder :=
  (builder.dataSlot content.length).map (·.fill content)

def finish (crc32c : Bytes → UInt32) (builder : PackBuilder) : Bytes :=
  let buf := match builder.dataStart with
    | some _ => builder.buf
    | none => builder.buf ++ List.replicate 4 0 ++ toBeBytes32 0
  let dataStart := builder.dataStart.getD buf.length
  let metaCrc := crc32c (buf.take builder.metaEnd)
  let buf := patch buf builder.metaEnd (toBeBytes32 metaCrc)
  let dataCrc := crc32c (buf.drop dataStart)
  buf ++ toBeBytes32 dataCrc

end PackBuilder

/-- `u32::from_be_bytes(bytes[at..at + 4])`. -/
def readU32 (bytes : Bytes) (offset : Nat) : UInt32 :=
  fromBeBytes32 (slice bytes offset (offset + 4))

/-- Decodes one pack. Fixed offsets and two checksum passes; trailing bytes are an
error rather than a second pack. -/
def decode (crc32c : Bytes → UInt32) (bytes : Bytes) : Except PackError PackView :=
  let len := bytes.length
  if len < overhead then .error (.tooShort len)
  else
  let version := bytes.getD 0 0
  if version ≠ Wire.version then .error (.unsupportedVersion version)
  else
  match Kind.tryFrom (bytes.getD 1 0) with
  | .error error => .error error
  | .ok kind =>
  let subtype := bytes.getD 2 0
  let flags : Flags := ⟨bytes.getD 3 0⟩
  if flags.hasReservedBits then .error (.reservedFlags flags.bits)
  else
  let id := fromBeBytes64 (slice bytes 4 12)
  let seq := fromBeBytes32 (slice bytes 12 16)
  let metaLen := (readU32 bytes headerLen).toNat
  if metaLen > len then .error (.truncated (metaLen + overhead) len)
  else
  let metaStart := headerLen + 4
  let metaEnd := metaStart + metaLen
  let dataLenAt := metaEnd + 4
  if dataLenAt + 4 > len then .error (.truncated (dataLenAt + 4) len)
  else
  let metaCrcExpected := readU32 bytes metaEnd
  let metaCrcActual := crc32c (bytes.take metaEnd)
  if metaCrcExpected ≠ metaCrcActual then .error (.metaCrc metaCrcExpected metaCrcActual)
  else
  let dataLen := (readU32 bytes dataLenAt).toNat
  if dataLen > len then .error (.truncated (dataLen + overhead) len)
  else
  let dataStart := dataLenAt + 4
  let dataEnd := dataStart + dataLen
  let total := dataEnd + 4
  if total > len then .error (.truncated total len)
  else if total < len then .error (.trailingBytes total len)
  else
  let dataCrcExpected := readU32 bytes dataEnd
  let dataCrcActual := crc32c (slice bytes dataStart dataEnd)
  if dataCrcExpected ≠ dataCrcActual then .error (.dataCrc dataCrcExpected dataCrcActual)
  else .ok {
    header := { version, kind, subtype, flags, id, seq }
    metaSection := slice bytes metaStart metaEnd
    data := slice bytes dataStart dataEnd }

end Wbfuwunel.Wire
