import Wbfuwunel.Foundation.Checks
import Wbfuwunel.Wire.Pack

/-! The builder and the decoder are inverse.

`Pack` carries what the builder's callers promise: known flag bits and sections
whose lengths fit their fields. Its `bytes` are the layout both sides agree on.
-/

set_option autoImplicit false

namespace Wbfuwunel.Wire

open Foundation List PackBuilder Kind

variable (crc32c : Bytes → UInt32)

structure Pack where
  kind : Kind
  subtype : UInt8
  flags : Flags
  id : UInt64
  seq : UInt32
  metaSection : Bytes
  data : Bytes
  flags_known : flags.hasReservedBits = false
  meta_fits : metaSection.length < 2 ^ 32
  data_fits : data.length < 2 ^ 32

@[simp] theorem Kind.tryFrom_byte (kind : Kind) : tryFrom kind.byte = .ok kind := by
  cases kind <;> rfl

theorem Kind.byte_of_tryFrom {byte : UInt8} {kind : Kind} (got : tryFrom byte = .ok kind) : kind.byte = byte := by
  unfold tryFrom at got
  split at got <;> cases got <;> rfl

namespace Pack

def view (pack : Pack) : PackView where
  header := { version, kind := pack.kind, subtype := pack.subtype, flags := pack.flags, id := pack.id, seq := pack.seq }
  metaSection := pack.metaSection
  data := pack.data

theorem view_injective {a b : Pack} (eq : a.view = b.view) : a = b := by
  cases a
  cases b
  simp only [view, PackView.mk.injEq, PackHeader.mk.injEq] at eq
  simp only [mk.injEq]
  tauto

variable (pack : Pack)

def build : Except PackError Bytes := do
  let builder ← (new pack.kind pack.subtype pack.flags pack.id pack.seq).metaSection pack.metaSection
  let builder ← builder.data pack.data
  return builder.finish crc32c

/-- `new`, `meta`, `data_slot` written by the caller, `finish`. -/
def buildInSlot : Except PackError Bytes := do
  let builder ← (new pack.kind pack.subtype pack.flags pack.id pack.seq).metaSection pack.metaSection
  let builder ← builder.dataSlot pack.data.length
  return (builder.fill pack.data).finish crc32c

def headerBytes : Bytes :=
  [version, pack.kind.byte, pack.subtype, pack.flags.bits] ++ (toBeBytes64 pack.id ++ toBeBytes32 pack.seq)

def front : Bytes :=
  pack.headerBytes ++ (toBeBytes32 (UInt32.ofNat pack.metaSection.length) ++ pack.metaSection)

def bytes : Bytes :=
  pack.front ++ (toBeBytes32 (crc32c pack.front) ++
    (toBeBytes32 (UInt32.ofNat pack.data.length) ++ (pack.data ++ toBeBytes32 (crc32c pack.data))))

@[simp] theorem headerBytes_length (pack : Pack) : pack.headerBytes.length = headerLen := by
  simp [headerBytes, headerLen]

@[simp] theorem front_length (pack : Pack) : pack.front.length = headerLen + 4 + pack.metaSection.length := by
  simp [front]
  omega

/-! ## What the builder writes -/

theorem metaSection_new (pack : Pack) :
    (new pack.kind pack.subtype pack.flags pack.id pack.seq).metaSection pack.metaSection =
      .ok { buf := pack.front, metaEnd := pack.front.length, dataStart := none } := by
  have started : (new pack.kind pack.subtype pack.flags pack.id pack.seq).buf = pack.headerBytes ++ toBeBytes32 0 := by
    simp [new, headerBytes]
  have header : (new pack.kind pack.subtype pack.flags pack.id pack.seq).buf.take headerLen = pack.headerBytes := by
    rw [started, ← pack.headerBytes_length, take_left]
  simp only [PackBuilder.metaSection, header, pack.meta_fits]
  simp [new, front]

/-- The builder once the data has its place. -/
def slotted (pack : Pack) (data : Bytes) : PackBuilder where
  buf := pack.front ++ (List.replicate 4 0 ++ (toBeBytes32 (UInt32.ofNat pack.data.length) ++ data))
  metaEnd := pack.front.length
  dataStart := some (pack.front.length + 8)

theorem dataSlot_front (pack : Pack) :
    dataSlot { buf := pack.front, metaEnd := pack.front.length, dataStart := none } pack.data.length =
      .ok (pack.slotted (List.replicate pack.data.length 0)) := by
  simp only [dataSlot, pack.data_fits]
  simp [slotted]

theorem fill_slotted (pack : Pack) :
    fill (pack.slotted (List.replicate pack.data.length 0)) pack.data = pack.slotted pack.data := by
  have old : pack.front.length + 8 =
      (pack.front ++ (List.replicate 4 0 ++ toBeBytes32 (UInt32.ofNat pack.data.length))).length := by simp
  have written := patch_append _ (List.replicate pack.data.length 0) pack.data [] old (by simp)
  simpa [fill, slotted] using written

theorem finish_slotted (pack : Pack) : finish crc32c (pack.slotted pack.data) = pack.bytes crc32c := by
  have patched := patch_append pack.front (List.replicate 4 0) (toBeBytes32 (crc32c pack.front))
    (toBeBytes32 (UInt32.ofNat pack.data.length) ++ pack.data) rfl (by simp)
  have covered : List.drop (pack.front.length + 8) (pack.front ++ (toBeBytes32 (crc32c pack.front) ++
      (toBeBytes32 (UInt32.ofNat pack.data.length) ++ pack.data))) = pack.data := by
    rw [← drop_drop]
    simp [drop_append]
  simp only [finish, slotted, Option.getD_some, take_left', patched, covered]
  simp [bytes]

theorem build_eq (pack : Pack) : pack.build crc32c = .ok (pack.bytes crc32c) := by
  simp only [build, metaSection_new, PackBuilder.data, bind, Except.bind, dataSlot_front, Except.map, fill_slotted,
    pure, Except.pure, finish_slotted]

theorem buildInSlot_eq (pack : Pack) : pack.buildInSlot crc32c = .ok (pack.bytes crc32c) := by
  simp only [buildInSlot, metaSection_new, bind, Except.bind, dataSlot_front, fill_slotted, pure, Except.pure,
    finish_slotted]

/-! ## What the decoder reads back -/

theorem readU32_append (old after : Bytes) (v : UInt32) {offset : Nat} (pre : offset = old.length) :
    readU32 (old ++ (toBeBytes32 v ++ after)) offset = v := by
  rw [readU32, slice_append old (toBeBytes32 v) after pre (by simp [pre]), fromBeBytes32_toBeBytes32]

theorem toNat_ofNat_length {c : Bytes} (fits : c.length < 2 ^ 32) : (UInt32.ofNat c.length).toNat = c.length := by
  simp only [UInt32.toNat_ofNat']
  omega

/-! ### Field by field -/

section Fields

variable (pack : Pack) (crc32c : Bytes → UInt32) (dataLen : UInt32) (rest : Bytes)

def framed : Bytes := pack.front ++ (toBeBytes32 (crc32c pack.front) ++ (toBeBytes32 dataLen ++ rest))

abbrev dataStart : Nat := headerLen + 4 + pack.metaSection.length + 4 + 4

theorem framed_length : (pack.framed crc32c dataLen rest).length = pack.dataStart + rest.length := by
  simp [framed, dataStart]
  omega

theorem framed_leading : pack.framed crc32c dataLen rest = [version, pack.kind.byte, pack.subtype, pack.flags.bits] ++
    (toBeBytes64 pack.id ++ (toBeBytes32 pack.seq ++ (pack.framed crc32c dataLen rest).drop headerLen)) := by
  simp [framed, front, headerBytes, headerLen, drop_append]

theorem slice_id : slice (pack.framed crc32c dataLen rest) 4 12 = toBeBytes64 pack.id := by
  rw [framed_leading]
  exact slice_append _ _ _ (by simp) (by simp)

theorem slice_seq : slice (pack.framed crc32c dataLen rest) 12 16 = toBeBytes32 pack.seq := by
  rw [framed_leading, ← append_assoc]
  exact slice_append _ _ _ (by simp) (by simp)

theorem readU32_metaLen : readU32 (pack.framed crc32c dataLen rest) headerLen = UInt32.ofNat pack.metaSection.length := by
  rw [framed, front, append_assoc]
  exact readU32_append _ _ _ (by simp)

theorem slice_metaSection : slice (pack.framed crc32c dataLen rest) (headerLen + 4)
    (headerLen + 4 + pack.metaSection.length) = pack.metaSection := by
  rw [framed, front, append_assoc, append_assoc, ← append_assoc pack.headerBytes]
  exact slice_append _ _ _ (by simp) (by simp)

theorem take_front : (pack.framed crc32c dataLen rest).take (headerLen + 4 + pack.metaSection.length) = pack.front := by
  rw [framed, ← pack.front_length, take_left]

theorem readU32_metaCrc :
    readU32 (pack.framed crc32c dataLen rest) (headerLen + 4 + pack.metaSection.length) = crc32c pack.front :=
  readU32_append _ _ _ (by simp)

theorem readU32_dataLen : readU32 (pack.framed crc32c dataLen rest) (headerLen + 4 + pack.metaSection.length + 4) =
    dataLen := by
  rw [framed, ← append_assoc]
  exact readU32_append _ _ _ (by simp)

theorem slice_rest (n stop : Nat) : slice (pack.framed crc32c dataLen rest) (pack.dataStart + n)
    (pack.dataStart + stop) = slice rest n stop := by
  have old : pack.dataStart = (pack.front ++ toBeBytes32 (crc32c pack.front) ++ toBeBytes32 dataLen).length := by simp
  rw [old, framed, ← append_assoc, ← append_assoc, slice, slice, ← drop_drop, drop_left, Nat.add_sub_add_left]

theorem decode_framed (room : 4 ≤ rest.length) : decode crc32c (pack.framed crc32c dataLen rest) =
    let len := pack.dataStart + rest.length
    if dataLen.toNat > len then .error (.truncated (dataLen.toNat + overhead) len)
    else if pack.dataStart + dataLen.toNat + 4 > len then .error (.truncated (pack.dataStart + dataLen.toNat + 4) len)
    else if pack.dataStart + dataLen.toNat + 4 < len then .error (.trailingBytes (pack.dataStart + dataLen.toNat + 4) len)
    else if readU32 rest dataLen.toNat ≠ crc32c (slice rest 0 dataLen.toNat) then
      .error (.dataCrc (readU32 rest dataLen.toNat) (crc32c (slice rest 0 dataLen.toNat)))
    else .ok { pack.view with data := slice rest 0 dataLen.toNat } := by
  have len := pack.framed_length crc32c dataLen rest
  have byte0 : (pack.framed crc32c dataLen rest).getD 0 0 = version := by rw [framed_leading]; rfl
  have byte1 : (pack.framed crc32c dataLen rest).getD 1 0 = pack.kind.byte := by rw [framed_leading]; rfl
  have byte2 : (pack.framed crc32c dataLen rest).getD 2 0 = pack.subtype := by rw [framed_leading]; rfl
  have byte3 : (pack.framed crc32c dataLen rest).getD 3 0 = pack.flags.bits := by rw [framed_leading]; rfl
  have crc (n : Nat) : readU32 (pack.framed crc32c dataLen rest) (pack.dataStart + n) = readU32 rest n :=
    congrArg fromBeBytes32 (pack.slice_rest crc32c dataLen rest n (n + 4))
  have wide : ¬ pack.dataStart + rest.length < overhead ∧ ¬ pack.metaSection.length > pack.dataStart + rest.length ∧
      ¬ pack.dataStart > pack.dataStart + rest.length := by
    simp only [overhead, dataStart]; omega
  -- Every check of the decoder meets the field it reads, in the decoder's order.
  simp only [decode, len, byte0, byte1, byte2, byte3, slice_id, slice_seq, readU32_metaLen,
    toNat_ofNat_length pack.meta_fits, readU32_metaCrc, take_front, readU32_dataLen, slice_metaSection, crc, wide,
    pack.slice_rest crc32c dataLen rest 0, tryFrom_byte, pack.flags_known, fromBeBytes64_toBeBytes64,
    fromBeBytes32_toBeBytes32, ne_eq, not_true, if_false]
  rfl

end Fields

theorem decode_bytes (pack : Pack) : decode crc32c (pack.bytes crc32c) = .ok pack.view := by
  have data : slice (pack.data ++ toBeBytes32 (crc32c pack.data)) 0 pack.data.length = pack.data := by simp [slice]
  have crc : readU32 (pack.data ++ toBeBytes32 (crc32c pack.data)) pack.data.length = crc32c pack.data := by
    simpa using readU32_append pack.data [] (crc32c pack.data) rfl
  refine (pack.decode_framed crc32c (UInt32.ofNat pack.data.length) (pack.data ++ toBeBytes32 (crc32c pack.data))
    (by simp)).trans ?_
  simp only [toNat_ofNat_length pack.data_fits, data, crc, length_append, toBeBytes32_length]
  rw [if_neg (by omega), if_neg (by omega), if_neg (by omega), if_neg (by simp)]
  rfl

end Pack

/-! ## What an accepted buffer is -/

variable {bytes : Bytes}

theorem take_four (le : 4 ≤ bytes.length) :
    bytes.take 4 = [bytes.getD 0 0, bytes.getD 1 0, bytes.getD 2 0, bytes.getD 3 0] := by
  match bytes, le with
  | _ :: _ :: _ :: _ :: _, _ => rfl

theorem toBeBytes32_readU32 {offset : Nat} (mem : offset + 4 ≤ bytes.length) :
    toBeBytes32 (readU32 bytes offset) = slice bytes offset (offset + 4) :=
  toBeBytes32_fromBeBytes32 (by rw [slice_length mem]; omega)

/-- The offsets `decode` computes from the two length fields. -/
def metaEndOf (bytes : Bytes) : Nat := headerLen + 4 + (readU32 bytes headerLen).toNat

def dataStartOf (bytes : Bytes) : Nat := metaEndOf bytes + 4 + 4

def dataEndOf (bytes : Bytes) : Nat := dataStartOf bytes + (readU32 bytes (metaEndOf bytes + 4)).toNat

structure Accepted (bytes : Bytes) (view : PackView) : Prop where
  total : dataEndOf bytes + 4 = bytes.length
  version : bytes.getD 0 0 = Wire.version
  kind : view.header.kind.byte = bytes.getD 1 0
  flags_known : view.header.flags.hasReservedBits = false
  header : view.header = ⟨Wire.version, view.header.kind, bytes.getD 2 0, ⟨bytes.getD 3 0⟩,
    fromBeBytes64 (slice bytes 4 12), fromBeBytes32 (slice bytes 12 headerLen)⟩
  metaSection : view.metaSection = slice bytes (headerLen + 4) (metaEndOf bytes)
  data : view.data = slice bytes (dataStartOf bytes) (dataEndOf bytes)
  metaCrc : readU32 bytes (metaEndOf bytes) = crc32c (bytes.take (metaEndOf bytes))
  dataCrc : readU32 bytes (dataEndOf bytes) = crc32c view.data

theorem accepted_of_decode {view : PackView} (decoded : decode crc32c bytes = .ok view) : Accepted crc32c bytes view := by
  -- One fact for each check that was passed, in the decoder's order.
  simp only [decode, check_eq_ok, Decidable.not_not] at decoded
  obtain ⟨_, v, decoded⟩ := decoded
  split at decoded
  · cases decoded
  rename_i kind got
  simp only [check_eq_ok, Decidable.not_not] at decoded
  obtain ⟨known, _, _, metaCrc, _, fits, exact, dataCrc, decoded⟩ := decoded
  cases decoded
  have total : dataEndOf bytes + 4 = bytes.length := Nat.le_antisymm (Nat.not_lt.mp fits) (Nat.not_lt.mp exact)
  refine ⟨total, v, byte_of_tryFrom got, ?_, ?_, rfl, rfl, metaCrc, dataCrc⟩
  · simpa using known
  · simp only [v, headerLen]

namespace Accepted

variable {crc32c} {bytes : Bytes} {view : PackView} (accepted : Accepted crc32c bytes view)
include accepted

theorem bounds : headerLen + 4 ≤ metaEndOf bytes ∧ metaEndOf bytes + 8 = dataStartOf bytes ∧
      dataStartOf bytes ≤ dataEndOf bytes ∧ dataEndOf bytes + 4 = bytes.length :=
  ⟨Nat.le_add_right _ _, rfl, Nat.le_add_right _ _, accepted.total⟩

theorem metaSection_length : view.metaSection.length = (readU32 bytes headerLen).toNat := by
  obtain ⟨_, _, _, _⟩ := accepted.bounds
  rw [accepted.metaSection, slice_length (by omega), metaEndOf, Nat.add_sub_cancel_left]

theorem data_length : view.data.length = (readU32 bytes (metaEndOf bytes + 4)).toNat := by
  rw [accepted.data, slice_length (by have := accepted.total; omega), dataEndOf, Nat.add_sub_cancel_left]

def pack (accepted : Accepted crc32c bytes view) : Pack where
  kind := view.header.kind
  subtype := view.header.subtype
  flags := view.header.flags
  id := view.header.id
  seq := view.header.seq
  metaSection := view.metaSection
  data := view.data
  flags_known := accepted.flags_known
  meta_fits := by rw [accepted.metaSection_length]; exact UInt32.toNat_lt _
  data_fits := by rw [accepted.data_length]; exact UInt32.toNat_lt _

theorem pack_view : accepted.pack.view = view := by
  have v : view.header.version = Wire.version := by rw [accepted.header]
  simp only [pack, Pack.view, ← v]

theorem headerBytes_pack : accepted.pack.headerBytes = bytes.take headerLen := by
  obtain ⟨_, _, _, _⟩ := accepted.bounds
  have mem : headerLen ≤ bytes.length := by omega
  have wide : 12 ≤ bytes.length := Nat.le_trans (by decide) mem
  have start : bytes.take 4 = [Wire.version, view.header.kind.byte, view.header.subtype, view.header.flags.bits] := by
    rw [take_four (by omega), accepted.version, ← accepted.kind, accepted.header]
  have id : slice bytes 4 12 = toBeBytes64 view.header.id := by
    rw [accepted.header, toBeBytes64_fromBeBytes64 (by rw [slice_length (by omega)])]
  have seq : slice bytes 12 headerLen = toBeBytes32 view.header.seq := by
    rw [accepted.header, toBeBytes32_fromBeBytes32 (by rw [slice_length mem]; rfl)]
  rw [← take_append_slice (show 12 ≤ headerLen by decide), ← take_append_slice (show 4 ≤ 12 by decide), start, id, seq]
  rfl

theorem front_pack : accepted.pack.front = bytes.take (metaEndOf bytes) := by
  obtain ⟨metaStart, _, _, _⟩ := accepted.bounds
  have metaLen : toBeBytes32 (UInt32.ofNat view.metaSection.length) = slice bytes headerLen (headerLen + 4) := by
    rw [accepted.metaSection_length, UInt32.ofNat_toNat, toBeBytes32_readU32 (by omega)]
  rw [← take_append_slice metaStart, ← take_append_slice (show headerLen ≤ headerLen + 4 by decide),
    ← accepted.headerBytes_pack, ← metaLen, ← accepted.metaSection]
  rfl

theorem framed_of_take {o : Bytes} (eq : o.length = bytes.length)
    (front : o.take (metaEndOf bytes + 4) = bytes.take (metaEndOf bytes + 4)) :
    accepted.pack.framed crc32c (readU32 o (metaEndOf bytes + 4)) (o.drop (dataStartOf bytes)) = o := by
  obtain ⟨_, dataStart, _, total⟩ := accepted.bounds
  have metaCrc : toBeBytes32 (crc32c accepted.pack.front) = slice bytes (metaEndOf bytes) (metaEndOf bytes + 4) := by
    rw [accepted.front_pack, ← accepted.metaCrc, toBeBytes32_readU32 (by omega)]
  rw [Pack.framed, ← append_assoc, metaCrc, accepted.front_pack, take_append_slice (by omega), ← front,
    toBeBytes32_readU32 (by omega), ← append_assoc, take_append_slice (by omega)]
  exact take_append_drop ..

theorem bytes_pack : accepted.pack.bytes crc32c = bytes := by
  obtain ⟨_, dataStart, inData, total⟩ := accepted.bounds
  have dataLen : UInt32.ofNat view.data.length = readU32 bytes (metaEndOf bytes + 4) := by
    rw [accepted.data_length, UInt32.ofNat_toNat]
  have dataCrc : toBeBytes32 (crc32c view.data) = bytes.drop (dataEndOf bytes) := by
    rw [← accepted.dataCrc, toBeBytes32_readU32 (by omega), slice, take_of_length_le (by simp; omega)]
  have rest : view.data ++ toBeBytes32 (crc32c view.data) = bytes.drop (dataStartOf bytes) := by
    rw [dataCrc, accepted.data, slice, ← Nat.add_sub_of_le inData, ← drop_drop, Nat.add_sub_cancel_left]
    exact take_append_drop ..
  refine Eq.trans ?_ (accepted.framed_of_take rfl rfl)
  rw [← dataLen, ← rest]
  rfl

theorem dataStart_pack : accepted.pack.dataStart = dataStartOf bytes :=
  congrArg (headerLen + 4 + · + 4 + 4) accepted.metaSection_length

end Accepted

/-- Built bytes decode to their fields, and only built bytes decode. -/
theorem pack_round_trip : (∀ pack : Pack, ∃ bytes, pack.build crc32c = .ok bytes ∧ pack.buildInSlot crc32c = .ok bytes ∧
      decode crc32c bytes = .ok pack.view) ∧
    (∀ bytes view, decode crc32c bytes = .ok view →
      ∃ pack : Pack, pack.view = view ∧ pack.build crc32c = .ok bytes ∧ pack.buildInSlot crc32c = .ok bytes) ∧
    (∀ bytes, (∃ view, decode crc32c bytes = .ok view) ↔ ∃ pack : Pack, pack.build crc32c = .ok bytes) ∧
    (∀ first second view, decode crc32c first = .ok view → decode crc32c second = .ok view → first = second) := by
  have h : ∀ {bytes view}, decode crc32c bytes = .ok view →
      ∃ pack : Pack, pack.view = view ∧ pack.bytes crc32c = bytes := fun decoded =>
    have acc := accepted_of_decode crc32c decoded
    ⟨acc.pack, acc.pack_view, acc.bytes_pack⟩
  refine ⟨fun pack => ⟨_, pack.build_eq crc32c, pack.buildInSlot_eq crc32c, pack.decode_bytes crc32c⟩, ?_, ?_, ?_⟩
  · intro bytes view decoded
    obtain ⟨pack, eq, rfl⟩ := h decoded
    exact ⟨pack, eq, pack.build_eq crc32c, pack.buildInSlot_eq crc32c⟩
  · intro bytes
    constructor
    · rintro ⟨view, decoded⟩
      obtain ⟨pack, -, rfl⟩ := h decoded
      exact ⟨pack, pack.build_eq crc32c⟩
    · rintro ⟨pack, built⟩
      rw [pack.build_eq crc32c] at built
      cases built
      exact ⟨pack.view, pack.decode_bytes crc32c⟩
  · intro first second view decodedFirst decodedSecond
    obtain ⟨one, sameOne, rfl⟩ := h decodedFirst
    obtain ⟨two, sameTwo, rfl⟩ := h decodedSecond
    rw [Pack.view_injective (sameOne.trans sameTwo.symm)]

/-! ## What damage does -/

/-- `header_id_seq`: the addressee of the answer to a pack whose data is damaged. -/
def headerIdSeq (bytes : Bytes) : UInt64 × UInt32 :=
  if bytes.length < 16 then (0, 0) else (fromBeBytes64 (slice bytes 4 12), fromBeBytes32 (slice bytes 12 16))

/-- Damage to the data leaves header and meta readable or is told by the second checksum, damage to the data length is told
by the length, and whom the answer addresses is under the first checksum. -/
theorem decode_localises_damage : (∀ bytes other view, decode crc32c bytes = .ok view → other.length = bytes.length →
      other.take (dataStartOf bytes) = bytes.take (dataStartOf bytes) →
      (∃ data, decode crc32c other = .ok { view with data }) ∨
        ∃ expected actual, decode crc32c other = .error (.dataCrc expected actual)) ∧
    (∀ bytes other view, decode crc32c bytes = .ok view → other.length = bytes.length →
      other.take (metaEndOf bytes + 4) = bytes.take (metaEndOf bytes + 4) →
      other.drop (dataStartOf bytes) = bytes.drop (dataStartOf bytes) → other ≠ bytes →
      ∃ needed, decode crc32c other = .error (.truncated needed other.length) ∨
        decode crc32c other = .error (.trailingBytes needed other.length)) ∧
    ∀ bytes expected actual, decode crc32c bytes = .error (.dataCrc expected actual) →
      headerLen ≤ metaEndOf bytes ∧ readU32 bytes (metaEndOf bytes) = crc32c (bytes.take (metaEndOf bytes)) ∧
        headerIdSeq bytes = headerIdSeq (bytes.take (metaEndOf bytes)) := by
  refine ⟨fun bytes other view decoded eq front => ?_, fun bytes other view decoded eq front rest differ => ?_,
    fun bytes expected actual failed => ?_⟩
  · have acc := accepted_of_decode crc32c decoded
    obtain ⟨_, dataStart, _, total⟩ := acc.bounds
    have dataEnd : dataStartOf bytes + (readU32 bytes (metaEndOf bytes + 4)).toNat = dataEndOf bytes := rfl
    have old : other.take (metaEndOf bytes + 4) = bytes.take (metaEndOf bytes + 4) := by
      simpa [take_take, ← dataStart] using congrArg (List.take (metaEndOf bytes + 4)) front
    have layout := acc.framed_of_take eq old
    have dataLen : readU32 other (metaEndOf bytes + 4) = readU32 bytes (metaEndOf bytes + 4) := by
      simp only [readU32, slice, ← drop_take, show metaEndOf bytes + 4 + 4 = dataStartOf bytes from rfl, front]
    rw [← layout, Pack.decode_framed _ _ _ _ (by rw [length_drop]; omega), dataLen]
    simp only [acc.dataStart_pack, length_drop]
    rw [if_neg (by omega), if_neg (by omega), if_neg (by omega)]
    split
    · exact .inr ⟨_, _, rfl⟩
    · exact .inl ⟨_, by rw [acc.pack_view]⟩
  · have acc := accepted_of_decode crc32c decoded
    obtain ⟨_, dataStart, _, total⟩ := acc.bounds
    have dataEnd : dataStartOf bytes + (readU32 bytes (metaEndOf bytes + 4)).toNat = dataEndOf bytes := rfl
    have layout := acc.framed_of_take eq front
    have dataLen : (readU32 other (metaEndOf bytes + 4)).toNat ≠ (readU32 bytes (metaEndOf bytes + 4)).toNat := by
      intro equal
      rw [← acc.framed_of_take rfl rfl, ← rest, ← UInt32.toNat.inj equal] at differ
      exact differ layout.symm
    have len : dataStartOf bytes + (other.length - dataStartOf bytes) = other.length := by omega
    rw [← layout, Pack.decode_framed _ _ _ _ (by rw [length_drop]; omega), layout]
    simp only [acc.dataStart_pack, length_drop, len]
    split_ifs with beyond more less
    · exact ⟨_, .inl rfl⟩
    · exact ⟨_, .inl rfl⟩
    · exact ⟨_, .inr rfl⟩
    all_goals omega
  · have kindError (byte : UInt8) : tryFrom byte ≠ .error (.dataCrc expected actual) := by
      unfold tryFrom
      split <;> simp
    simp only [decode, check_eq_error, reduceCtorEq, and_false, false_or] at failed
    obtain ⟨_, _, failed⟩ := failed
    split at failed
    next refused =>
      cases failed
      exact absurd refused (kindError _)
    · simp only [check_eq_error, reduceCtorEq, and_false, false_or, ne_eq, Decidable.not_not] at failed
      obtain ⟨_, _, _, covered, _⟩ := failed
      have mem : headerLen ≤ metaEndOf bytes := by unfold metaEndOf; omega
      refine ⟨mem, covered, ?_⟩
      simp only [headerLen] at mem
      simp only [headerIdSeq, length_take, slice, drop_take, take_take]
      rw [if_neg (by omega), if_neg (by omega), Nat.min_eq_left (by omega), Nat.min_eq_left (by omega)]

end Wbfuwunel.Wire
