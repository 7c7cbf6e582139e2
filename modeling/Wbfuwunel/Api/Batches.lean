import Mathlib.Algebra.Order.BigOperators.Group.List
import Wbfuwunel.Api.Recent
import Wbfuwunel.Wire.PackRoundTrip

/-! Windows cut into `Batch` packs: `build_batches` of `api/client/wbf/recent.rs` and of `api/client/wbf/device.rs`, over
the framing of `core/wbf/events.rs`. -/

set_option autoImplicit false

namespace Wbfuwunel.Wire
open Foundation List Function PackBuilder

/-! ## Framing -/

def lengthPrefixed : List Bytes → Except PackError Bytes
  | [] => .ok []
  | event :: events =>
    if 2 ^ 32 ≤ event.length then .error (.sectionTooLarge event.length)
    else (lengthPrefixed events).map fun rest => toBeBytes32 (.ofNat event.length) ++ event ++ rest

def splitLoop (data : Bytes) : (rounds offset : Nat) → Except PackError (List Bytes)
  | 0, _ => .ok []
  | rounds + 1, offset =>
    if data.length ≤ offset then .ok []
    else if data.length < offset + eventLenPrefix then .error (.truncated (offset + eventLenPrefix) data.length)
    else
      let start := offset + eventLenPrefix
      let stop := start + (readU32 data offset).toNat
      if data.length < stop then .error (.truncated stop data.length)
      else (splitLoop data rounds stop).map (slice data start stop :: ·)

def splitLengthPrefixed (data : Bytes) : Except PackError (List Bytes) := splitLoop data data.length 0

variable {events : List Bytes} {data : Bytes}

section

variable (frames : lengthPrefixed events = .ok data)
include frames

theorem length_lengthPrefixed : data.length = (events.map fun e => 4 + e.length).sum := by
  induction events generalizing data with
  | nil => cases frames; rfl
  | cons e events ih =>
    rw [lengthPrefixed, check_eq_ok, map_eq_ok] at frames
    obtain ⟨-, rest, frames, rfl⟩ := frames
    simp [ih frames, Nat.add_assoc]

theorem splitLoop_append {rounds : Nat} (enough : events.length ≤ rounds) (old : Bytes) :
    splitLoop (old ++ data) rounds old.length = .ok events := by
  induction events generalizing data rounds old with
  | nil => cases frames; cases rounds <;> simp [splitLoop]
  | cons e events ih =>
    rw [lengthPrefixed, check_eq_ok, map_eq_ok] at frames
    obtain ⟨lt, rest, frames, rfl⟩ := frames
    obtain ⟨rounds, rfl⟩ := Nat.exists_eq_succ_of_ne_zero (Nat.ne_zero_of_lt enough)
    have later := ih frames (Nat.le_of_succ_le_succ enough) (old ++ toBeBytes32 (.ofNat e.length) ++ e)
    have part := @slice_append _ _ (old ++ toBeBytes32 (.ofNat e.length)) e rest rfl rfl
    have len := Pack.readU32_append old (e ++ rest) (.ofNat e.length) rfl
    simp only [append_assoc, length_append, toBeBytes32_length, ← Nat.add_assoc] at later part ⊢
    simp only [splitLoop, eventLenPrefix, len, Pack.toNat_ofNat_length (Nat.not_le.mp lt), part, later]
    simp only [length_append, toBeBytes32_length]
    rw [if_neg (by omega), if_neg (by omega), if_neg (by omega)]
    rfl

theorem split_of_frames : splitLengthPrefixed data = .ok events := by
  refine splitLoop_append frames ?_ []
  rw [length_lengthPrefixed frames, ← length_map (fun e => 4 + e.length)]
  refine length_le_sum_of_one_le _ fun len mem => ?_
  obtain ⟨e, -, rfl⟩ := mem_map.mp mem
  omega

end

theorem exists_lengthPrefixed (lt : ∀ e ∈ events, e.length < 2 ^ 32) : ∃ data, lengthPrefixed events = .ok data := by
  induction events with
  | nil => exact ⟨[], rfl⟩
  | cons e events ih =>
    obtain ⟨rest, frames⟩ := ih fun o mem => lt o (mem_cons_of_mem _ mem)
    rw [lengthPrefixed, if_neg (Nat.not_le.mpr (lt e mem_cons_self)), frames]
    exact ⟨_, rfl⟩

/-- What the loop accepts is the framing of what it returns, from where it stands on. -/
theorem frames_of_splitLoop {rounds offset : Nat} (enough : data.length ≤ rounds + offset)
    (splits : splitLoop data rounds offset = .ok events) : lengthPrefixed events = .ok (data.drop offset) := by
  induction rounds generalizing offset events with
  | zero =>
    cases splits
    rw [drop_eq_nil_of_le (by omega), lengthPrefixed]
  | succ rounds ih =>
    rw [splitLoop] at splits
    split at splits
    case isTrue done =>
      cases splits
      rw [drop_eq_nil_of_le done, lengthPrefixed]
    case isFalse =>
      simp only [check_eq_ok, map_eq_ok, Nat.not_lt] at splits
      obtain ⟨starts, fits, rest, splits, rfl⟩ := splits
      have word : toBeBytes32 (readU32 data offset) = slice data offset (offset + eventLenPrefix) :=
        toBeBytes32_fromBeBytes32 ((slice_length starts).trans (Nat.add_sub_cancel_left offset 4))
      have length := (slice_length fits).trans (Nat.add_sub_cancel_left _ _)
      rw [lengthPrefixed, length, if_neg (Nat.not_le.mpr (readU32 data offset).toNat_lt), UInt32.ofNat_toNat, word,
        ih (by rw [eventLenPrefix]; omega) splits]
      simp only [Except.map, append_assoc, slice_append_drop (Nat.le_add_right _ _)]

theorem truncated_of_splitLoop {rounds offset : Nat} {error : PackError}
    (fails : splitLoop data rounds offset = .error error) :
    ∃ needed, data.length < needed ∧ error = .truncated needed data.length := by
  induction rounds generalizing offset with
  | zero => cases fails
  | succ rounds ih =>
    rw [splitLoop] at fails
    split at fails
    · cases fails
    · simp only [check_eq_error, map_eq_error] at fails
      obtain ⟨lt, rfl⟩ | ⟨-, ⟨lt, rfl⟩ | ⟨-, fails⟩⟩ := fails
      · exact ⟨_, lt, rfl⟩
      · exact ⟨_, lt, rfl⟩
      · exact ih fails

theorem framing_exact (events : List Bytes) (data : Bytes) : ((∀ e ∈ events, e.length < 2 ^ 32) →
      ∃ framed, lengthPrefixed events = .ok framed ∧ splitLengthPrefixed framed = .ok events) ∧
    (splitLengthPrefixed data = .ok events → lengthPrefixed events = .ok data) ∧
    ∀ error, splitLengthPrefixed data = .error error →
      ∃ needed, data.length < needed ∧ error = .truncated needed data.length := by
  refine ⟨fun lt => ?_, fun splits => frames_of_splitLoop (Nat.le_refl _) splits, fun _ => truncated_of_splitLoop⟩
  obtain ⟨framed, frames⟩ := exists_lengthPrefixed lt
  exact ⟨framed, frames, split_of_frames frames⟩

/-! ## Batches -/

structure Batch (α : Type) where
  seq : UInt32
  tc : Nat
  inBatch : List α
  remaining : Nat
  deriving DecidableEq, Repr

variable {α : Type}

/-- The loop over the packs. Each comes with how many of the `total` it deals with. -/
def numberBatches (total : Nat) : (packs : List (List α × Nat)) → (position dealtWith : Nat) → List (Batch α)
  | [], _, _ => []
  | pack :: packs, position, dealtWith =>
    { seq := if position < 2 ^ 32 then .ofNat position else 0xFFFFFFFF
      tc := total
      inBatch := pack.1
      -- Lengths of one vector: their sum does not saturate.
      remaining := total - (dealtWith + pack.2) } :: numberBatches total packs (position + 1) (dealtWith + pack.2)

def listPacks (json : α → Bytes) (events : List α) (batch dataMax : Nat) : List (List α) :=
  let ranges := listPackRanges (events.map fun event => (json event).length) batch dataMax
  -- No events are still answered, by one empty pack.
  (if ranges.isEmpty then [(0, 0)] else ranges).map (packAt events)

def cutBatches (json : α → Bytes) (events : List α) (batch dataMax : Nat) : List (Batch α) :=
  numberBatches events.length ((listPacks json events batch dataMax).map fun pack => (pack, pack.length)) 0 0

def batchPack (crc32c : Bytes → UInt32) (kind : Kind) (subtype : UInt8) (id : UInt64) (json : α → Bytes)
    (metaOf : Batch α → Bytes) (batch : Batch α) : Except PackError Bytes := do
  let data ← lengthPrefixed (batch.inBatch.map json)
  let builder ← (new kind subtype .isResponse id batch.seq).metaSection (metaOf batch)
  let builder ← builder.data data
  return builder.finish crc32c

section Numbering

variable {total position dealtWith index : Nat} {packs : List (List α × Nat)} {batch : Batch α}

theorem getElem?_numberBatches (got : (numberBatches total packs position dealtWith)[index]? = some batch) :
    batch.seq.toNat = min (position + index) (2 ^ 32 - 1) ∧ batch.tc = total ∧
      (total = dealtWith + (packs.map Prod.snd).sum → batch.remaining = ((packs.drop (index + 1)).map Prod.snd).sum) := by
  induction packs generalizing position dealtWith index with
  | nil => cases got
  | cons pack packs ih =>
    cases index with
    | zero =>
      obtain rfl := Option.some.inj got
      refine ⟨?_, rfl, fun whole => ?_⟩
      · split <;> simp <;> omega
      · simp only [map_cons, sum_cons, drop_succ_cons, drop_zero] at whole ⊢
        omega
    | succ index =>
      obtain ⟨seq, tc, left⟩ := ih got
      refine ⟨by omega, tc, fun whole => left ?_⟩
      rw [whole, map_cons, sum_cons, Nat.add_assoc]

theorem map_inBatch_numberBatches (total position dealtWith : Nat) (packs : List (List α × Nat)) :
    (numberBatches total packs position dealtWith).map Batch.inBatch = packs.map Prod.fst := by
  induction packs generalizing position dealtWith with
  | nil => rfl
  | cons pack packs ih => simp [numberBatches, ih]

theorem map_inBatch_packs (total : Nat) (packs : List (List α)) :
    (numberBatches total (packs.map fun pack => (pack, pack.length)) 0 0).map Batch.inBatch = packs := by
  simp [map_inBatch_numberBatches, comp_def]

theorem length_numberBatches (total position dealtWith : Nat) (packs : List (List α × Nat)) :
    (numberBatches total packs position dealtWith).length = packs.length := by
  have eq := congrArg List.length (map_inBatch_numberBatches total position dealtWith packs)
  rwa [length_map, length_map] at eq

theorem remaining_eq_zero_iff (filled : ∀ pack ∈ packs.tail, 0 < pack.2)
    (got : (numberBatches (packs.map Prod.snd).sum packs 0 0)[index]? = some batch) :
    batch.remaining = 0 ↔ index + 1 = packs.length := by
  have mem := (List.getElem?_eq_some_iff.mp got).1
  have length := length_drop (i := index + 1) (l := packs)
  rw [length_numberBatches] at mem
  rw [(getElem?_numberBatches got).2.2 (Nat.zero_add _).symm]
  cases behind : packs.drop (index + 1) with
  | nil =>
    rw [behind, length_nil] at length
    exact iff_of_true rfl (by omega)
  | cons pack rest =>
    have dealt := filled pack (mem_of_mem_drop (i := index) (by rw [drop_tail, behind]; exact mem_cons_self))
    rw [behind, length_cons] at length
    simp only [map_cons, sum_cons]
    omega

end Numbering

/-- The packs hold the window in order, each with its number, the window's length and the number of events behind it. -/
structure Exact (window : List α) (batches : List (Batch α)) : Prop where
  events : batches.flatMap Batch.inBatch = window
  each : ∀ index batch, batches[index]? = some batch → batch.seq.toNat = min index (2 ^ 32 - 1) ∧ batch.tc = window.length ∧
    batch.remaining = ((batches.drop (index + 1)).flatMap Batch.inBatch).length ∧
    (batch.remaining = 0 ↔ index + 1 = batches.length)
  empty : window = [] → batches.length = 1

theorem exact_numberBatches {packs : List (List α)} (filled : packs = [[]] ∨ packs ≠ [] ∧ ∀ pack ∈ packs, pack ≠ []) :
    Exact packs.flatten (numberBatches packs.flatten.length (packs.map fun pack => (pack, pack.length)) 0 0) := by
  have sizes (part : List (List α)) : ((part.map fun pack => (pack, pack.length)).map Prod.snd).sum = part.flatten.length := by
    simp [length_flatten, comp_def]
  have parts := map_inBatch_packs packs.flatten.length packs
  have lengths := congrArg List.length parts
  rw [length_map] at lengths
  refine ⟨?_, fun i batch got => ?_, fun none => ?_⟩
  · rw [flatMap_def, parts]
  · obtain ⟨seq, tc, left⟩ := getElem?_numberBatches got
    refine ⟨by rwa [Nat.zero_add] at seq, tc, ?_, ?_⟩
    · rw [left (by rw [Nat.zero_add, sizes]), ← map_drop, sizes, flatMap_def, map_drop, parts]
    · rw [← sizes] at got
      rw [remaining_eq_zero_iff (fun pack mem => ?_) got, lengths, length_map]
      rw [← map_tail] at mem
      obtain ⟨own, member, rfl⟩ := mem_map.mp mem
      rcases filled with rfl | ⟨-, filled⟩
      · cases member
      · exact length_pos_iff.mpr (filled own (mem_of_mem_tail member))
  · rcases filled with rfl | ⟨some, filled⟩
    · exact lengths
    · obtain ⟨a, mem⟩ := exists_mem_of_ne_nil _ some
      exact absurd (flatten_eq_nil_iff.mp none a mem) (filled a mem)

theorem framedTotal_eq (lens : List Nat) : framedTotal lens = min ((lens.map (4 + ·)).sum) (2 ^ 64 - 1) := by
  induction lens using List.reverseRecOn with
  | nil => rfl
  | append_singleton lens len ih =>
    simp only [framedTotal_concat, ih, saturatingAddLen, framedLen, eventLenPrefix, map_append, sum_append,
      map_cons, map_nil, sum_cons, sum_nil]
    omega

theorem listPacks_spec (json : α → Bytes) (events : List α) (batch dataMax : Nat) :
    let packs := listPacks json events batch dataMax
    packs.flatten = events ∧ (packs = [[]] ∨ packs ≠ [] ∧ ∀ pack ∈ packs, pack ≠ []) ∧
      ∀ pack ∈ packs, pack.length ≤ max batch 1 ∧ ((∀ e ∈ events, framedLen (json e).length ≤ dataMax) →
        framedTotal (pack.map fun e => (json e).length) ≤ dataMax) := by
  have whole := flatMap_packAt_listPackRanges events (fun e => (json e).length) batch dataMax
  have capped := (cuts_listPackRanges (events.map fun e => (json e).length) batch dataMax).1
  simp only [listPacks]
  split
  case isTrue empty =>
    obtain rfl : events = [] := by rw [← whole, isEmpty_iff.mp empty, flatMap_nil]
    simp [packAt, framedTotal]
  case isFalse some =>
    have length {range : Nat × Nat} (mem : range ∈ listPackRanges (events.map fun e => (json e).length) batch dataMax) :
        (packAt events range).length = range.2 - range.1 := by
      have within := (capped range mem).inside
      rw [length_map] at within
      rw [packAt, length_take, length_drop]
      omega
    refine ⟨by rwa [← flatMap_def], .inr ⟨by simpa using some, fun pack mem => ?_⟩, fun pack mem => ?_⟩
    · obtain ⟨range, member, rfl⟩ := mem_map.mp mem
      have nonempty := (capped range member).nonempty
      exact length_pos_iff.mp (by rw [length member]; omega)
    · obtain ⟨range, member, rfl⟩ := mem_map.mp mem
      have fits := capped range member
      refine ⟨(length member).trans_le fits.few, fun each => ?_⟩
      rcases fits.small with lt | one
      · simpa only [packAt, map_take, map_drop] using lt
      · obtain ⟨e, alone⟩ := length_eq_one_iff.mp ((length member).trans (by omega))
        have own : e ∈ packAt events range := by simp [alone]
        have single := each e (mem_of_mem_drop (mem_of_mem_take own))
        simp only [alone, framedTotal, framedLen, saturatingAddLen, map_cons, map_nil, foldl_cons, foldl_nil] at single ⊢
        omega

theorem PackBuilder.length_lt_of_data {builder filled : PackBuilder} (reserved : builder.data data = .ok filled) :
    data.length < 2 ^ 32 := by
  by_contra large
  obtain ⟨slot, reserved, -⟩ := map_eq_ok.mp reserved
  rw [dataSlot, check_eq_ok, if_neg large] at reserved
  cases reserved.2

section Decoding

variable {crc32c : Bytes → UInt32} {kind : Kind} {subtype : UInt8} {id : UInt64} {json : α → Bytes}
  {metaOf : Batch α → Bytes} {batch : Batch α} {bytes : Bytes}

def Buildable (json : α → Bytes) (metaOf : Batch α → Bytes) (batch : Batch α) : Prop :=
  (metaOf batch).length < 2 ^ 32 ∧ framedTotal (batch.inBatch.map fun event => (json event).length) < 2 ^ 32

theorem exists_batchPack (buildable : Buildable json metaOf batch) :
    ∃ bytes, batchPack crc32c kind subtype id json metaOf batch = .ok bytes := by
  obtain ⟨metaFits, dataFits⟩ := buildable
  rw [framedTotal_eq, map_map] at dataFits
  obtain ⟨data, frames⟩ : ∃ data, lengthPrefixed (batch.inBatch.map json) = .ok data := by
    refine exists_lengthPrefixed fun framed mem => ?_
    obtain ⟨event, inside, rfl⟩ := mem_map.mp mem
    have part := le_sum_of_mem (mem_map_of_mem (f := (4 + ·) ∘ fun event => (json event).length) inside)
    simp only [comp_apply] at part
    omega
  have length := length_lengthPrefixed frames
  rw [map_map] at length
  have fits : data.length < 2 ^ 32 := by
    simp only [comp_def] at length dataFits
    omega
  let pack : Pack := ⟨kind, subtype, .isResponse, id, batch.seq, metaOf batch, data, rfl, metaFits, fits⟩
  refine ⟨pack.bytes crc32c, ?_⟩
  have built := pack.build_eq crc32c
  simp only [Pack.build] at built
  simp only [batchPack, frames]
  exact built

/-- A pack that was built is read back: its header, its meta and its events. -/
theorem decode_batchPack (built : batchPack crc32c kind subtype id json metaOf batch = .ok bytes) :
    ∃ view, decode crc32c bytes = .ok view ∧ view.header = ⟨version, kind, subtype, .isResponse, id, batch.seq⟩ ∧
      view.metaSection = metaOf batch ∧ splitLengthPrefixed view.data = .ok (batch.inBatch.map json) ∧
      view.data.length = framedTotal (batch.inBatch.map fun e => (json e).length) ∧ Buildable json metaOf batch := by
  simp only [batchPack, bind_eq_ok] at built
  obtain ⟨data, frames, begun, started, filled, reserved, done⟩ := built
  have metaFits : (metaOf batch).length < 2 ^ 32 := by
    by_contra large
    rw [metaSection, check_eq_ok, if_neg large] at started
    cases started.2
  have dataFits := length_lt_of_data reserved
  let pack : Pack := ⟨kind, subtype, .isResponse, id, batch.seq, metaOf batch, data, rfl, metaFits, dataFits⟩
  have eq : pack.build crc32c = .ok bytes := by
    simp only [Pack.build, bind_eq_ok]
    exact ⟨begun, started, filled, reserved, done⟩
  obtain rfl := Except.ok.inj ((pack.build_eq crc32c).symm.trans eq)
  have length : data.length = framedTotal (batch.inBatch.map fun e => (json e).length) := by
    have length := length_lengthPrefixed frames
    rw [map_map] at length
    rw [framedTotal_eq, map_map]
    exact (Nat.min_eq_left (length ▸ (by omega : data.length ≤ 2 ^ 64 - 1))).symm ▸ length
  exact ⟨pack.view, pack.decode_bytes crc32c, rfl, rfl, split_of_frames frames, length, metaFits, length ▸ dataFits⟩

end Decoding

end Wbfuwunel.Wire

namespace Wbfuwunel.Api
open Foundation Wire

/-! ## `Event/Recent` and `Device/Fetch` -/

structure BatchMeta where
  tc : Nat
  bc : Nat
  fs : Int64
  ls : Int64
  r : Nat
  more : Bool
  deriving DecidableEq, Repr

def Window.batchMeta (window : Window) (batch : Batch WindowEvent) : BatchMeta where
  tc := batch.tc
  bc := batch.inBatch.length
  fs := (batch.inBatch.head?.map WindowEvent.gSeq).getD 0
  ls := (batch.inBatch.getLast?.map WindowEvent.gSeq).getD 0
  r := batch.remaining
  more := window.isCutShort

def Window.buildBatches (crc32c : Bytes → UInt32) (toVec : BatchMeta → Bytes) (id : UInt64) (window : Window)
    (batch dataMax : Nat) : List (Except PackError Bytes) :=
  (cutBatches WindowEvent.json window.events batch dataMax).map
    (batchPack crc32c .event 0x03 id WindowEvent.json (toVec ∘ window.batchMeta))

structure Item where
  count : UInt64
  json : Bytes
  deriving DecidableEq, Repr

structure ItemWindow where
  items : List Item
  isCutShort : Bool
  deriving DecidableEq, Repr

structure ItemsMeta where
  tc : Nat
  bc : Nat
  ot : UInt64
  nt : UInt64
  counts : List UInt64
  r : Nat
  more : Bool
  deriving DecidableEq, Repr

def ItemWindow.batchMeta (window : ItemWindow) (batch : Batch Item) : ItemsMeta where
  tc := batch.tc
  bc := batch.inBatch.length
  ot := (batch.inBatch.map Item.count).head?.getD 0
  nt := (batch.inBatch.map Item.count).getLast?.getD 0
  counts := batch.inBatch.map Item.count
  r := batch.remaining
  more := window.isCutShort

def ItemWindow.buildBatches (crc32c : Bytes → UInt32) (toVec : ItemsMeta → Bytes) (id : UInt64) (window : ItemWindow)
    (batch dataMax : Nat) : List (Except PackError Bytes) :=
  (cutBatches Item.json window.items batch dataMax).map
    (batchPack crc32c .device 0x02 id Item.json (toVec ∘ window.batchMeta))

section Serving

variable {α : Type} (crc32c : Bytes → UInt32) (kind : Kind) (subtype : UInt8) (id : UInt64) (json : α → Bytes)
  (metaOf : Batch α → Bytes) (window : List α) (dataMax : Nat)

/-- What a client reads from the packs of a window: their batches are exact, each pack is built just if its sections have
lengths of 32 bits, and then it decodes to its batch's header, meta and events, within `dataMax` where every event is. -/
def Serves (packs : List (Except PackError Bytes)) : Prop :=
  ∃ batches : List (Batch α), Exact window batches ∧ packs.length = batches.length ∧
    ∀ (index : Nat) (batch : Batch α), batches[index]? = some batch →
      ((∃ bytes, packs[index]? = some (.ok bytes)) ↔ Buildable json metaOf batch) ∧
      ∀ bytes, packs[index]? = some (.ok bytes) → ∃ view, decode crc32c bytes = .ok view ∧
        view.header = ⟨version, kind, subtype, .isResponse, id, batch.seq⟩ ∧ view.metaSection = metaOf batch ∧
        splitLengthPrefixed view.data = .ok (batch.inBatch.map json) ∧
        ((∀ event ∈ window, framedLen (json event).length ≤ dataMax) → view.data.length ≤ dataMax)

theorem serves_cutBatches (batch : Nat) : Serves crc32c kind subtype id json metaOf window dataMax
    ((cutBatches json window batch dataMax).map (batchPack crc32c kind subtype id json metaOf)) := by
  obtain ⟨whole, filled, small⟩ := listPacks_spec json window batch dataMax
  have exact := exact_numberBatches filled
  rw [whole] at exact
  refine ⟨_, exact, List.length_map .., fun i batch got => ?_⟩
  rw [cutBatches, List.getElem?_map, got, Option.map_some]
  simp only [Option.some.injEq]
  refine ⟨⟨?_, exists_batchPack⟩, fun bytes built => ?_⟩
  · rintro ⟨bytes, built⟩
    obtain ⟨-, -, -, -, -, -, buildable⟩ := decode_batchPack built
    exact buildable
  obtain ⟨view, decoded, header, own, split, length, -⟩ := decode_batchPack built
  refine ⟨view, decoded, header, own, split, fun each => length.trans_le ((small _ ?_).2 each)⟩
  have held := List.mem_map_of_mem (f := Batch.inBatch) (List.mem_of_getElem? got)
  rwa [map_inBatch_packs] at held

end Serving

/-- Both kinds of windows are served exactly, with numbers that stop at the largest `seq`. -/
theorem window_batches_exact (crc32c : Bytes → UInt32) (id : UInt64) (batch dataMax : Nat) :
    (∀ (toVec : BatchMeta → Bytes) (window : Window), Serves crc32c .event 0x03 id WindowEvent.json
      (toVec ∘ window.batchMeta) window.events dataMax (window.buildBatches crc32c toVec id batch dataMax)) ∧
    ∀ (toVec : ItemsMeta → Bytes) (window : ItemWindow), Serves crc32c .device 0x02 id Item.json
      (toVec ∘ window.batchMeta) window.items dataMax (window.buildBatches crc32c toVec id batch dataMax) :=
  ⟨fun _ _ => serves_cutBatches .., fun _ _ => serves_cutBatches ..⟩

theorem exists_cutBatches {α : Type} (json : α → Bytes) {es : List α} {i : Nat} (mem : i < es.length)
    (dataMax : Nat) : ∃ batch, (cutBatches json es 1 dataMax)[i]? = some batch ∧
      batch.seq.toNat = min i (2 ^ 32 - 1) := by
  obtain ⟨whole, -, small⟩ := listPacks_spec json es 1 dataMax
  have many := List.sum_le_card_nsmul ((listPacks json es 1 dataMax).map List.length) 1 fun length mem => by
    obtain ⟨pack, member, rfl⟩ := List.mem_map.mp mem
    exact (small pack member).1
  rw [← List.length_flatten, whole, List.length_map, nsmul_one] at many
  have got : i < (cutBatches json es 1 dataMax).length := by
    rw [cutBatches, length_numberBatches, List.length_map]
    exact mem.trans_le many
  obtain ⟨seq, -⟩ := getElem?_numberBatches (List.getElem?_eq_getElem got)
  exact ⟨_, List.getElem?_eq_getElem got, by rwa [Nat.zero_add] at seq⟩

/-- Behind the largest `seq` the numbers stand still. -/
theorem seq_stands_still : ∃ (window : Window) (batch : Batch WindowEvent),
    (cutBatches WindowEvent.json window.events 1 64)[2 ^ 32]? = some batch ∧ batch.seq.toNat ≠ 2 ^ 32 := by
  have mem : 2 ^ 32 < (List.replicate (2 ^ 32 + 1) (⟨0, []⟩ : WindowEvent)).length := by
    rw [List.length_replicate]
    exact Nat.lt_succ_self _
  obtain ⟨batch, got, seq⟩ := exists_cutBatches WindowEvent.json mem 64
  exact ⟨⟨_, false⟩, batch, got, by omega⟩

/-! ## To-device items

`users/device.rs` measures an item where it is stored. `streams/devices.rs` and `api/client/wbf/device.rs` frame it later.
-/

/-- `to_stored_item`, as the JSON texts of its three values. -/
structure StoredItem where
  content : Bytes
  sender : Bytes
  eventType : Bytes
  deriving DecidableEq, Repr

/-- The text that is measured, stored, pushed and fetched. -/
def StoredItem.toVec (item : StoredItem) : Bytes :=
  utf8 "\x7b\"content\":" ++ item.content ++ utf8 ",\"sender\":" ++ item.sender ++ utf8 ",\"type\":" ++ item.eventType ++
    utf8 "\x7d"

variable (dataMax : Nat)

def toItemMaxLen : Nat := dataMax - eventLenPrefix

inductive RequestError where
  | tooLarge (message : String)
  deriving DecidableEq, Repr

def checkToDeviceEventSize (item : StoredItem) : Except RequestError (StoredItem × Nat) :=
  let itemLen := item.toVec.length
  let maxLen := toItemMaxLen dataMax
  if maxLen < itemLen then
    .error (.tooLarge ("this to-device message is " ++ toString itemLen ++ " bytes, and one message may be at most " ++
      toString maxLen))
  else .ok (item, itemLen)

/-- `add_to_device_event`, with the count it draws. -/
def addToDeviceEvent (queue : List Item) (count : UInt64) (item : StoredItem) : Except RequestError (List Item) :=
  (checkToDeviceEventSize dataMax item).map fun checked => queue ++ [⟨count, checked.1.toVec⟩]

def Accepted (item : Item) : Prop :=
  ∃ queue stored, addToDeviceEvent dataMax queue item.count stored = .ok (queue ++ [item])

/-- What `push_to_device` hands to `push_items`. -/
def pushedPacks (items : List Item) (perPack dataMax : Nat) : List (List Item) :=
  (listPackRanges (items.map fun item => item.json.length) perPack dataMax).map (packAt items)

/-- Both kinds of packs frame their items and write them behind the meta; an item that cannot be framed is skipped. -/
def Framed (pack : List Item) : Prop :=
  ∃ data, lengthPrefixed (pack.map Item.json) = .ok data ∧ data.length ≤ dataMax ∧
    ∀ builder : PackBuilder, builder.dataStart = none → ∃ filled, builder.data data = .ok filled

section Framing

variable {dataMax : Nat}

theorem StoredItem.length_toVec (item : StoredItem) :
    item.toVec.length = 30 + item.content.length + item.sender.length + item.eventType.length := by
  have fixed : (utf8 "\x7b\"content\":").length = 11 ∧ (utf8 ",\"sender\":").length = 10 ∧
      (utf8 ",\"type\":").length = 8 ∧ (utf8 "\x7d").length = 1 := by decide
  simp only [toVec, List.length_append, fixed]
  omega

theorem addToDeviceEvent_eq_ok_iff {queue next : List Item} {n : UInt64} {stored : StoredItem} :
    addToDeviceEvent dataMax queue n stored = .ok next ↔
      stored.toVec.length ≤ dataMax - 4 ∧ queue ++ [⟨n, stored.toVec⟩] = next := by
  by_cases large : toItemMaxLen dataMax < stored.toVec.length
  · simp only [addToDeviceEvent, checkToDeviceEventSize, if_pos large]
    exact iff_of_false (fun eq => by cases eq) fun fits => absurd large (Nat.not_lt.mpr fits.1)
  · simp only [addToDeviceEvent, checkToDeviceEventSize, if_neg large]
    exact ⟨fun eq => ⟨Nat.not_lt.mp large, Except.ok.inj eq⟩, fun fits => congrArg Except.ok fits.2⟩

theorem accepted_iff {item : Item} :
    Accepted dataMax item ↔ ∃ got : StoredItem, item.json = got.toVec ∧ 4 + item.json.length ≤ dataMax := by
  simp only [Accepted, addToDeviceEvent_eq_ok_iff, List.append_cancel_left_eq, List.singleton_inj]
  constructor
  · rintro ⟨-, got, lt, eq⟩
    have long := got.length_toVec
    have own : got.toVec = item.json := congrArg Item.json eq
    exact ⟨got, own.symm, by rw [← own]; omega⟩
  · rintro ⟨got, eq, lt⟩
    rw [eq] at lt
    exact ⟨[], got, by omega, by rw [← eq]⟩

theorem framed_of_accepted (fits : dataMax < 2 ^ 32) {items : List Item} (acc : ∀ item ∈ items, Accepted dataMax item)
    (perPack : Nat) {pack : List Item} (mem : pack ∈ listPacks Item.json items perPack dataMax) : Framed dataMax pack := by
  obtain ⟨whole, -, small⟩ := listPacks_spec Item.json items perPack dataMax
  have each (item : Item) (mem : item ∈ items) : 4 + item.json.length ≤ dataMax := by
    obtain ⟨-, -, short⟩ := accepted_iff.mp (acc item mem)
    exact short
  obtain ⟨data, frames⟩ := @exists_lengthPrefixed (pack.map Item.json) fun e member => by
    obtain ⟨item, own, rfl⟩ := List.mem_map.mp member
    have short := each item (whole ▸ List.mem_flatten.mpr ⟨pack, mem, own⟩)
    omega
  have total : min data.length (2 ^ 64 - 1) ≤ dataMax := by
    have framed := (small pack mem).2 fun item mem => (Nat.min_le_left ..).trans (each item mem)
    rw [framedTotal_eq, List.map_map] at framed
    rw [length_lengthPrefixed frames, List.map_map]
    exact framed
  refine ⟨data, frames, by omega, fun builder unreserved => ?_⟩
  rw [PackBuilder.data, PackBuilder.dataSlot, unreserved, if_neg (by simp), if_pos (by omega)]
  exact ⟨_, rfl⟩

theorem not_framed_of_mem {pack : List Item} {item : Item} (mem : item ∈ pack) (large : 2 ^ 32 ≤ 4 + item.json.length) :
    ¬Framed dataMax pack := by
  rintro ⟨data, frames, -, built⟩
  obtain ⟨filled, reserved⟩ := built (.new .device 0x02 .isResponse 0 0) rfl
  have lt := PackBuilder.length_lt_of_data reserved
  rw [length_lengthPrefixed frames, List.map_map] at lt
  have own := List.single_le_sum (fun _ _ => Nat.zero_le _) _
    (List.mem_map_of_mem (f := (fun e : Bytes => 4 + e.length) ∘ Item.json) mem)
  exact absurd (large.trans own) (Nat.not_le.mpr lt)

theorem exists_not_framed (large : 2 ^ 32 ≤ dataMax) {got : StoredItem} (length : got.toVec.length = 2 ^ 32 - 4) :
    Accepted dataMax ⟨0, got.toVec⟩ ∧ ∃ pack ∈ pushedPacks [⟨0, got.toVec⟩] 1 dataMax, ¬Framed dataMax pack := by
  refine ⟨accepted_iff.mpr ⟨got, rfl, ?_⟩, ?_⟩
  · dsimp only
    omega
  · have whole := flatMap_packAt_listPackRanges [(⟨0, got.toVec⟩ : Item)] (fun item => item.json.length) 1 dataMax
    obtain ⟨pack, held, mem⟩ := List.mem_flatten.mp (whole.symm ▸ List.mem_cons_self)
    exact ⟨pack, held, not_framed_of_mem mem (by dsimp only; omega)⟩

end Framing

def hugeItem : StoredItem := ⟨utf8 "\"" ++ List.replicate (2 ^ 32 - 45) 97 ++ utf8 "\"", utf8 "\"@a:b\"", utf8 "\"m\""⟩

theorem length_hugeItem : hugeItem.toVec.length = 2 ^ 32 - 4 := by
  have fixed : (utf8 "\"").length = 1 ∧ (utf8 "\"@a:b\"").length = 6 ∧ (utf8 "\"m\"").length = 3 := by decide
  simp only [StoredItem.length_toVec, hugeItem, List.length_append, List.length_replicate, fixed]
  norm_num

/-- Accepted items are framed, for a push and for a fetch, just when the setting itself fits the length of a section. -/
theorem to_device_items_fit_iff (dataMax : Nat) :
    (∀ items : List Item, (∀ item ∈ items, Accepted dataMax item) → ∀ perPack, ∀ pack,
      pack ∈ pushedPacks items perPack dataMax ∨ pack ∈ listPacks Item.json items perPack dataMax → Framed dataMax pack) ↔
    dataMax < 2 ^ 32 := by
  constructor
  · intro framed
    by_contra large
    obtain ⟨acc, pack, mem, refused⟩ := exists_not_framed (Nat.not_lt.mp large) length_hugeItem
    exact refused (framed _ (by simpa using acc) 1 pack (.inl mem))
  · intro fits items acc perPack pack mem
    refine framed_of_accepted fits acc perPack (mem.elim (fun pushed => ?_) id)
    rw [listPacks, if_neg]
    · exact pushed
    · intro empty
      rw [pushedPacks, List.isEmpty_iff.mp empty] at pushed
      cases pushed

/-- An accepted item whose pack is one byte too long for the length field of a section. -/
theorem to_device_item_skipped : Accepted (2 ^ 32) ⟨0, hugeItem.toVec⟩ ∧
    ∃ pack ∈ pushedPacks [⟨0, hugeItem.toVec⟩] 1 (2 ^ 32), ¬Framed (2 ^ 32) pack :=
  exists_not_framed le_rfl length_hugeItem

end Wbfuwunel.Api
