import Wbfuwunel.Media.UploadOperations

/-! Whole runs of the upload service: every operation on any upload, restarts that clear the memory, and crashes
after any number of an operation's changes.
-/

set_option autoImplicit false

namespace Wbfuwunel.Media

open Foundation Database List Option

/-! ## Events -/

inductive Op where
  | create (user : UserId) (request : UploadRequest) (pending : Nat) (draws : List (Fin (16 ^ 14))) (now : UInt64)
  | chunk (user : UserId) (uploadId : UploadId) (index : UInt32) (content : Bytes) (isLast : Bool) (written : Option Nat)
      (now : UInt64)
  | status (user : UserId) (uploadId : UploadId)
  | finalize (user : UserId) (uploadId : UploadId) (newDescription : Option Bytes) (stores removes : Bool)
  | abort (user : UserId) (uploadId : UploadId) (removes : Bool)
  | sweep (now : UInt64) (removes : UploadId → Bool) (entries : List UploadId)

variable (config : Config) (serverName : String)

variable (service : Service)

def Op.effects : Op → List Effect
  | .create user request pending draws now =>
    (uploadCreate config serverName service user request pending draws now).effects
  | .chunk user uploadId index content isLast written now =>
    (uploadChunk config service user uploadId index content isLast written now).effects
  | .status user uploadId => (uploadStatus service user uploadId).effects
  | .finalize user uploadId newDescription stores removes =>
    (uploadSeal config service user uploadId newDescription stores removes).effects
  | .abort user uploadId removes => (uploadAbort service user uploadId removes).effects
  | .sweep now removes entries => sweepUploads config service now removes entries

def Op.seals (uploadId : UploadId) : Op → Bool
  | .finalize user target newDescription stores removes =>
    target = uploadId && (uploadSeal config service user target newDescription stores removes).answer.toBool
  | _ => false

/-- An operation completes, or the server dies after some of its changes, or it is restarted between operations. -/
inductive Event where
  | finish (op : Op)
  | crash (op : Op) (changes : Nat)
  | restart

structure State where
  world : World
  isSealed : UploadId → Bool

variable (state : State)

def step : Event → State
  | .finish op => {
      world := run World.apply state.world (op.effects config serverName state.world.service)
      isSealed := fun uploadId => state.isSealed uploadId || op.seals config state.world.service uploadId }
  -- What was changed stays; the memory is lost.
  | .crash op changes => { state with
      world := (run World.apply state.world
        ((op.effects config serverName state.world.service).take changes)).withHot fun _ => none }
  | .restart => { state with world := state.world.withHot fun _ => none }

/-- A chunk finds its upload finished or with fewer than `u32::MAX` chunks received. -/
def Op.Countable : Op → Prop
  | .chunk _ uploadId _ _ _ _ _ => ∀ progress, service.progress.find uploadId = some progress →
    progress.receivedCount.toNat < 2 ^ 32 - 1 ∨ progress.finished
  | _ => True

def Countable : Event → Prop
  | .finish op | .crash op _ => op.Countable state.world.service
  | .restart => True

structure Fresh : Prop where
  uploads : ∀ uploadId, state.world.service.uploads.find uploadId = none
  progress : ∀ uploadId, state.world.service.progress.find uploadId = none
  hot : ∀ uploadId, state.world.service.hot uploadId = none
  unsealed : ∀ uploadId, state.isSealed uploadId = false

structure Holds : Prop where
  durable : Durable serverName state.isSealed state.world
  memory : MemoryHolds state.world.service

variable {config serverName} {world : World} {state : State} {uploadId : UploadId} {accepted : List Bytes} {index : Nat}

theorem Op.effects_kept (config : Config) {isSealed : UploadId → Bool} (ok : Durable serverName isSealed world)
    (memory : MemoryHolds world.service) {op : Op} (countable : op.Countable world.service) :
    Kept serverName isSealed world (op.effects config serverName world.service) := by
  cases op with
  | create => exact uploadCreate_kept memory ..
  | chunk => exact uploadChunk_kept ok memory countable ..
  | status => exact uploadStatus_kept memory ..
  | finalize => exact uploadSeal_kept ok memory ..
  | abort => exact uploadAbort_kept ok memory ..
  | sweep => exact sweepUploads_kept ok memory ..

theorem Fresh.holds (fresh : Fresh state) : Holds serverName state where
  durable := {
    paired := fun uploadId => by simp [fresh.uploads, fresh.progress]
    live := fun uploadId upload p decl _ => by rw [fresh.uploads] at decl; cases decl
    closed := fun uploadId mem => by rw [fresh.unsealed] at mem; cases mem }
  memory := fun uploadId hot copied => by rw [fresh.hot] at copied; cases copied

theorem memoryHolds_cleared (world : World) : MemoryHolds (world.withHot fun _ => none).service :=
  fun _ _ copied => by cases copied

theorem Holds.step (h : Holds serverName state) {e : Event} (countable : Countable state e) :
    Holds serverName (step config serverName state e) := by
  cases e with
  | finish op =>
    have kept : Kept serverName state.isSealed state.world _ :=
      Op.effects_kept config h.durable h.memory countable
    have durable := (kept.durable h.durable).last
    refine ⟨⟨durable.paired, ?_, ?_⟩, kept.memory⟩
    · exact fun uploadId upload p decl advanced => { durable.live uploadId upload p decl advanced with }
    · intro uploadId mem
      rcases Bool.or_eq_true_iff.mp mem with old | now
      · exact durable.closed uploadId old
      -- Newly sealed: only a seal that answers does that.
      · cases op with
        | finalize u t d stores removes =>
          simp only [Op.seals, Bool.and_eq_true, decide_eq_true_eq] at now
          obtain ⟨rfl, ok⟩ := now
          exact uploadSeal_sealed h.durable h.memory ok
        | _ => cases now
  | crash op changes =>
    have kept : Kept serverName state.isSealed state.world _ :=
      Op.effects_kept config h.durable h.memory countable
    exact ⟨((kept.durable h.durable).take changes).withHot _, memoryHolds_cleared _⟩
  | restart => exact ⟨h.durable.withHot _, memoryHolds_cleared _⟩

/-! ## What a run promises -/

theorem SealedHolds.searchFileMetadata (h : SealedHolds serverName world uploadId) :
    searchFileMetadata world.service (mxcOf serverName uploadId) = .ok (fileKey (mxcOf serverName uploadId)) := by
  have ls : (fileKey (mxcOf serverName uploadId), ()) ∈
      world.service.files.rowsBeginning (filePrefixKey (mxcOf serverName uploadId)) :=
    world.service.files.mem_rowsBeginning.mpr ⟨Store.find_eq_some_iff.mp h.file, filePrefixKey_begins.mpr rfl⟩
  rw [Media.searchFileMetadata, Store.contains, h.present]
  cases rows : world.service.files.rowsBeginning (filePrefixKey (mxcOf serverName uploadId)) with
  | nil => rw [rows] at ls; cases ls
  | cons a rest =>
    have mem := world.service.files.mem_rowsBeginning.mp (rows ▸ mem_cons_self : a ∈ _)
    simp [h.onlySealed a mem.1 mem.2]

theorem flatten_parts (mem : index < accepted.length) : accepted.flatten =
      (accepted.take index).flatten ++ (accepted[index] ++ (accepted.drop (index + 1)).flatten) := by
  rw [← flatten_cons, ← drop_eq_getElem_cons mem, ← flatten_append, take_append_drop]

theorem slice_flatten (mem : index < accepted.length) :
    slice accepted.flatten (spanStart accepted index) (spanStart accepted index + accepted[index].length) =
      accepted[index] := by
  rw [flatten_parts mem]
  exact slice_append _ _ _ rfl rfl

theorem spanStart_add_le (mem : index < accepted.length) :
    spanStart accepted index + accepted[index].length ≤ accepted.flatten.length := by
  have parts := congrArg List.length (flatten_parts mem)
  rw [length_append, length_append] at parts
  simp only [spanStart]
  omega

theorem flatten_length_lt (few : accepted.length < 2 ^ 32)
    (sized : ∀ chunk ∈ accepted, chunk ≠ [] ∧ chunk.length < 2 ^ 32) : accepted.flatten.length < 2 ^ 64 := by
  have bytes := flatten_length_le fun chunk mem => Nat.le_sub_one_of_lt (sized chunk mem).2
  have most : accepted.length * (2 ^ 32 - 1) ≤ (2 ^ 32 - 1) * (2 ^ 32 - 1) := Nat.mul_le_mul_right _ (by omega)
  omega

theorem readChunk_sealed (h : SealedHolds serverName world uploadId) {index : UInt32}
    (mem : index.toNat < (world.accepted uploadId).length) :
    ∃ read, readChunk world.service (mxcOf serverName uploadId) index = .ok read ∧
      read.bytes = (world.accepted uploadId)[index.toNat] ∧
      read.chunkCount.toNat = (world.accepted uploadId).length := by
  obtain ⟨chunked, got, count⟩ := h.shape
  have lt : ¬index ≥ chunked.chunkCount := by rw [UInt32.not_le, UInt32.lt_iff_toNat_lt, count]; exact mem
  have span := h.spans index.toNat mem
  rw [UInt32.ofNat_toNat] at span
  have all := flatten_length_lt h.few h.sized
  have stops := spanStart_add_le mem
  have k := (h.sized _ (getElem_mem mem)).2
  have offset : (UInt64.ofNat (spanStart (world.accepted uploadId) index.toNat)).toNat =
      spanStart (world.accepted uploadId) index.toNat := by
    rw [UInt64.toNat_ofNat', Nat.mod_eq_of_lt (by omega)]
  have len : (UInt32.ofNat (world.accepted uploadId)[index.toNat].length).toUInt64.toNat =
      (world.accepted uploadId)[index.toNat].length := by
    rw [UInt32.toNat_toUInt64, UInt32.toNat_ofNat', Nat.mod_eq_of_lt k]
  -- No offset saturates, so the range read is the chunk.
  have stop : (saturatingAdd64 (UInt64.ofNat (spanStart (world.accepted uploadId) index.toNat))
      (UInt32.ofNat (world.accepted uploadId)[index.toNat].length).toUInt64).toNat =
      spanStart (world.accepted uploadId) index.toNat + (world.accepted uploadId)[index.toNat].length := by
    rw [saturatingAdd64_toNat, offset, len, min_eq_left (by omega)]
  refine ⟨{
    index
    plainPos := index.toUInt64 * chunked.chunkSize.toUInt64
    bytes := (world.accepted uploadId)[index.toNat]
    chunkSize := chunked.chunkSize
    chunkCount := chunked.chunkCount
    totalLen := chunked.totalLen }, ?_, rfl, count⟩
  simp only [readChunk, h.searchFileMetadata, got, lt, if_false, span, h.object, bind_some, getRange,
    offset, stop, stops, if_true, slice_flatten mem]

theorem readChunk_past (h : SealedHolds serverName world uploadId) {index : UInt32}
    (past : (world.accepted uploadId).length ≤ index.toNat) :
    ∃ message, readChunk world.service (mxcOf serverName uploadId) index = .error (.invalidParam message) := by
  obtain ⟨chunked, got, count⟩ := h.shape
  have gt : index ≥ chunked.chunkCount := by rw [ge_iff_le, UInt32.le_iff_toNat_le, count]; exact past
  simp only [readChunk, h.searchFileMetadata, got, gt]
  exact ⟨_, rfl⟩

/-- The rows, the spans, the staging file and the memory of every upload, and every read of a sealed one. -/
structure UploadsHold (serverName : String) (state : State) : Prop where
  counted : ∀ uploadId upload, state.world.service.uploads.find uploadId = some upload → ∃ progress,
    state.world.service.progress.find uploadId = some progress ∧
      progress.receivedCount.toNat = (state.world.accepted uploadId).length ∧
      progress.totalLen.toNat = ((state.world.accepted uploadId).map List.length).sum ∧
      ((state.world.service.staging uploadId).getD []).take progress.totalLen.toNat =
        (state.world.accepted uploadId).flatten
  spans : ∀ uploadId upload, state.world.service.uploads.find uploadId = some upload →
    ∀ index (inside : index < (state.world.accepted uploadId).length), ∃ span,
      state.world.service.chunks.find (chunkKey upload.mxc (UInt32.ofNat index)) = some span ∧
        span.len.toNat = (state.world.accepted uploadId)[index].length ∧ (index = 0 → span.offset = 0) ∧
        ∀ next, index + 1 < (state.world.accepted uploadId).length →
          state.world.service.chunks.find (chunkKey upload.mxc (UInt32.ofNat (index + 1))) = some next →
          next.offset.toNat = span.offset.toNat + span.len.toNat
  memory : ∀ uploadId hot, state.world.service.hot uploadId = some hot → ∃ upload progress,
    state.world.service.uploads.find uploadId = some upload ∧
      state.world.service.progress.find uploadId = some progress ∧ hot = .of upload progress
  reads : ∀ uploadId, state.isSealed uploadId → ∀ index : UInt32,
    (∀ inside : index.toNat < (state.world.accepted uploadId).length, ∃ read,
      readChunk state.world.service (mxcOf serverName uploadId) index = .ok read ∧
        read.bytes = (state.world.accepted uploadId)[index.toNat] ∧
        read.chunkCount.toNat = (state.world.accepted uploadId).length) ∧
    ((state.world.accepted uploadId).length ≤ index.toNat → ∃ message,
      readChunk state.world.service (mxcOf serverName uploadId) index = .error (.invalidParam message))

theorem LiveHolds.spans_contiguous {upload : Upload} {p : UploadProgress}
    (h : LiveHolds serverName world uploadId upload p) (mem : index < (world.accepted uploadId).length) :
    ∃ span, world.service.chunks.find (chunkKey upload.mxc (UInt32.ofNat index)) = some span ∧
        span.len.toNat = (world.accepted uploadId)[index].length ∧ (index = 0 → span.offset = 0) ∧
        ∀ next, index + 1 < (world.accepted uploadId).length →
          world.service.chunks.find (chunkKey upload.mxc (UInt32.ofNat (index + 1))) = some next →
          next.offset.toNat = span.offset.toNat + span.len.toNat := by
  have few : (world.accepted uploadId).length < 2 ^ 32 := h.counted ▸ p.receivedCount.toNat_lt
  have all := flatten_length_lt few h.sized
  have stops := spanStart_add_le mem
  have len : (UInt32.ofNat (world.accepted uploadId)[index].length).toNat = (world.accepted uploadId)[index].length := by
    rw [UInt32.toNat_ofNat', Nat.mod_eq_of_lt (h.sized _ (getElem_mem mem)).2]
  refine ⟨_, h.spans index mem, len, ?_, ?_⟩
  · rintro rfl
    rfl
  · intro next more got
    rw [h.spans (index + 1) more, some.injEq] at got
    subst got
    have grown : spanStart (world.accepted uploadId) (index + 1) =
        spanStart (world.accepted uploadId) index + (world.accepted uploadId)[index].length := by
      rw [spanStart, spanStart, take_add_one, getElem?_eq_getElem mem, toList_some, flatten_concat, length_append]
    simp only [UInt64.toNat_ofNat', len, grown]
    rw [Nat.mod_eq_of_lt (by omega), Nat.mod_eq_of_lt (by omega)]

theorem Holds.uploadsHold (h : Holds serverName state) : UploadsHold serverName state where
  counted uploadId upload decl := by
    obtain ⟨p, advanced⟩ := h.durable.advanced decl
    have live := h.durable.live uploadId upload p decl advanced
    exact ⟨p, advanced, live.counted, by rw [live.total, length_flatten], live.content⟩
  spans uploadId upload decl index mem := by
    obtain ⟨p, advanced⟩ := h.durable.advanced decl
    exact (h.durable.live uploadId upload p decl advanced).spans_contiguous mem
  memory := h.memory
  reads uploadId mem index :=
    have closed := h.durable.closed uploadId mem
    ⟨readChunk_sealed closed, readChunk_past closed⟩

/-- As long as no chunk meets a full counter, everything an upload promises holds in every state of every run. -/
theorem uploads_hold_along (config : Config) (serverName : String) (start : State) (events : List Event)
    (fresh : Fresh start) (countable : Admits (step config serverName) Countable start events) :
    Along (step config serverName) (UploadsHold serverName) start events :=
  (along_of_keeps (fun _ _ h ok => h.step ok) fresh.holds countable).imp fun _ h => h.uploadsHold

/-! ## A stream past the counter -/

def unlimited : Config where
  mediaUploadMaxLen := 0
  mediaUploadTtl := 0
  mediaChunkSizeDefault := 1
  mediaChunkSizeMin := 1
  mediaChunkSizeMax := 1
  mediaChunkOverheadMax := 1
  wbfMetaMaxBytes := 0
  wbfDataMaxBytes := 2
  maxPendingMediaUploads := 1

def emptyState : State where
  world := {
    service := {
      uploads := .empty
      progress := .empty
      chunks := .empty
      chunked := .empty
      files := .empty
      tombstones := .empty
      staging := fun _ => none
      objects := fun _ => none
      hot := fun _ => none }
    accepted := fun _ => [] }
  isSealed := fun _ => false

def openStream : Event :=
  .finish (.create "@u:s" { fileSize := 0, chunkSize := none, chunkCount := 0, description := [] } 0 [1] 0)

def streamByte (index : Nat) : Event := .finish (.chunk "@u:s" 1 (UInt32.ofNat index) [0] false none 0)

def shortStream : List Event :=
  [openStream, .finish (.chunk "@u:s" 1 0 [7] true none 0), .restart, .finish (.finalize "@u:s" 1 none true true)]

theorem uploads_hold_along_shortStream : Along (step unlimited "s") (UploadsHold "s") emptyState shortStream ∧
      (run (step unlimited "s") emptyState shortStream).isSealed 1 :=
  ⟨uploads_hold_along unlimited "s" emptyState shortStream ⟨fun _ => rfl, fun _ => rfl, fun _ => rfl, fun _ => rfl⟩
    ⟨trivial, fun _ got => by cases got; exact .inl (by decide), trivial, trivial, trivial⟩, rfl⟩

def Streaming (state : State) (count : Nat) : Prop := ∃ upload progress,
  state.world.service.uploads.find 1 = some upload ∧ state.world.service.hot 1 = some (.of upload progress) ∧
    upload.owner = "@u:s" ∧ upload.chunkCount = 0 ∧ progress.finished = false ∧
    progress.receivedCount.toNat = min count (2 ^ 32 - 1) ∧ (state.world.accepted 1).length = count

theorem Streaming.next {n : Nat} (streaming : Streaming state n) (lt : n ≤ 2 ^ 32 - 1) :
    Streaming (step unlimited "s" state (streamByte n)) (n + 1) := by
  obtain ⟨upload, p, decl, copied, owner, stream, unfinished, got, accepted⟩ := streaming
  -- The byte is the one that is due, also where the counter has stopped.
  have index : UInt32.ofNat n = p.receivedCount := by
    apply UInt32.toNat.inj
    rw [UInt32.toNat_ofNat']
    omega
  let next : UploadProgress := { p with
    totalLen := saturatingAdd64 p.totalLen 1
    receivedCount := saturatingAdd32 p.receivedCount 1
    finished := false
    lastChunkAtSecs := 0 }
  have changes : Op.effects unlimited "s" state.world.service (.chunk "@u:s" 1 p.receivedCount [0] false none 0) =
      [.writeStaging 1 p.totalLen [0],
        .putChunkAndProgress upload.mxc p.receivedCount { offset := p.totalLen, len := 1 } 1 next [0],
        .remember 1 (.of upload next)] := by
    simp [Op.effects, uploadChunk, ownedUpload, hotUpload, copied, Outcome.andThen, UploadHot.of, owner, unfinished,
      finishes, stream, acceptChunk, crossesUploadLimit, unlimited, saturatingAddSize, next]
  refine ⟨upload, next, ?_, ?_, owner, stream, rfl, ?_, ?_⟩
  · simp only [streamByte, step, index, changes]
    exact decl
  · simp only [streamByte, step, index, changes, run_cons, run_nil, World.apply, Service.apply, Function.update_self]
  · rw [saturatingAdd32_toNat]
    simp only [UInt32.reduceToNat]
    omega
  · simp only [streamByte, step, index, changes, run_cons, run_nil, World.apply, World.record, Function.update_self,
      length_append, accepted, length_singleton]

theorem streaming_openStream : Streaming (step unlimited "s" emptyState openStream) 0 :=
  ⟨_, _, rfl, rfl, rfl, rfl, rfl, rfl, rfl⟩

theorem streaming_run (n : Nat) (lt : n ≤ 2 ^ 32) :
    Streaming (run (step unlimited "s") emptyState (openStream :: (List.range n).map streamByte)) n := by
  induction n with
  | zero => exact streaming_openStream
  | succ n ih =>
    rw [range_succ, map_append, ← cons_append, run_append]
    exact (ih (by omega)).next (by omega)

/-- The 2 ^ 32nd chunk of a stream without a size limit is accepted and not counted. -/
theorem stream_outruns_counter : Fresh emptyState ∧ ¬Along (step unlimited "s") (UploadsHold "s") emptyState
    (openStream :: (List.range (2 ^ 32)).map streamByte) := by
  refine ⟨⟨fun _ => rfl, fun _ => rfl, fun _ => rfl, fun _ => rfl⟩, fun along => ?_⟩
  obtain ⟨upload, _, decl, _, _, _, _, _, accepted⟩ := streaming_run (2 ^ 32) le_rfl
  obtain ⟨p, _, ok, _⟩ := along.last.counted 1 upload decl
  -- A 32-bit counter cannot say 2 ^ 32.
  rw [accepted] at ok
  exact absurd p.receivedCount.toNat_lt (by omega)

end Wbfuwunel.Media
