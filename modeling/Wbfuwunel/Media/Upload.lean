import Wbfuwunel.Database.Codec
import Wbfuwunel.Foundation.Runs
import Wbfuwunel.Foundation.Saturating
import Wbfuwunel.Foundation.Store

/-! Chunked upload: `media/upload.rs`, the rows of `media/data.rs` it keeps and the chunk read of `media/range.rs`.

An operation decides from what it reads and then changes three places one after the other: the rows, the staging
file and the memory. It is modelled as its answer together with the changes it makes, in order; a crash is a
beginning of that list. One operation holds the upload's lock throughout, so nothing comes between its changes.
-/

set_option autoImplicit false

namespace Wbfuwunel.Media

open Foundation Database Function

abbrev UserId := String
abbrev MxcUri := String
abbrev UploadId := UInt64

structure Config where
  mediaUploadMaxLen : UInt64
  mediaUploadTtl : UInt64
  mediaChunkSizeDefault : Nat
  mediaChunkSizeMin : Nat
  mediaChunkSizeMax : Nat
  mediaChunkOverheadMax : Nat
  wbfMetaMaxBytes : Nat
  wbfDataMaxBytes : Nat
  maxPendingMediaUploads : Nat

structure Upload where
  mxc : MxcUri
  owner : UserId
  chunkSize : UInt32
  chunkCount : UInt32
  fileSize : UInt64
  description : Bytes
  createdAtSecs : UInt64

structure UploadProgress where
  receivedCount : UInt32 := 0
  totalLen : UInt64 := 0
  finished : Bool := false
  truncated : Bool := false
  lastChunkAtSecs : UInt64 := 0

structure ChunkSpan where
  offset : UInt64
  len : UInt32

structure ChunkedMedia where
  chunkSize : UInt32
  chunkCount : UInt32
  fileSize : UInt64
  totalLen : UInt64
  description : Bytes
  truncated : Bool

structure UploadHot where
  owner : UserId
  mxc : MxcUri
  chunkSize : UInt32
  chunkCount : UInt32
  fileSize : UInt64
  progress : UploadProgress

structure UploadRequest where
  fileSize : UInt64
  chunkSize : Option UInt32
  chunkCount : UInt32
  description : Bytes

structure UploadCreated where
  uploadId : UploadId
  mxc : MxcUri
  chunkSize : UInt32
  chunkMaxBytes : UInt32
  expiresAtSecs : UInt64

structure UploadStatus where
  receivedCount : UInt32
  chunkCount : UInt32
  totalLen : UInt64
  finished : Bool
  truncated : Bool
  chunkSize : UInt32
  fileSize : UInt64

structure ChunkStored where
  receivedCount : UInt32
  chunkCount : UInt32
  totalLen : UInt64
  finished : Bool
  truncated : Bool

inductive UploadError where
  | notFound
  | conflict (message : String)
  | outOfOrder (expected : UInt32)
  | tooLarge (message : String)
  | truncated (answer : ChunkStored)
  | internal (message : String)

inductive ReadError where
  | gone
  | notFound (message : String)
  | invalidParam (message : String)
  | database (message : String)

/-! ## The three places -/

structure Service where
  /-- `mediaid_upload` and `mediaid_upload_progress`. -/
  uploads : Store UploadId Upload
  progress : Store UploadId UploadProgress
  /-- `mxc_chunk`, `mxc_chunked`, `mediaid_file` and `mxc_tombstone`. -/
  chunks : Store Bytes ChunkSpan
  chunked : Store Bytes ChunkedMedia
  files : Store Bytes Unit
  tombstones : Store Bytes Unit
  /-- The staging files by upload id, and the providers' objects by media key. -/
  staging : UploadId → Option Bytes
  objects : Bytes → Option Bytes
  /-- `uploads_hot`. -/
  hot : UploadId → Option UploadHot

variable (mxc : MxcUri)

/-- The row key of a chunk, `(mxc, index)`, and the key prefix of all chunks of a media. -/
def chunkKey (index : UInt32) : Bytes := serializeKey [.str mxc, .u32 index]

def chunkPrefixKey : Bytes := serializeKey [.str mxc, .interfix]

def fullSize : Bytes := toBeBytes32 0 ++ toBeBytes32 0

/-- `(mxc, dim, content_disposition, content_type)` without the last two, and the prefix they are looked up by. -/
def fileKey : Bytes := serializeKey [.str mxc, .bytes fullSize, .none, .none]

def filePrefixKey : Bytes := serializeKey [.str mxc, .bytes fullSize, .interfix]

def mxcKey : Bytes := utf8 mxc

def writeAt (file : Option Bytes) (offset : Nat) (content : Bytes) : Bytes :=
  let file := file.getD []
  file.take offset ++ List.replicate (offset - file.length) 0 ++ content ++ file.drop (offset + content.length)

/-- One change to one of the three places; a change to rows is one transaction. -/
inductive Effect where
  | createUpload (uploadId : UploadId) (upload : Upload) (progress : UploadProgress)
  | remember (uploadId : UploadId) (hot : UploadHot)
  | forget (uploadId : UploadId)
  | writeStaging (uploadId : UploadId) (offset : UInt64) (content : Bytes)
  /-- `chunk` is what the transaction counts in; no row holds it. -/
  | putChunkAndProgress (mxc : MxcUri) (index : UInt32) (span : ChunkSpan) (uploadId : UploadId)
      (progress : UploadProgress) (chunk : Bytes)
  | putProgress (uploadId : UploadId) (progress : UploadProgress)
  | createFileMetadata (mxc : MxcUri)
  | storeObject (key : Bytes) (content : Bytes)
  | putChunkedMedia (mxc : MxcUri) (chunked : ChunkedMedia)
  | delUpload (uploadId : UploadId)
  | deleteChunkRows (mxc : MxcUri)
  | removeStaging (uploadId : UploadId)

def Service.apply (service : Service) : Effect → Service
  | .createUpload uploadId upload progress => { service with
      uploads := service.uploads.put uploadId upload
      progress := service.progress.put uploadId progress }
  | .remember uploadId hot => { service with hot := update service.hot uploadId (some hot) }
  | .forget uploadId => { service with hot := update service.hot uploadId none }
  | .writeStaging uploadId offset content => { service with
      staging := update service.staging uploadId
        (some (writeAt (service.staging uploadId) offset.toNat content)) }
  -- The span and the progress row in one batch: a crash leaves both or neither.
  | .putChunkAndProgress mxc index span uploadId progress _ => { service with
      chunks := service.chunks.put (chunkKey mxc index) span
      progress := service.progress.put uploadId progress }
  | .putProgress uploadId progress => { service with progress := service.progress.put uploadId progress }
  | .createFileMetadata mxc => { service with files := service.files.put (fileKey mxc) () }
  | .storeObject key content => { service with objects := update service.objects key (some content) }
  | .putChunkedMedia mxc chunked => { service with chunked := service.chunked.put (mxcKey mxc) chunked }
  | .delUpload uploadId => { service with
      uploads := service.uploads.del uploadId
      progress := service.progress.del uploadId }
  | .deleteChunkRows mxc => { service with
      chunks := ((service.chunks.rowsBeginning (chunkPrefixKey mxc)).map Prod.fst).foldl Store.del service.chunks
      chunked := service.chunked.del (mxcKey mxc) }
  | .removeStaging uploadId => { service with staging := update service.staging uploadId none }

structure Outcome (α : Type) where
  effects : List Effect
  answer : Except UploadError α

namespace Outcome

variable {α β : Type}

def refuse (error : UploadError) : Outcome α := ⟨[], .error error⟩

/-- Go on with the answer, if there is one; the changes already made stay made. -/
def andThen (first : Outcome α) (next : α → Outcome β) : Outcome β :=
  match first.answer with
  | .error error => ⟨first.effects, .error error⟩
  | .ok value => ⟨first.effects ++ (next value).effects, (next value).answer⟩

end Outcome

/-! ## The operations -/

variable (config : Config) (serverName : String) (service : Service) (user : UserId) (uploadId : UploadId)

def mxcOf : MxcUri :=
  "mxc://" ++ serverName ++ "/" ++ String.ofList (hexDigits 14 uploadId.toNat)

variable (mxc : MxcUri)

def searchFileMetadata : Except ReadError Bytes :=
  if service.tombstones.contains (mxcKey mxc) then .error .gone
  else match service.files.rowsBeginning (filePrefixKey mxc) with
    | row :: _ => .ok row.1
    | [] => .error (.notFound "Media not found")

def isUploadIdFree : Bool :=
  if service.uploads.contains uploadId then false
  else if service.tombstones.contains (mxcKey mxc) then false
  else match searchFileMetadata service mxc with
    | .error (.notFound _) => true
    | _ => false

instance digitsNeZero : NeZero (16 ^ 14) := ⟨by decide⟩

/-- Fourteen random hex digits, drawn again while they are zero or already taken. -/
def mintUploadId (draws : List (Fin (16 ^ 14))) : Option UploadId :=
  (draws.map fun draw => UInt64.ofNat draw.val).find? fun uploadId =>
    uploadId ≠ 0 && isUploadIdFree service uploadId (mxcOf serverName uploadId)

def countUploadsForUser : Nat :=
  (service.uploads.rows.filter fun row => row.2.owner = user).length

def UploadHot.of (upload : Upload) (progress : UploadProgress) : UploadHot where
  owner := upload.owner
  mxc := upload.mxc
  chunkSize := upload.chunkSize
  chunkCount := upload.chunkCount
  fileSize := upload.fileSize
  progress := progress

variable (hot : UploadHot)

def stored : ChunkStored where
  receivedCount := hot.progress.receivedCount
  chunkCount := hot.chunkCount
  totalLen := hot.progress.totalLen
  finished := hot.progress.finished
  truncated := hot.progress.truncated

/-- The in-memory copy, loaded from the rows on first use. -/
def hotUpload : Outcome UploadHot :=
  match service.hot uploadId with
  | some hot => ⟨[], .ok hot⟩
  | none =>
    match service.uploads.find uploadId, service.progress.find uploadId with
    | some declared, some progress =>
      ⟨[.remember uploadId (.of declared progress)], .ok (.of declared progress)⟩
    | _, _ => .refuse .notFound

def ownedUpload : Outcome UploadHot :=
  (hotUpload service uploadId).andThen fun hot => if hot.owner = user then ⟨[], .ok hot⟩ else .refuse .notFound

def saturatingAddSize (first second : Nat) : Nat := min (first + second) (2 ^ 64 - 1)

def divCeil (total part : Nat) : Nat := (total + part - 1) / part

variable (request : UploadRequest)

/-- The checks that read nothing but the request: the chunk size and what a chunk may weigh. -/
def checkUploadRequest : Except UploadError (Nat × Nat) :=
  let isStream := request.fileSize = 0 ∧ request.chunkCount = 0
  let chunkSize := request.chunkSize.elim config.mediaChunkSizeDefault UInt32.toNat
  let chunkMaxBytes := saturatingAddSize chunkSize config.mediaChunkOverheadMax
  let chunkCount := request.chunkCount
  let fileSize := request.fileSize
  let smallest := config.mediaChunkSizeMin
  let largest := config.mediaChunkSizeMax
  let length := request.description.length
  let kept := config.wbfMetaMaxBytes
  let expectedCount := divCeil request.fileSize.toNat chunkSize
  if ¬isStream ∧ request.fileSize = 0 then
    .error (.conflict "file_size must be positive (0 only with chunk_count 0, a stream)")
  else if config.mediaUploadMaxLen > 0 ∧ request.fileSize > config.mediaUploadMaxLen then
    .error (.tooLarge "file_size exceeds media_upload_max_len")
  else if length > kept then
    .error (.tooLarge s!"the encrypted description is {length} bytes; at most {kept} are kept")
  else if chunkSize < smallest ∨ chunkSize > largest then
    .error (.conflict s!"chunk_size must be between {smallest} and {largest}")
  else if chunkMaxBytes > config.wbfDataMaxBytes then
    .error (.conflict "chunk_size plus overhead exceeds wbf_data_max_bytes")
  else if chunkSize ≥ 2 ^ 32 ∨ chunkMaxBytes ≥ 2 ^ 32 then
    .error (.conflict "chunk_size too large")
  -- Division by zero is a panic before anything was changed.
  else if chunkSize = 0 then
    .error (.internal "attempt to divide by zero")
  else if ¬isStream ∧ request.chunkCount.toNat ≠ expectedCount then
    .error (.conflict
      s!"chunk_count {chunkCount} does not match file_size {fileSize} in chunks of {chunkSize}: expected {expectedCount}")
  else .ok (chunkSize, chunkMaxBytes)

def isQuotaReached (pending inProgress : Nat) : Bool :=
  saturatingAddSize pending inProgress ≥ config.maxPendingMediaUploads

def declare (chunkSize : Nat) (uploadId : UploadId) (now : UInt64) : Upload where
  mxc := mxcOf serverName uploadId
  owner := user
  chunkSize := UInt32.ofNat chunkSize
  chunkCount := request.chunkCount
  fileSize := request.fileSize
  description := request.description
  createdAtSecs := now

def createEffects (chunkSize : Nat) (uploadId : UploadId) (now : UInt64) :
    List Effect :=
  let upload := declare serverName user request chunkSize uploadId now
  [.createUpload uploadId upload { lastChunkAtSecs := now }, .remember uploadId (.of upload { lastChunkAtSecs := now })]

/-- `pending` is the user's count of pending media of the other kind, `draws` the random digits. -/
def uploadCreate (pending : Nat)
    (draws : List (Fin (16 ^ 14))) (now : UInt64) : Outcome UploadCreated :=
  match checkUploadRequest config request with
  | .error error => .refuse error
  | .ok (chunkSize, chunkMaxBytes) =>
    if isQuotaReached config pending (countUploadsForUser service user) then
      .refuse (.tooLarge "maximum number of pending media uploads reached")
    else
      match mintUploadId serverName service draws with
      -- The digits drawn so far are all taken: the loop is still drawing.
      | none => .refuse (.internal "no free upload id drawn")
      | some uploadId => ⟨createEffects serverName user request chunkSize uploadId now, .ok {
          uploadId
          mxc := mxcOf serverName uploadId
          chunkSize := UInt32.ofNat chunkSize
          chunkMaxBytes := UInt32.ofNat chunkMaxBytes
          expiresAtSecs := saturatingAdd64 now config.mediaUploadTtl }⟩

def crossesUploadLimit (maxLen : UInt64) (chunkSize : UInt32) (totalLen : UInt64) (receivedCount : UInt32) : Bool :=
  if maxLen = 0 then false
  else
    let maxChunks := divCeil maxLen.toNat (max chunkSize 1).toNat
    totalLen > maxLen || receivedCount.toNat > maxChunks

variable (index : UInt32)

def finishes (isLast : Bool) : Except UploadError Bool :=
  let last := hot.chunkCount - 1
  if hot.chunkCount = 0 then .ok isLast
  else if index ≥ hot.chunkCount then
    .error (.conflict s!"chunk {index} is past the declared last chunk {last}")
  else
    let isFinalIndex : Bool := saturatingAdd32 index 1 = hot.chunkCount
    if isLast && !isFinalIndex then
      .error (.conflict s!"chunk {index} carries IS_LAST but the declared last chunk is {last}")
    else .ok isFinalIndex

/-- A chunk that passed the order checks. `written` is where the staging write failed, if it did. -/
def acceptChunk (chunk : Bytes) (ends : Bool)
    (written : Option Nat) (now : UInt64) : Outcome ChunkStored :=
  let chunkMaxBytes := saturatingAddSize hot.chunkSize.toNat config.mediaChunkOverheadMax
  let length := chunk.length
  let len := UInt32.ofNat chunk.length
  let totalLen := saturatingAdd64 hot.progress.totalLen len.toUInt64
  let receivedCount := saturatingAdd32 index 1
  if chunk.isEmpty then .refuse (.conflict "a chunk carries at least one byte")
  -- The chunk size the client declared, plus what encrypting a chunk may add.
  else if length > chunkMaxBytes then
    .refuse (.tooLarge s!"chunk {index} is {length} bytes; this upload's chunks are at most {chunkMaxBytes}")
  else if length ≥ 2 ^ 32 then .refuse (.tooLarge "chunk too large")
  -- The chunk that crosses the limit is dropped and ends the upload.
  else if crossesUploadLimit config.mediaUploadMaxLen hot.chunkSize totalLen receivedCount then
    let ended := { hot with
      progress := { hot.progress with finished := true, truncated := true, lastChunkAtSecs := now } }
    ⟨[.putProgress uploadId ended.progress, .remember uploadId ended], .error (.truncated (stored ended))⟩
  else
    match written with
    | some count =>
      ⟨[.writeStaging uploadId hot.progress.totalLen (chunk.take count)], .error (.internal "staging write failed")⟩
    | none =>
      let span : ChunkSpan := { offset := hot.progress.totalLen, len }
      let advanced := { hot with
        progress := { hot.progress with totalLen, receivedCount, finished := ends, lastChunkAtSecs := now } }
      ⟨[.writeStaging uploadId hot.progress.totalLen chunk,
        .putChunkAndProgress hot.mxc index span uploadId advanced.progress chunk,
        .remember uploadId advanced], .ok (stored advanced)⟩

def uploadChunk (chunk : Bytes)
    (isLast : Bool) (written : Option Nat) (now : UInt64) : Outcome ChunkStored :=
  (ownedUpload service user uploadId).andThen fun hot =>
    let received := hot.progress.receivedCount
    let last := received - min received 1
    -- A resend: answered as before, its bytes are not looked at.
    if index < received then ⟨[], .ok (stored hot)⟩
    else if index > received then .refuse (.outOfOrder received)
    else if hot.progress.finished then
      .refuse (.conflict s!"upload finished at chunk {last}; nothing may follow")
    else match finishes hot index isLast with
      | .error error => .refuse error
      | .ok ends => acceptChunk config uploadId hot index chunk ends written now

def uploadStatus : Outcome UploadStatus :=
  (ownedUpload service user uploadId).andThen fun hot => ⟨[], .ok {
    receivedCount := hot.progress.receivedCount
    chunkCount := hot.chunkCount
    totalLen := hot.progress.totalLen
    finished := hot.progress.finished
    truncated := hot.progress.truncated
    chunkSize := hot.chunkSize
    fileSize := hot.fileSize }⟩

/-- `stores` says whether a provider took the object, `removes` whether the staging file could be removed. -/
def uploadSeal (newDescription : Option Bytes)
    (stores removes : Bool) : Outcome MxcUri :=
  (ownedUpload service user uploadId).andThen fun hot =>
    let received := hot.progress.receivedCount
    let bytes := hot.progress.totalLen
    let count := hot.chunkCount
    if ¬hot.progress.finished then
      .refuse (.conflict (if hot.chunkCount = 0
        then s!"stream not ended: {received} chunks, {bytes} bytes, no chunk carried IS_LAST yet"
        else s!"upload not finished: {received} of {count} chunks, {bytes} bytes"))
    else if hot.progress.receivedCount = 0 then
      .refuse (.conflict "nothing was received; abort this upload instead")
    -- Memory has no description, so the declaration is read again.
    else match service.uploads.find uploadId with
      | none => .refuse .notFound
      | some declared =>
        if newDescription.any fun description => description.length > config.wbfMetaMaxBytes then
          .refuse (.tooLarge "the encrypted description is too large")
        else match stores, service.staging uploadId with
          | true, some file =>
            let chunked : ChunkedMedia := {
              chunkSize := hot.chunkSize
              chunkCount := hot.progress.receivedCount
              fileSize := hot.fileSize
              totalLen := hot.progress.totalLen
              description := newDescription.getD declared.description
              truncated := hot.progress.truncated }
            ⟨[.createFileMetadata hot.mxc,
              .storeObject (fileKey hot.mxc) (file.take hot.progress.totalLen.toNat),
              .putChunkedMedia hot.mxc chunked,
              .delUpload uploadId,
              .forget uploadId] ++ if removes then [.removeStaging uploadId] else [], .ok hot.mxc⟩
          -- The file row stays; the next seal writes it again.
          | _, _ => ⟨[.createFileMetadata hot.mxc], .error (.internal "Failed to store sealed upload")⟩

def discardUpload (removes : Bool) : List Effect :=
  [.delUpload uploadId, .forget uploadId, .deleteChunkRows mxc] ++ if removes then [.removeStaging uploadId] else []

def uploadAbort (removes : Bool) : Outcome Unit :=
  (ownedUpload service user uploadId).andThen fun hot => ⟨discardUpload uploadId hot.mxc removes, .ok ()⟩

/-! ## The sweep -/

def isExpired (progress : UploadProgress) (now : UInt64) : Bool :=
  saturatingAdd64 progress.lastChunkAtSecs config.mediaUploadTtl < now

/-- One candidate, looked at again under its lock. -/
def sweepUpload (now : UInt64) (removes : UploadId → Bool) (uploadId : UploadId) : List Effect :=
  -- A chunk may have arrived since the candidates were listed.
  if (service.progress.find uploadId).any fun progress => !isExpired config progress now then []
  else match service.uploads.find uploadId with
    | none => [.delUpload uploadId, .forget uploadId]
    | some declared => discardUpload uploadId declared.mxc (removes uploadId)

def sweepCandidates (now : UInt64) (removes : UploadId → Bool) : Service → List UploadId → List Effect
  | _, [] => []
  | service, uploadId :: rest =>
    let effects := sweepUpload config service now removes uploadId
    effects ++ sweepCandidates now removes (run Service.apply service effects) rest

/-- Staging files of the directory listing `entries` that no upload row accounts for. -/
def sweepStaging (removes : UploadId → Bool) (entries : List UploadId) : List Effect :=
  (entries.filter fun uploadId => !service.uploads.contains uploadId && removes uploadId).map .removeStaging

def sweepUploads (now : UInt64) (removes : UploadId → Bool) (entries : List UploadId) : List Effect :=
  let expired := (service.progress.rows.filter fun row => isExpired config row.2 now).map Prod.fst
  let effects := sweepCandidates config now removes service expired
  effects ++ sweepStaging (run Service.apply service effects) removes entries

/-! ## Reading a chunk back -/

structure ChunkRead where
  index : UInt32
  plainPos : UInt64
  bytes : Bytes
  chunkSize : UInt32
  chunkCount : UInt32
  totalLen : UInt64

/-- A provider's ranged read: a range past the end of the object is an error. -/
def getRange (object : Bytes) (pos stop : Nat) : Option Bytes :=
  if stop ≤ object.length then some (slice object pos stop) else none

def readChunk : Except ReadError ChunkRead :=
  match searchFileMetadata service mxc with
  | .error error => .error error
  | .ok key =>
    match service.chunked.find (mxcKey mxc) with
    | none => .error (.invalidParam "Not chunked media; read it by position.")
    | some chunked =>
      let last := chunked.chunkCount - min chunked.chunkCount 1
      if index ≥ chunked.chunkCount then
        .error (.invalidParam s!"Chunk index {index} is past the last chunk {last}.")
      else match service.chunks.find (chunkKey mxc index) with
        | none => .error (.database s!"Chunk {index} of {mxc} has no span row.")
        | some span =>
          let stop := saturatingAdd64 span.offset span.len.toUInt64
          match (service.objects key).bind fun object => getRange object span.offset.toNat stop.toNat with
          | none => .error (.notFound "Media chunk not readable from any provider.")
          | some bytes => .ok {
              index
              plainPos := index.toUInt64 * chunked.chunkSize.toUInt64
              bytes
              chunkSize := chunked.chunkSize
              chunkCount := chunked.chunkCount
              totalLen := chunked.totalLen }

end Wbfuwunel.Media
