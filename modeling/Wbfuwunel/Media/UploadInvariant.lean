import Wbfuwunel.Media.Upload

/-! What the rows and the staging files say at every moment of a run, against the history of accepted chunks.

The history is kept beside the service and only read here. `Safe` is what a single change must respect; a safe
change keeps `Durable`, so an operation need only show that its changes are safe one after the other.
-/

set_option autoImplicit false

namespace Wbfuwunel.Media

open Foundation Database List Function Option Store Service

/-! ## Keys -/

variable {mxc o : MxcUri} {index : UInt32}

theorem chunkKey_inj {second : UInt32} : chunkKey mxc index = chunkKey o second ↔ mxc = o ∧ index = second := by
  simp [chunkKey, Element.encode, str_eq_iff]

theorem chunkPrefixKey_begins : chunkPrefixKey mxc <+: chunkKey o index ↔ mxc = o := by
  simp [chunkPrefixKey, chunkKey, Element.encode, str_begins_iff]

theorem filePrefixKey_begins : filePrefixKey mxc <+: fileKey o ↔ mxc = o := by
  simp [filePrefixKey, fileKey, Element.encode, str_begins_iff]

theorem fileKey_inj : fileKey mxc = fileKey o ↔ mxc = o := by
  simp [fileKey, Element.encode]

theorem mxcOf_injective {serverName : String} {a b : UploadId} (firstFits : a.toNat < 16 ^ 14)
    (secondFits : b.toNat < 16 ^ 14) (eq : mxcOf serverName a = mxcOf serverName b) : a = b := by
  simp only [mxcOf, String.append_right_inj, String.ofList_inj] at eq
  exact UInt64.toNat.inj (hexDigits_injective firstFits secondFits eq)

/-! ## The history beside the service -/

structure World where
  service : Service
  /-- The chunks accepted for an upload id since it was last created, in order. -/
  accepted : UploadId → List Bytes

namespace World

def record (accepted : UploadId → List Bytes) : Effect → UploadId → List Bytes
  | .createUpload uploadId _ _ => update accepted uploadId []
  | .putChunkAndProgress _ _ _ uploadId _ chunk =>
    update accepted uploadId (accepted uploadId ++ [chunk])
  | _ => accepted

def apply (world : World) (effect : Effect) : World :=
  ⟨world.service.apply effect, record world.accepted effect⟩

theorem run_service (w : World) (effects : List Effect) :
    (run apply w effects).service = run Service.apply w.service effects := by
  induction effects generalizing w with
  | nil => rfl
  | cons effect effects ih => exact ih (w.apply effect)

end World

def spanStart (accepted : List Bytes) (index : Nat) : Nat := (accepted.take index).flatten.length

def SpansHold (chunks : Store Bytes ChunkSpan) (mxc : MxcUri) (accepted : List Bytes) : Prop :=
  ∀ index (inside : index < accepted.length), chunks.find (chunkKey mxc (UInt32.ofNat index)) =
    some { offset := UInt64.ofNat (spanStart accepted index), len := UInt32.ofNat accepted[index].length }

/-- No media file is registered for `mxc` but the one a seal registers. -/
def OnlySealed (files : Store Bytes Unit) (mxc : MxcUri) : Prop :=
  ∀ row ∈ files.rows, filePrefixKey mxc <+: row.1 → row.1 = fileKey mxc

variable (serverName : String)

structure LiveHolds (world : World) (uploadId : UploadId) (upload : Upload) (progress : UploadProgress) : Prop where
  fits : uploadId.toNat < 16 ^ 14
  mxc : upload.mxc = mxcOf serverName uploadId
  present : world.service.tombstones.find (mxcKey upload.mxc) = none
  onlySealed : OnlySealed world.service.files upload.mxc
  counted : progress.receivedCount.toNat = (world.accepted uploadId).length
  sized : ∀ chunk ∈ world.accepted uploadId, chunk ≠ [] ∧ chunk.length < 2 ^ 32
  spans : SpansHold world.service.chunks upload.mxc (world.accepted uploadId)
  total : progress.totalLen.toNat = (world.accepted uploadId).flatten.length
  content : ((world.service.staging uploadId).getD []).take progress.totalLen.toNat = (world.accepted uploadId).flatten

structure SealedHolds (world : World) (uploadId : UploadId) : Prop where
  fits : uploadId.toNat < 16 ^ 14
  ended : world.service.uploads.find uploadId = none
  present : world.service.tombstones.find (mxcKey (mxcOf serverName uploadId)) = none
  onlySealed : OnlySealed world.service.files (mxcOf serverName uploadId)
  file : world.service.files.find (fileKey (mxcOf serverName uploadId)) = some ()
  few : (world.accepted uploadId).length < 2 ^ 32
  sized : ∀ chunk ∈ world.accepted uploadId, chunk ≠ [] ∧ chunk.length < 2 ^ 32
  shape : ∃ chunked, world.service.chunked.find (mxcKey (mxcOf serverName uploadId)) = some chunked ∧
    chunked.chunkCount.toNat = (world.accepted uploadId).length
  spans : SpansHold world.service.chunks (mxcOf serverName uploadId) (world.accepted uploadId)
  object : world.service.objects (fileKey (mxcOf serverName uploadId)) = some (world.accepted uploadId).flatten

structure Durable (isSealed : UploadId → Bool) (world : World) : Prop where
  paired : ∀ uploadId, world.service.uploads.find uploadId = none ↔ world.service.progress.find uploadId = none
  live : ∀ uploadId upload progress, world.service.uploads.find uploadId = some upload →
    world.service.progress.find uploadId = some progress → LiveHolds serverName world uploadId upload progress
  closed : ∀ uploadId, isSealed uploadId → SealedHolds serverName world uploadId

/-- What a change must respect to keep `Durable`. -/
def Safe (isSealed : UploadId → Bool) (world : World) : Effect → Prop
  | .createUpload uploadId upload progress =>
    uploadId.toNat < 16 ^ 14 ∧ upload.mxc = mxcOf serverName uploadId ∧
      world.service.tombstones.find (mxcKey upload.mxc) = none ∧
      (∀ row ∈ world.service.files.rows, ¬filePrefixKey upload.mxc <+: row.1) ∧
      progress.receivedCount = 0 ∧ progress.totalLen = 0
  | .remember _ _ | .forget _ | .createFileMetadata _ | .delUpload _ => True
  | .writeStaging uploadId offset _ =>
    ∀ progress, world.service.progress.find uploadId = some progress → progress.totalLen.toNat ≤ offset.toNat
  | .putChunkAndProgress mxc index span uploadId next chunk => ∃ upload progress file,
    world.service.uploads.find uploadId = some upload ∧ world.service.progress.find uploadId = some progress ∧
      world.service.staging uploadId = some file ∧
      slice file progress.totalLen.toNat (progress.totalLen.toNat + chunk.length) = chunk ∧
      chunk ≠ [] ∧ chunk.length < 2 ^ 32 ∧ mxc = upload.mxc ∧ index = progress.receivedCount ∧
      span = { offset := progress.totalLen, len := UInt32.ofNat chunk.length } ∧
      next.receivedCount.toNat = progress.receivedCount.toNat + 1 ∧
      next.totalLen.toNat = progress.totalLen.toNat + chunk.length
  | .putProgress uploadId next => ∃ progress, world.service.progress.find uploadId = some progress ∧
    next.receivedCount = progress.receivedCount ∧ next.totalLen = progress.totalLen
  | .storeObject key _ => ∀ uploadId, isSealed uploadId → key ≠ fileKey (mxcOf serverName uploadId)
  | .putChunkedMedia mxc _ => ∀ uploadId, isSealed uploadId → mxc ≠ mxcOf serverName uploadId
  | .deleteChunkRows mxc => ∀ uploadId, world.service.uploads.find uploadId ≠ none ∨ isSealed uploadId →
    mxc ≠ mxcOf serverName uploadId
  | .removeStaging uploadId => world.service.uploads.find uploadId = none

/-! ## Spans and the staging file -/

variable {chunks : Store Bytes ChunkSpan} {accepted : List Bytes} {file : Option Bytes} {offset : Nat} {content : Bytes}

theorem SpansHold.put_of_ne (spans : SpansHold chunks mxc accepted) (ne : o ≠ mxc) (index : UInt32)
    (span : ChunkSpan) : SpansHold (chunks.put (chunkKey o index) span) mxc accepted := by
  intro pos mem
  rw [find_put_of_ne]
  · exact spans pos mem
  · exact fun eq => ne (chunkKey_inj.mp eq).1.symm

theorem SpansHold.snoc (spans : SpansHold chunks mxc accepted) (next : index.toNat = accepted.length) (chunk : Bytes) :
    SpansHold (chunks.put (chunkKey mxc index)
      { offset := UInt64.ofNat accepted.flatten.length, len := UInt32.ofNat chunk.length }) mxc (accepted ++ [chunk]) := by
  have lt := index.toNat_lt
  intro pos mem
  rw [length_append] at mem
  rcases Nat.lt_succ_iff_lt_or_eq.mp mem with old | rfl
  · have ne : chunkKey mxc (UInt32.ofNat pos) ≠ chunkKey mxc index := by
      intro eq
      have equal := congrArg UInt32.toNat (chunkKey_inj.mp eq).2
      rw [UInt32.toNat_ofNat'] at equal
      omega
    rw [find_put_of_ne _ _ ne, spans pos old, getElem_append_left old, spanStart, spanStart,
      take_append_of_le_length old.le]
  · have eq : UInt32.ofNat accepted.length = index := by rw [← next, UInt32.ofNat_toNat]
    rw [eq, find_put_self, getElem_concat_length rfl, spanStart, take_left]

theorem take_writeAt {total : Nat} (reaches : total ≤ (file.getD []).length) (beyond : total ≤ offset) :
    (writeAt file offset content).take total = (file.getD []).take total := by
  have mem : total ≤ ((file.getD []).take offset).length := by rw [length_take]; omega
  rw [writeAt, append_assoc, append_assoc, take_append_of_le_length mem, take_take, min_eq_left beyond]

theorem slice_writeAt (reaches : offset ≤ (file.getD []).length) :
    slice (writeAt file offset content) offset (offset + content.length) = content := by
  rw [writeAt, Nat.sub_eq_zero_of_le reaches, replicate_zero, append_nil, append_assoc]
  exact slice_append _ _ _ (by rw [length_take]; omega) (by rw [length_take]; omega)

theorem LiveHolds.reaches {serverName : String} {w : World} {id : UploadId} {upload : Upload}
    {p : UploadProgress} (h : LiveHolds serverName w id upload p) :
    p.totalLen.toNat ≤ ((w.service.staging id).getD []).length := by
  have content := congrArg List.length h.content
  rw [length_take, ← h.total] at content
  omega

/-! ## Safe changes keep the invariant -/

section Keeps

variable {serverName : String} {isSealed : UploadId → Bool} {w : World}
  {next : World} {id : UploadId} {upload : Upload} {p : UploadProgress} {mxc : MxcUri}

theorem LiveHolds.frame (h : LiveHolds serverName w id upload p)
    (tombstones : next.service.tombstones = w.service.tombstones) (files : next.service.files = w.service.files)
    (accepted : next.accepted id = w.accepted id)
    (spans : SpansHold next.service.chunks upload.mxc (w.accepted id))
    (staging : next.service.staging id = w.service.staging id) :
    LiveHolds serverName next id upload p where
  fits := h.fits
  mxc := h.mxc
  present := tombstones ▸ h.present
  onlySealed := files ▸ h.onlySealed
  counted := accepted ▸ h.counted
  sized := accepted ▸ h.sized
  spans := accepted ▸ spans
  total := accepted ▸ h.total
  content := by rw [accepted, staging]; exact h.content

theorem SealedHolds.frame (h : SealedHolds serverName w id)
    (ended : next.service.uploads.find id = none) (tombstones : next.service.tombstones = w.service.tombstones)
    (files : next.service.files = w.service.files) (accepted : next.accepted id = w.accepted id)
    (chunked : next.service.chunked = w.service.chunked)
    (spans : SpansHold next.service.chunks (mxcOf serverName id) (w.accepted id))
    (objects : next.service.objects = w.service.objects) : SealedHolds serverName next id where
  fits := h.fits
  ended := ended
  present := tombstones ▸ h.present
  onlySealed := files ▸ h.onlySealed
  file := files ▸ h.file
  few := accepted ▸ h.few
  sized := accepted ▸ h.sized
  shape := by rw [accepted, chunked]; exact h.shape
  spans := accepted ▸ spans
  object := by rw [accepted, objects]; exact h.object

variable (durable : Durable serverName isSealed w)
include durable

theorem Durable.remember (id : UploadId) (hot : UploadHot) :
    Durable serverName isSealed (w.apply (.remember id hot)) where
  paired := durable.paired
  live o upload p decl advanced := { durable.live o upload p decl advanced with }
  closed o mem := { durable.closed o mem with }

theorem Durable.forget (id : UploadId) : Durable serverName isSealed (w.apply (.forget id)) where
  paired := durable.paired
  live o upload p decl advanced := { durable.live o upload p decl advanced with }
  closed o mem := { durable.closed o mem with }

theorem Durable.createUpload (safe : Safe serverName isSealed w (.createUpload id upload p)) :
    Durable serverName isSealed (w.apply (.createUpload id upload p)) := by
  obtain ⟨fits, mxc, present, noFile, fresh, empty⟩ := safe
  refine ⟨?_, ?_, ?_⟩
  · intro o
    simp only [World.apply, apply, find_put]
    split
    · simp
    · exact durable.paired o
  · intro o got row declared advanced
    simp only [World.apply, apply, find_put] at declared advanced
    by_cases eq : o = id
    -- The new upload: nothing is accepted yet, and its name was free.
    · subst eq
      rw [if_pos rfl, some.injEq] at declared advanced
      subst declared advanced
      have none : (w.apply (.createUpload o upload p)).accepted o = [] := update_self ..
      exact {
        fits, mxc, present
        onlySealed := fun file mem begins => absurd begins (noFile file mem)
        counted := by rw [none, fresh]; rfl
        sized := by rw [none]; simp
        spans := by rw [none]; exact fun _ mem => absurd mem (by simp)
        total := by rw [none, empty]; rfl
        content := by rw [none, empty]; rfl }
    · rw [if_neg eq] at declared advanced
      have h := durable.live o got row declared advanced
      exact h.frame rfl rfl (update_of_ne eq ..) h.spans rfl
  · intro o mem
    have h := durable.closed o mem
    have ne : o ≠ id := by
      rintro rfl
      exact noFile _ (find_eq_some_iff.mp h.file) (mxc ▸ filePrefixKey_begins.mpr rfl)
    exact h.frame ((find_put_of_ne _ _ ne).trans h.ended) rfl rfl (update_of_ne ne ..) rfl h.spans rfl

variable {content chunk : Bytes}

theorem Durable.writeStaging {offset : UInt64} (safe : Safe serverName isSealed w (.writeStaging id offset content)) :
    Durable serverName isSealed (w.apply (.writeStaging id offset content)) where
  paired := durable.paired
  live o upload p decl advanced := by
    have holds := durable.live o upload p decl advanced
    refine { holds with content := ?_ }
    by_cases eq : o = id
    · subst eq
      have staged : (w.apply (.writeStaging o offset content)).service.staging o =
          some (writeAt (w.service.staging o) offset.toNat content) := update_self ..
      -- The write begins at or behind what is counted.
      rw [staged, getD_some, take_writeAt holds.reaches (safe p advanced)]
      exact holds.content
    · have staged : (w.apply (.writeStaging id offset content)).service.staging o =
          w.service.staging o := update_of_ne eq ..
      rw [staged]
      exact holds.content
  closed o mem := { durable.closed o mem with }

omit durable in
theorem LiveHolds.advance {advanced : UploadProgress} {file : Bytes}
    (h : LiveHolds serverName w id upload p) (nonempty : chunk ≠ []) (lt : chunk.length < 2 ^ 32)
    (staged : w.service.staging id = some file)
    (written : slice file p.totalLen.toNat (p.totalLen.toNat + chunk.length) = chunk)
    (eq : advanced.receivedCount.toNat = p.receivedCount.toNat + 1)
    (len : advanced.totalLen.toNat = p.totalLen.toNat + chunk.length)
    (tombstones : next.service.tombstones = w.service.tombstones) (files : next.service.files = w.service.files)
    (staging : next.service.staging = w.service.staging)
    (chunks : next.service.chunks = w.service.chunks.put (chunkKey upload.mxc p.receivedCount)
      { offset := p.totalLen, len := UInt32.ofNat chunk.length })
    (accepted : next.accepted id = w.accepted id ++ [chunk]) :
    LiveHolds serverName next id upload advanced where
  fits := h.fits
  mxc := h.mxc
  present := tombstones ▸ h.present
  onlySealed := files ▸ h.onlySealed
  counted := by rw [accepted, eq, h.counted, length_append, length_singleton]
  sized := by
    rw [accepted]
    intro one mem
    rcases mem_append.mp mem with old | last
    · exact h.sized one old
    · rw [mem_singleton.mp last]
      exact ⟨nonempty, lt⟩
  spans := by
    -- The count so far is where the new span begins.
    have offset : p.totalLen = UInt64.ofNat (w.accepted id).flatten.length := by
      rw [← h.total, UInt64.ofNat_toNat]
    rw [accepted, chunks, offset]
    exact h.spans.snoc h.counted chunk
  total := by rw [accepted, len, h.total, flatten_concat, length_append]
  content := by
    have content := h.content
    rw [staged, getD_some] at content
    rw [accepted, staging, staged, getD_some, len, ← take_append_slice (Nat.le_add_right _ chunk.length), content,
      written, flatten_concat]

theorem Durable.putChunkAndProgress {index : UInt32} {span : ChunkSpan} {next : UploadProgress}
    (safe : Safe serverName isSealed w (.putChunkAndProgress mxc index span id next chunk)) :
    Durable serverName isSealed (w.apply (.putChunkAndProgress mxc index span id next chunk)) := by
  obtain ⟨upload, p, file, decl, advanced, staged, written, nonempty, k, rfl, rfl, rfl, n, len⟩ := safe
  have mine := durable.live id upload p decl advanced
  refine ⟨?_, ?_, ?_⟩
  · intro o
    simp only [World.apply, apply, find_put]
    split
    next eq =>
      simp [eq, decl]
    · exact durable.paired o
  · intro o got row declaredOther advancedOther
    simp only [World.apply, apply, find_put] at declaredOther advancedOther
    by_cases eq : o = id
    · subst eq
      rw [if_pos rfl, some.injEq] at advancedOther
      obtain rfl : upload = got := some.inj (decl.symm.trans declaredOther)
      subst advancedOther
      exact mine.advance nonempty k staged written n len rfl rfl rfl rfl (update_self ..)
    · rw [if_neg eq] at advancedOther
      have h := durable.live o got row declaredOther advancedOther
      -- Spans are keyed by media, and uploads have different ones.
      have ne : upload.mxc ≠ got.mxc := by
        rw [mine.mxc, h.mxc]
        exact fun equal => eq (mxcOf_injective mine.fits h.fits equal).symm
      exact h.frame rfl rfl (update_of_ne eq ..) (h.spans.put_of_ne ne _ _) rfl
  · intro o mem
    have h := durable.closed o mem
    -- A sealed upload takes no chunk: its rows are gone.
    have ne : o ≠ id := by
      rintro rfl
      rw [h.ended] at decl
      cases decl
    have apart : upload.mxc ≠ mxcOf serverName o := by
      rw [mine.mxc]
      exact fun equal => ne (mxcOf_injective mine.fits h.fits equal).symm
    exact h.frame h.ended rfl rfl (update_of_ne ne ..) rfl (h.spans.put_of_ne apart _ _) rfl

theorem Durable.putProgress {next : UploadProgress} (safe : Safe serverName isSealed w (.putProgress id next)) :
    Durable serverName isSealed (w.apply (.putProgress id next)) := by
  obtain ⟨p, advanced, n, len⟩ := safe
  refine ⟨?_, ?_, fun o mem => { durable.closed o mem with }⟩
  · intro o
    simp only [World.apply, apply, find_put]
    split
    next eq =>
      simp [eq, durable.paired, advanced]
    · exact durable.paired o
  · intro o upload row decl advancedOther
    simp only [World.apply, apply, find_put] at advancedOther
    by_cases eq : o = id
    · subst eq
      rw [if_pos rfl, some.injEq] at advancedOther
      subst advancedOther
      have h := durable.live o upload p decl advanced
      exact { h with
        counted := n ▸ h.counted
        total := len ▸ h.total
        content := len ▸ h.content }
    · rw [if_neg eq] at advancedOther
      exact { durable.live o upload row decl advancedOther with }

omit durable in
theorem OnlySealed.put {files : Store Bytes Unit} (only : OnlySealed files mxc) (o : MxcUri) :
    OnlySealed (files.put (fileKey o) ()) mxc := by
  intro row mem pre
  rcases mem_put.mp mem with rfl | ⟨old, _⟩
  · exact (filePrefixKey_begins.mp pre) ▸ rfl
  · exact only row old pre

theorem Durable.createFileMetadata (mxc : MxcUri) : Durable serverName isSealed (w.apply (.createFileMetadata mxc)) where
  paired := durable.paired
  live o upload p decl advanced :=
    have holds := durable.live o upload p decl advanced
    { holds with onlySealed := holds.onlySealed.put mxc }
  closed o mem :=
    have holds := durable.closed o mem
    { holds with
      onlySealed := holds.onlySealed.put mxc
      file := by
        simp only [World.apply, apply, find_put]
        split
        · rfl
        · exact holds.file }

theorem Durable.storeObject {k : Bytes} (safe : Safe serverName isSealed w (.storeObject k content)) :
    Durable serverName isSealed (w.apply (.storeObject k content)) where
  paired := durable.paired
  live o upload p decl advanced := { durable.live o upload p decl advanced with }
  closed o mem :=
    have holds := durable.closed o mem
    { holds with object := (update_of_ne (safe o mem).symm ..).trans holds.object }

theorem Durable.putChunkedMedia {chunked : ChunkedMedia}
    (safe : Safe serverName isSealed w (.putChunkedMedia mxc chunked)) :
    Durable serverName isSealed (w.apply (.putChunkedMedia mxc chunked)) where
  paired := durable.paired
  live o upload p decl advanced := { durable.live o upload p decl advanced with }
  closed o mem := by
    have holds := durable.closed o mem
    obtain ⟨shape, got, count⟩ := holds.shape
    have ne : mxcKey (mxcOf serverName o) ≠ mxcKey mxc := fun eq =>
      safe o mem (utf8_injective eq).symm
    exact { holds with shape := ⟨shape, (find_put_of_ne _ _ ne).trans got, count⟩ }

theorem Durable.delUpload (id : UploadId) : Durable serverName isSealed (w.apply (.delUpload id)) where
  paired o := by
    simp only [World.apply, apply, find_del]
    split
    · simp
    · exact durable.paired o
  live o upload p decl advanced := by
    simp only [World.apply, apply, find_del] at decl advanced
    split at decl
    · cases decl
    next ne =>
      rw [if_neg ne] at advanced
      exact { durable.live o upload p decl advanced with }
  closed o mem := by
    have holds := durable.closed o mem
    refine { holds with ended := ?_ }
    simp only [World.apply, apply, find_del, holds.ended, ite_self]

omit durable in
theorem SpansHold.deleteChunkRows {chunks : Store Bytes ChunkSpan} {o : MxcUri} {accepted : List Bytes}
    (spans : SpansHold chunks mxc accepted) (ne : o ≠ mxc) :
    SpansHold (((chunks.rowsBeginning (chunkPrefixKey o)).map Prod.fst).foldl Store.del chunks) mxc accepted := by
  intro pos mem
  rw [find_foldl_del_rowsBeginning, if_neg fun pre => ne (chunkPrefixKey_begins.mp pre)]
  exact spans pos mem

theorem Durable.deleteChunkRows (safe : Safe serverName isSealed w (.deleteChunkRows mxc)) :
    Durable serverName isSealed (w.apply (.deleteChunkRows mxc)) where
  paired := durable.paired
  live o upload p decl advanced := by
    have holds := durable.live o upload p decl advanced
    have ne : mxc ≠ upload.mxc := by
      rw [holds.mxc]
      exact safe o (.inl (by rw [show w.service.uploads.find o = some upload from decl]; simp))
    exact { holds with spans := holds.spans.deleteChunkRows ne }
  closed o mem := by
    have holds := durable.closed o mem
    have ne := safe o (.inr mem)
    obtain ⟨shape, got, count⟩ := holds.shape
    have apart : mxcKey (mxcOf serverName o) ≠ mxcKey mxc := fun eq => ne (utf8_injective eq).symm
    exact { holds with
      spans := holds.spans.deleteChunkRows ne
      shape := ⟨shape, (find_del_of_ne _ apart).trans got, count⟩ }

theorem Durable.removeStaging (safe : Safe serverName isSealed w (.removeStaging id)) :
    Durable serverName isSealed (w.apply (.removeStaging id)) where
  paired := durable.paired
  live o upload p decl advanced := by
    have h := durable.live o upload p decl advanced
    have ne : o ≠ id := by
      rintro rfl
      exact absurd (safe.symm.trans decl) (by simp)
    exact h.frame rfl rfl rfl h.spans (update_of_ne ne ..)
  closed o mem := { durable.closed o mem with }

theorem Durable.apply {effect : Effect} (safe : Safe serverName isSealed w effect) :
    Durable serverName isSealed (w.apply effect) := by
  cases effect with
  | createUpload => exact durable.createUpload safe
  | remember id hot => exact durable.remember id hot
  | forget id => exact durable.forget id
  | writeStaging => exact durable.writeStaging safe
  | putChunkAndProgress => exact durable.putChunkAndProgress safe
  | putProgress => exact durable.putProgress safe
  | createFileMetadata mxc => exact durable.createFileMetadata mxc
  | storeObject => exact durable.storeObject safe
  | putChunkedMedia => exact durable.putChunkedMedia safe
  | delUpload id => exact durable.delUpload id
  | deleteChunkRows => exact durable.deleteChunkRows safe
  | removeStaging => exact durable.removeStaging safe

end Keeps

end Wbfuwunel.Media
