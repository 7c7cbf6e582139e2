import Wbfuwunel.Media.UploadRuns

/-! A seal that dies after it has written the chunked-media row, and what later operations do to the media.

The seal writes its rows one after the other and deletes those of the upload last. A crash in between leaves both: the
media is sealed, and the upload is still one in progress to whoever looks at its rows.
-/

set_option autoImplicit false

namespace Wbfuwunel.Media

open Foundation Database List Store World

def Spanned (chunks : Store Bytes ChunkSpan) (mxc : MxcUri) (count : UInt32) : Prop :=
  ∀ index : UInt32, index < count → (chunks.find (chunkKey mxc index)).isSome

def WholeOrGone (mxc : MxcUri) (service : Service) : Prop :=
  (service.files.find (fileKey mxc) = some () ∧ ∃ chunked, service.chunked.find (mxcKey mxc) = some chunked ∧
    Spanned service.chunks mxc chunked.chunkCount) ∨ service.files.find (fileKey mxc) = none

/-- Uploads in progress as the service keeps them: each has a media id of its own and a span for every chunk received,
and the memory is a copy of the rows. -/
structure WellKept (service : Service) : Prop where
  memory : MemoryHolds service
  own : ∀ first second upload other, service.uploads.find first = some upload → service.uploads.find second = some other →
    upload.mxc = other.mxc → first = second
  spanned : ∀ uploadId upload progress, service.uploads.find uploadId = some upload →
    service.progress.find uploadId = some progress → Spanned service.chunks upload.mxc progress.receivedCount

variable {serverName : String} {config : Config} {mxc : MxcUri} {uploadId : UploadId} {state : State} {world : World}

theorem Holds.wellKept (h : Holds serverName state) : WellKept state.world.service where
  memory := h.memory
  own a b upload o decl decl' eq := by
    obtain ⟨p, advanced⟩ := h.durable.advanced decl
    obtain ⟨p', advanced'⟩ := h.durable.advanced decl'
    have live := h.durable.live a upload p decl advanced
    have live' := h.durable.live b o p' decl' advanced'
    exact mxcOf_injective live.fits live'.fits (live.mxc ▸ live'.mxc ▸ eq)
  spanned uploadId upload p decl advanced i lt := by
    have live := h.durable.live uploadId upload p decl advanced
    have mem : i.toNat < (state.world.accepted uploadId).length := by
      rw [← live.counted]
      exact UInt32.lt_iff_toNat_lt.mp lt
    have span := live.spans i.toNat mem
    rw [UInt32.ofNat_toNat] at span
    rw [span]
    rfl

/-! ## Changes that leave sealed media whole -/

section Changes

variable (mxc : MxcUri) (uploadId : UploadId)

structure Stands (world : World) : Prop where
  file : world.service.files.find (fileKey mxc) = some ()
  shape : ∃ chunked, world.service.chunked.find (mxcKey mxc) = some chunked ∧
    Spanned world.service.chunks mxc chunked.chunkCount
  own : ∀ other upload, world.service.uploads.find other = some upload → (upload.mxc = mxc ↔ other = uploadId)
  received : ∀ progress, world.service.progress.find uploadId = some progress →
    Spanned world.service.chunks mxc progress.receivedCount

def Harmless (world : World) : Effect → Prop
  | .remember _ _ | .forget _ | .createFileMetadata _ | .storeObject _ _ | .delUpload _ | .removeStaging _ => True
  | .putChunkedMedia other chunked => other = mxc → Spanned world.service.chunks mxc chunked.chunkCount
  | .deleteChunkRows other => other ≠ mxc
  | .createUpload _ _ _ | .writeStaging _ _ _ | .putChunkAndProgress _ _ _ _ _ _ | .putProgress _ _ => False

variable {mxc uploadId} {world : World}

theorem Spanned.deleteChunkRows {chunks : Store Bytes ChunkSpan} {n : UInt32} (spanned : Spanned chunks mxc n)
    {o : MxcUri} (ne : o ≠ mxc) :
    Spanned (((chunks.rowsBeginning (chunkPrefixKey o)).map Prod.fst).foldl Store.del chunks) mxc n := by
  intro i lt
  rw [find_foldl_del_rowsBeginning, if_neg fun pre => ne (chunkPrefixKey_begins.mp pre)]
  exact spanned i lt

theorem Stands.apply (stands : Stands mxc uploadId world) {effect : Effect} (harmless : Harmless mxc world effect) :
    Stands mxc uploadId (world.apply effect) := by
  cases effect with
  | remember | forget | storeObject | removeStaging => exact { stands with }
  | createFileMetadata o =>
    refine { stands with file := ?_ }
    simp only [World.apply, Service.apply, find_put]
    split
    · rfl
    · exact stands.file
  | putChunkedMedia o chunked =>
    refine { stands with shape := ?_ }
    simp only [World.apply, Service.apply, find_put]
    by_cases eq : mxcKey mxc = mxcKey o
    · exact ⟨chunked, if_pos eq, harmless (utf8_injective eq).symm⟩
    · rw [if_neg eq]
      exact stands.shape
  | delUpload o =>
    refine { stands with own := ?_, received := ?_ }
    · intro id upload decl
      simp only [World.apply, Service.apply, find_del] at decl
      split at decl
      · cases decl
      · exact stands.own id upload decl
    · intro p advanced
      simp only [World.apply, Service.apply, find_del] at advanced
      split at advanced
      · cases advanced
      · exact stands.received p advanced
  | deleteChunkRows o =>
    obtain ⟨chunked, got, spanned⟩ := stands.shape
    have apart : mxcKey mxc ≠ mxcKey o := fun eq => harmless (utf8_injective eq).symm
    exact { stands with
      shape := ⟨chunked, (find_del_of_ne _ apart).trans got, spanned.deleteChunkRows harmless⟩
      received := fun p advanced => (stands.received p advanced).deleteChunkRows harmless }
  | createUpload | writeStaging | putChunkAndProgress | putProgress => exact harmless.elim

theorem Stands.withHot (stands : Stands mxc uploadId world) (hot : UploadId → Option UploadHot) :
    Stands mxc uploadId (world.withHot hot) := { stands with }

theorem Stands.wholeOrGone (stands : Stands mxc uploadId world) : WholeOrGone mxc world.service :=
  .inl ⟨stands.file, stands.shape⟩

structure Spared (mxc : MxcUri) (world : World) (effects : List Effect) : Prop where
  safe : Admits apply (Harmless mxc) world effects
  memory : MemoryHolds (run apply world effects).service

variable {effects : List Effect}

theorem Spared.stands (spared : Spared mxc world effects) (stands : Stands mxc uploadId world) :
    Along apply (Stands mxc uploadId) world effects :=
  along_of_keeps (fun _ _ stands harmless => stands.apply harmless) stands spared.safe

theorem Spared.append {a b : List Effect} (old : Spared mxc world a)
    (after : Spared mxc (run apply world a) b) : Spared mxc world (a ++ b) :=
  ⟨admits_append.mpr ⟨old.safe, after.safe⟩, by rw [run_append]; exact after.memory⟩

theorem Loads.spared {t : UploadId} (loads : Loads world.service t effects) (memory : MemoryHolds world.service) :
    Spared mxc world effects := by
  obtain ⟨hot, loaded, copied⟩ := loads.withHot memory
  refine ⟨?_, loaded ▸ copied⟩
  rcases loads with rfl | ⟨_, _, _, _, rfl⟩
  · trivial
  · exact ⟨trivial, trivial⟩

end Changes

/-! ## The operations -/

section Operations

variable {config : Config} {mxc : MxcUri} {uploadId t : UploadId} {world : World}

/-- What a seal writes before it drops the upload. -/
def sealing (mxc : MxcUri) (content : Bytes) (chunked : ChunkedMedia) : List Effect :=
  [.createFileMetadata mxc, .storeObject (fileKey mxc) content, .putChunkedMedia mxc chunked]

variable (memory : MemoryHolds world.service)
include memory

theorem uploadSeal_effects (config : Config) (u : UserId) (uploadId : UploadId)
    (d : Option Bytes) (stores removes : Bool) :
    ∃ effects, Loads world.service uploadId effects ∧
      ((uploadSeal config world.service u uploadId d stores removes).effects = effects ∨
        ∃ upload p, world.service.uploads.find uploadId = some upload ∧ world.service.progress.find uploadId = some p ∧
          ((uploadSeal config world.service u uploadId d stores removes).effects =
              effects ++ [.createFileMetadata upload.mxc] ∨
            ∃ c chunked, chunked.chunkCount = p.receivedCount ∧
              (uploadSeal config world.service u uploadId d stores removes).effects = effects ++
                (sealing upload.mxc c chunked ++ ([.delUpload uploadId, .forget uploadId] ++
                  if removes then [.removeStaging uploadId] else [])))) := by
  obtain ⟨effects, loads, ⟨error, refused⟩ | ⟨upload, p, decl, advanced, _, answered⟩⟩ :=
    ownedUpload_spec memory u uploadId
  · exact ⟨effects, loads, .inl (by rw [uploadSeal, refused]; rfl)⟩
  · refine ⟨effects, loads, ?_⟩
    rw [uploadSeal, answered]
    simp only [Outcome.andThen, decl]
    split
    · exact .inl (append_nil _)
    split
    · exact .inl (append_nil _)
    split
    · exact .inl (append_nil _)
    split
    · exact .inr ⟨upload, p, rfl, advanced, .inr ⟨_, _, rfl, rfl⟩⟩
    · exact .inr ⟨upload, p, rfl, advanced, .inl rfl⟩

theorem drop_spared (t : UploadId) (removes : Bool) :
    Spared mxc world ([.delUpload t, .forget t] ++ if removes then [.removeStaging t] else []) := by
  cases removes with
  | false => exact ⟨⟨trivial, trivial, trivial⟩, memory.drop rfl rfl rfl⟩
  | true => exact ⟨⟨trivial, trivial, trivial, trivial⟩, memory.drop rfl rfl rfl⟩

theorem discardUpload_spared {o : MxcUri} (ne : o ≠ mxc) (removes : Bool) :
    Spared mxc world (discardUpload t o removes) := by
  cases removes with
  | false => exact ⟨⟨trivial, trivial, ne, trivial⟩, memory.drop rfl rfl rfl⟩
  | true => exact ⟨⟨trivial, trivial, ne, trivial, trivial⟩, memory.drop rfl rfl rfl⟩

theorem removeStaging_spared (orphans : List UploadId) : Spared mxc world (orphans.map .removeStaging) := by
  induction orphans generalizing world with
  | nil => exact ⟨trivial, memory⟩
  | cons t orphans ih =>
    have rest := @ih (world.apply (.removeStaging t)) memory
    exact ⟨⟨trivial, rest.safe⟩, rest.memory⟩

variable (stands : Stands mxc uploadId world)
include stands

theorem uploadSeal_spared (u : UserId) (d : Option Bytes) (stores removes : Bool) :
    Spared mxc world (uploadSeal config world.service u uploadId d stores removes).effects := by
  obtain ⟨effects, loads, done⟩ := uploadSeal_effects memory config u uploadId d stores removes
  have a : Spared mxc world effects := loads.spared memory
  obtain ⟨hot, loaded, copied⟩ := loads.withHot memory
  rcases done with eq | ⟨upload, p, decl, advanced, eq | ⟨c, chunked, n, eq⟩⟩
  · exact eq ▸ a
  · rw [eq]
    refine a.append ⟨⟨trivial, trivial⟩, ?_⟩
    rw [loaded]
    exact copied
  · rw [eq]
    refine a.append ?_
    rw [loaded]
    -- The shape is written again from the same rows.
    have again : Spared mxc (world.withHot hot) (sealing upload.mxc c chunked) :=
      ⟨⟨trivial, trivial, fun _ => n ▸ stands.received p advanced, trivial⟩, copied⟩
    exact again.append (drop_spared again.memory uploadId removes)

theorem sweepUpload_spared (config : Config) (now : UInt64) (removes : UploadId → Bool)
    (ne : t ≠ uploadId) : Spared mxc world (sweepUpload config world.service now removes t) := by
  unfold sweepUpload
  split
  · exact ⟨trivial, memory⟩
  · cases decl : world.service.uploads.find t with
    | none => exact ⟨⟨trivial, trivial, trivial⟩, memory.drop rfl rfl rfl⟩
    | some upload =>
      exact discardUpload_spared memory (mt (stands.own t upload decl).mp ne) (removes t)

theorem sweepCandidates_spared (config : Config) (now : UInt64) (removes : UploadId → Bool) {candidates : List UploadId}
    (out : uploadId ∉ candidates) : Spared mxc world (sweepCandidates config now removes world.service candidates) := by
  induction candidates generalizing world with
  | nil => exact ⟨trivial, memory⟩
  | cons t rest ih =>
    rw [mem_cons, not_or] at out
    have a := sweepUpload_spared memory stands config now removes (Ne.symm out.1)
    refine a.append ?_
    rw [← run_service]
    exact ih a.memory (a.stands stands).last out.2

theorem sweepUploads_spared {now : UInt64} (active : ∀ p, world.service.progress.find uploadId = some p → isExpired config p now = false)
    (removes : UploadId → Bool) (entries : List UploadId) :
    Spared mxc world (sweepUploads config world.service now removes entries) := by
  have out : uploadId ∉ (world.service.progress.rows.filter fun row => isExpired config row.2 now).map Prod.fst := by
    intro mem
    obtain ⟨row, member, rfl⟩ := mem_map.mp mem
    obtain ⟨hit, expired⟩ := mem_filter.mp member
    rw [active row.2 (find_eq_some_iff.mpr hit)] at expired
    cases expired
  have a := sweepCandidates_spared memory stands config now removes out
  exact a.append (removeStaging_spared a.memory _)

end Operations

/-! ## Runs after the crash -/

def Op.Concerns (uploadId : UploadId) : Op → Prop
  | .status _ target | .finalize _ target _ _ _ | .abort _ target _ => target = uploadId
  | .sweep _ _ _ => True
  | .create _ _ _ _ _ | .chunk _ _ _ _ _ _ _ => False

def Op.Spares (config : Config) (uploadId : UploadId) (service : Service) : Op → Prop
  | .abort user _ _ => ∀ upload, service.uploads.find uploadId = some upload → upload.owner ≠ user
  | .sweep now _ _ => ∀ progress, service.progress.find uploadId = some progress → isExpired config progress now = false
  | _ => True

def Spares (config : Config) (uploadId : UploadId) (state : State) : Event → Prop
  | .finish op | .crash op _ => op.Concerns uploadId ∧ op.Spares config uploadId state.world.service
  | .restart => True

theorem Op.effects_spared (stands : Stands mxc uploadId world) (memory : MemoryHolds world.service) {op : Op}
    (concerns : op.Concerns uploadId) (spares : op.Spares config uploadId world.service) :
    Spared mxc world (op.effects config serverName world.service) := by
  cases op with
  | create | chunk => exact concerns.elim
  | status u t =>
    obtain ⟨effects, loads, ⟨error, refused⟩ | ⟨upload, p, _, _, _, answered⟩⟩ :=
      ownedUpload_spec memory u t
    · rw [Op.effects, uploadStatus, refused]
      exact loads.spared memory
    · rw [Op.effects, uploadStatus, answered]
      have a : Spared mxc world effects := loads.spared memory
      exact a.append ⟨trivial, a.memory⟩
  | finalize u t d stores removes =>
    cases concerns
    exact uploadSeal_spared memory stands u d stores removes
  | abort u t removes =>
    cases concerns
    obtain ⟨effects, loads, ⟨error, refused⟩ | ⟨upload, p, decl, _, owner, _⟩⟩ :=
      ownedUpload_spec memory u uploadId
    · rw [Op.effects, uploadAbort, refused]
      exact loads.spared memory
    · exact absurd owner (spares upload decl)
  | sweep now removes entries => exact sweepUploads_spared memory stands spares removes entries

structure Standing (mxc : MxcUri) (uploadId : UploadId) (state : State) : Prop where
  stands : Stands mxc uploadId state.world
  memory : MemoryHolds state.world.service

theorem Standing.step (standing : Standing mxc uploadId state) {e : Event}
    (spares : Spares config uploadId state e) : Standing mxc uploadId (step config serverName state e) := by
  cases e with
  | finish op =>
    have spared : Spared mxc state.world (op.effects config serverName state.world.service) :=
      Op.effects_spared standing.stands standing.memory spares.1 spares.2
    exact ⟨(spared.stands standing.stands).last, spared.memory⟩
  | crash op changes =>
    have spared : Spared mxc state.world (op.effects config serverName state.world.service) :=
      Op.effects_spared standing.stands standing.memory spares.1 spares.2
    exact ⟨((spared.stands standing.stands).take changes).withHot _, memoryHolds_cleared _⟩
  | restart => exact ⟨standing.stands.withHot _, memoryHolds_cleared _⟩

theorem WellKept.stands (kept : WellKept world.service) {upload : Upload} {p : UploadProgress}
    (decl : world.service.uploads.find uploadId = some upload)
    (advanced : world.service.progress.find uploadId = some p) (c : Bytes) {chunked : ChunkedMedia}
    (same : chunked.chunkCount = p.receivedCount) :
    Stands upload.mxc uploadId (run apply world (sealing upload.mxc c chunked)) where
  file := find_put_self ..
  shape := ⟨chunked, find_put_self .., same ▸ kept.spanned uploadId upload p decl advanced⟩
  own o row got := by
    constructor
    · exact fun eq => kept.own o uploadId row upload got decl eq
    · rintro rfl
      exact congrArg Upload.mxc (Option.some.inj (got.symm.trans decl))
  received row got := by
    cases advanced.symm.trans got
    exact kept.spanned uploadId upload p decl advanced

/-- The seal dies with the chunked-media row written. -/
theorem standing_of_crash {old : State} (kept : WellKept old.world.service) {u : UserId}
    {d : Option Bytes} {stores removes : Bool} {changes : Nat}
    (written : ∃ mxc chunked, Effect.putChunkedMedia mxc chunked ∈
      ((Op.finalize u uploadId d stores removes).effects config serverName old.world.service).take changes) :
    ∃ upload, old.world.service.uploads.find uploadId = some upload ∧ Standing upload.mxc uploadId
      (step config serverName old (.crash (.finalize u uploadId d stores removes) changes)) := by
  obtain ⟨o, shape, written⟩ := written
  obtain ⟨effects, loads, done⟩ := uploadSeal_effects kept.memory config u uploadId d stores removes
  obtain ⟨hot, loaded, copied⟩ := loads.withHot kept.memory
  have unwritten : Effect.putChunkedMedia o shape ∉ effects := by
    rcases loads with rfl | ⟨_, _, _, _, rfl⟩ <;> simp
  rw [Op.effects] at written
  rcases done with eq | ⟨upload, p, decl, advanced, eq | ⟨c, chunked, n, eq⟩⟩
  · rw [eq] at written
    exact absurd (mem_of_mem_take written) unwritten
  · rw [eq] at written
    have mem := mem_of_mem_take written
    simp [unwritten] at mem
  · refine ⟨upload, decl, ?_, memoryHolds_cleared _⟩
    rw [eq, take_append] at written
    simp only [step, Op.effects, eq]
    rw [take_append, take_append, run_append]
    -- The row is written by the third change behind the load, so all of the first ones are made.
    have hit : 3 ≤ changes - effects.length := by
      by_contra k
      rcases mem_append.mp written with mem | mem
      · exact unwritten (mem_of_mem_take mem)
      · have few : changes - effects.length = 0 ∨ changes - effects.length = 1 ∨ changes - effects.length = 2 := by omega
        rcases few with few | few | few <;> simp [few, sealing] at mem
    have opened : Stands upload.mxc uploadId (run apply (old.world.withHot hot) (sealing upload.mxc c chunked)) :=
      WellKept.stands ⟨copied, kept.own, kept.spanned⟩ decl advanced c n
    have memory : MemoryHolds (run apply (old.world.withHot hot) (sealing upload.mxc c chunked)).service := copied
    rw [take_of_length_le (show effects.length ≤ changes by omega), loaded,
      take_of_length_le (show (sealing upload.mxc c chunked).length ≤ changes - effects.length from hit)]
    exact (((drop_spared memory uploadId removes).stands opened).take _).withHot _

/-- A seal that died with the chunked-media row written leaves media that stays whole, as long as no abort and no sweep
takes the rows of the upload for one in progress. -/
theorem sealed_stays_whole (config : Config) (serverName : String) (before : State) (user : UserId) (uploadId : UploadId)
    (newDescription : Option Bytes) (stores removes : Bool) (changes : Nat) (events : List Event)
    (kept : WellKept before.world.service)
    (written : ∃ mxc chunked, Effect.putChunkedMedia mxc chunked ∈
      ((Op.finalize user uploadId newDescription stores removes).effects config serverName before.world.service).take changes)
    (spares : Admits (step config serverName) (Spares config uploadId)
      (step config serverName before (.crash (.finalize user uploadId newDescription stores removes) changes)) events) :
    ∃ upload, before.world.service.uploads.find uploadId = some upload ∧
      Along (step config serverName) (fun state => WholeOrGone upload.mxc state.world.service)
        (step config serverName before (.crash (.finalize user uploadId newDescription stores removes) changes)) events := by
  obtain ⟨upload, decl, standing⟩ := standing_of_crash kept written
  have along : Along (step config serverName) (Standing upload.mxc uploadId)
      (step config serverName before (.crash (.finalize user uploadId newDescription stores removes) changes)) events :=
    along_of_keeps (fun _ _ standing spares => standing.step spares) standing spares
  exact ⟨upload, decl, along.imp fun _ standing => standing.stands.wholeOrGone⟩

/-! ## A seal that died -/

def receivedStream : State :=
  run (step unlimited "s") emptyState [openStream, .finish (.chunk "@u:s" 1 0 [7] true none 0)]

theorem wellKept_receivedStream : WellKept receivedStream.world.service := by
  have fresh : Fresh emptyState := ⟨fun _ => rfl, fun _ => rfl, fun _ => rfl, fun _ => rfl⟩
  have countable : Admits (step unlimited "s") Countable emptyState
      [openStream, .finish (.chunk "@u:s" 1 0 [7] true none 0)] :=
    ⟨trivial, fun _ got => by cases got; exact .inl (by decide), trivial⟩
  have h : Along (step unlimited "s") (Holds "s") emptyState [openStream, .finish (.chunk "@u:s" 1 0 [7] true none 0)] :=
    along_of_keeps (fun _ _ h ok => h.step ok) fresh.holds countable
  exact h.last.wellKept

def diedSealing : Event := .crash (.finalize "@u:s" 1 none true true) 3

theorem sealed_stays_whole_retried : ∃ upload, receivedStream.world.service.uploads.find 1 = some upload ∧
      Along (step unlimited "s") (fun state => WholeOrGone upload.mxc state.world.service)
        (step unlimited "s" receivedStream diedSealing)
        [.finish (.status "@u:s" 1), .finish (.finalize "@u:s" 1 none true true), .finish (.abort "@u:s" 1 true)] :=
  sealed_stays_whole unlimited "s" receivedStream "@u:s" 1 none true true 3 _ wellKept_receivedStream
    ⟨_, _, mem_cons_of_mem _ (mem_cons_of_mem _ mem_cons_self)⟩
    ⟨⟨rfl, trivial⟩, ⟨rfl, trivial⟩, ⟨rfl, fun _ got => by cases got⟩, trivial⟩

theorem not_wholeOrGone {v : Service} (file : v.files.contains (fileKey mxc))
    (shape : v.chunked.contains (mxcKey mxc) = false) : ¬WholeOrGone mxc v := by
  rintro (⟨-, chunked, got, -⟩ | gone)
  · simp [Store.contains, got] at shape
  · simp [Store.contains, gone] at file

/-- An abort after the restart, and a sweep, leave the file row without its shape and its chunk. -/
theorem abort_cuts_sealed : WellKept receivedStream.world.service ∧ ¬WholeOrGone "mxc://s/00000000000001"
      (run (step unlimited "s") receivedStream [diedSealing, .finish (.abort "@u:s" 1 true)]).world.service ∧
    ¬WholeOrGone "mxc://s/00000000000001"
      (run (step unlimited "s") receivedStream [diedSealing, .finish (.sweep 1 (fun _ => true) [])]).world.service ∧
    (run (step unlimited "s") receivedStream [diedSealing, .finish (.abort "@u:s" 1 true)]).world.service.chunks.contains
      (chunkKey "mxc://s/00000000000001" 0) = false :=
  ⟨wellKept_receivedStream, not_wholeOrGone (by decide +kernel) (by decide +kernel),
    not_wholeOrGone (by decide +kernel) (by decide +kernel), by decide +kernel⟩

end Wbfuwunel.Media
