import Wbfuwunel.Media.UploadInvariant

/-! Every operation of the upload service makes only changes that the rows and files bear, and leaves every in-memory
copy equal to its rows.
-/

set_option autoImplicit false

namespace Wbfuwunel.Media

open Foundation Database List Function Option Store Outcome World UploadHot

/-! ## The memory -/

def MemoryHolds (service : Service) : Prop :=
  ∀ uploadId hot, service.hot uploadId = some hot → ∃ upload progress,
    service.uploads.find uploadId = some upload ∧ service.progress.find uploadId = some progress ∧ hot = .of upload progress

variable {service : Service} {uploadId : UploadId} {next : Service} {world : World} {effects : List Effect}

theorem MemoryHolds.update (memory : MemoryHolds service) (uploadId : UploadId)
    (others : ∀ o, o ≠ uploadId → next.hot o = service.hot o ∧
      next.uploads.find o = service.uploads.find o ∧ next.progress.find o = service.progress.find o)
    (mine : ∀ hot, next.hot uploadId = some hot → ∃ upload p, next.uploads.find uploadId = some upload ∧
      next.progress.find uploadId = some p ∧ hot = .of upload p) : MemoryHolds next := by
  intro o hot copied
  by_cases eq : o = uploadId
  · subst eq
    exact mine hot copied
  · obtain ⟨sameHot, sameUpload, sameProgress⟩ := others o eq
    rw [sameUpload, sameProgress]
    exact memory o hot (sameHot ▸ copied)

theorem MemoryHolds.remember (memory : MemoryHolds service) {upload : Upload} {p : UploadProgress}
    (decl : next.uploads.find uploadId = some upload) (advanced : next.progress.find uploadId = some p)
    (uploads : ∀ o, o ≠ uploadId → next.uploads.find o = service.uploads.find o)
    (progresses : ∀ o, o ≠ uploadId → next.progress.find o = service.progress.find o)
    (hot : next.hot = Function.update service.hot uploadId (some (.of upload p))) : MemoryHolds next := by
  refine memory.update uploadId ?_ ?_
  · intro o ne
    rw [hot, update_of_ne ne]
    exact ⟨rfl, uploads o ne, progresses o ne⟩
  · intro copy copied
    rw [hot, update_self, some.injEq] at copied
    exact ⟨upload, p, decl, advanced, copied.symm⟩

def World.withHot (world : World) (hot : UploadId → Option UploadHot) : World :=
  { world with service := { world.service with hot } }

def Loads (service : Service) (uploadId : UploadId) (effects : List Effect) : Prop :=
  effects = [] ∨ ∃ upload progress, service.uploads.find uploadId = some upload ∧
    service.progress.find uploadId = some progress ∧ effects = [.remember uploadId (.of upload progress)]

theorem Loads.withHot (loads : Loads world.service uploadId effects) (memory : MemoryHolds world.service) :
    ∃ hot, run apply world effects = world.withHot hot ∧ MemoryHolds (world.withHot hot).service := by
  rcases loads with rfl | ⟨upload, p, decl, advanced, rfl⟩
  · exact ⟨world.service.hot, rfl, memory⟩
  · exact ⟨_, rfl, memory.remember decl advanced (fun _ _ => rfl) (fun _ _ => rfl) rfl⟩

theorem Loads.safe {serverName : String} {isSealed : UploadId → Bool} (loads : Loads world.service uploadId effects) :
    Admits apply (Safe serverName isSealed) world effects := by
  rcases loads with rfl | ⟨_, _, _, _, rfl⟩
  · trivial
  · exact ⟨trivial, trivial⟩

theorem ownedUpload_spec (memory : MemoryHolds service) (u : UserId) (uploadId : UploadId) :
    ∃ effects, Loads service uploadId effects ∧ ((∃ error, ownedUpload service u uploadId = ⟨effects, .error error⟩) ∨
        ∃ upload p, service.uploads.find uploadId = some upload ∧
          service.progress.find uploadId = some p ∧ upload.owner = u ∧
          ownedUpload service u uploadId = ⟨effects, .ok (.of upload p)⟩) := by
  unfold ownedUpload hotUpload
  cases copied : service.hot uploadId with
  | some hot =>
    obtain ⟨upload, p, decl, advanced, rfl⟩ := memory uploadId hot copied
    refine ⟨[], .inl rfl, ?_⟩
    by_cases owner : upload.owner = u
    · exact .inr ⟨upload, p, decl, advanced, owner, by simp [andThen, of, owner]⟩
    · exact .inl ⟨.notFound, by simp [andThen, of, owner, refuse]⟩
  | none =>
    cases decl : service.uploads.find uploadId with
    | none => exact ⟨[], .inl rfl, .inl ⟨.notFound, rfl⟩⟩
    | some upload =>
      cases advanced : service.progress.find uploadId with
      | none => exact ⟨[], .inl rfl, .inl ⟨.notFound, rfl⟩⟩
      | some p =>
        refine ⟨[.remember uploadId (.of upload p)], .inr ⟨upload, p, decl, advanced, rfl⟩, ?_⟩
        by_cases owner : upload.owner = u
        · exact .inr ⟨upload, p, rfl, rfl, owner, by simp [andThen, of, owner]⟩
        · exact .inl ⟨.notFound, by simp [andThen, of, owner, refuse]⟩

/-! ## Every operation's changes are safe -/

section Operations

variable {config : Config} {serverName : String} {isSealed : UploadId → Bool} {world : World}

structure Kept (serverName : String) (isSealed : UploadId → Bool) (world : World) (effects : List Effect) : Prop where
  safe : Admits apply (Safe serverName isSealed) world effects
  memory : MemoryHolds (run apply world effects).service

variable {u : UserId} {uploadId : UploadId} {service : Service} {upload : Upload} {p : UploadProgress} {α : Type}

theorem Kept.owned {next : UploadHot → Outcome α} (memory : MemoryHolds world.service)
    (continues : ∀ upload p hot, world.service.uploads.find uploadId = some upload →
      world.service.progress.find uploadId = some p → MemoryHolds (world.withHot hot).service →
      Kept serverName isSealed (world.withHot hot) (next (.of upload p)).effects) :
    Kept serverName isSealed world ((ownedUpload world.service u uploadId).andThen next).effects := by
  obtain ⟨effects, loads, outcome⟩ := ownedUpload_spec memory u uploadId
  obtain ⟨hot, loaded, copied⟩ := loads.withHot memory
  rcases outcome with ⟨error, refused⟩ | ⟨upload, p, decl, advanced, _, got⟩
  · rw [refused]
    exact ⟨loads.safe, loaded ▸ copied⟩
  · rw [got]
    have rest := continues upload p hot decl advanced copied
    refine ⟨admits_append.mpr ⟨loads.safe, loaded ▸ rest.safe⟩, ?_⟩
    rw [show (andThen ⟨effects, .ok (.of upload p)⟩ next).effects =
      effects ++ (next (.of upload p)).effects from rfl, run_append, loaded]
    exact rest.memory

theorem Kept.nothing (memory : MemoryHolds world.service) : Kept serverName isSealed world [] := ⟨trivial, memory⟩

theorem Kept.check {refused : Prop} [Decidable refused] {error : UploadError} {next : Outcome α}
    (memory : MemoryHolds world.service) (rest : Kept serverName isSealed world next.effects) :
    Kept serverName isSealed world (if refused then .refuse error else next).effects := by
  split
  · exact .nothing memory
  · exact rest

theorem isUploadIdFree_spec {mxc : MxcUri} (free : isUploadIdFree service uploadId mxc) :
    service.tombstones.find (mxcKey mxc) = none ∧ ∀ row ∈ service.files.rows, ¬filePrefixKey mxc <+: row.1 := by
  unfold isUploadIdFree at free
  split at free
  · cases free
  split at free
  · cases free
  rename_i hit
  refine ⟨by simpa [Store.contains] using hit, fun row mem pre => ?_⟩
  have ls := (service.files.mem_rowsBeginning).mpr ⟨mem, pre⟩
  rw [searchFileMetadata, if_neg hit] at free
  cases rows : service.files.rowsBeginning (filePrefixKey mxc) with
  | nil => rw [rows] at ls; cases ls
  | cons a rest => rw [rows] at free; cases free

theorem mintUploadId_spec {draws : List (Fin (16 ^ 14))} (minted : mintUploadId serverName service draws = some uploadId) :
    uploadId.toNat < 16 ^ 14 ∧ isUploadIdFree service uploadId (mxcOf serverName uploadId) := by
  have got := find?_some minted
  obtain ⟨draw, _, rfl⟩ := mem_map.mp (mem_of_find?_eq_some minted)
  have lt := draw.isLt
  refine ⟨?_, (by simpa using got : _ ∧ _).2⟩
  rw [UInt64.toNat_ofNat', Nat.mod_eq_of_lt (by omega)]
  exact lt

theorem uploadCreate_kept (memory : MemoryHolds world.service) (u : UserId) (req : UploadRequest) (pending : Nat)
    (draws : List (Fin (16 ^ 14))) (now : UInt64) : Kept serverName isSealed world
      (uploadCreate config serverName world.service u req pending draws now).effects := by
  -- Nothing is changed before the last check has passed.
  unfold uploadCreate
  split
  · exact .nothing memory
  refine .check memory ?_
  cases minted : mintUploadId serverName world.service draws with
  | none => exact .nothing memory
  | some uploadId =>
    obtain ⟨fits, free⟩ := mintUploadId_spec minted
    obtain ⟨hit, noFile⟩ := isUploadIdFree_spec free
    refine ⟨⟨⟨fits, rfl, hit, noFile, rfl, rfl⟩, trivial, trivial⟩, ?_⟩
    exact memory.remember (find_put_self ..) (find_put_self ..)
      (fun _ ne => find_put_of_ne _ _ ne) (fun _ ne => find_put_of_ne _ _ ne) rfl

theorem flatten_length_le {n : Nat} {chunks : List Bytes} (all : ∀ chunk ∈ chunks, chunk.length ≤ n) :
    chunks.flatten.length ≤ chunks.length * n := by
  induction chunks with
  | nil => simp
  | cons chunk chunks ih =>
    have a := all chunk mem_cons_self
    have rest := ih fun o mem => all o (mem_cons_of_mem _ mem)
    rw [flatten_cons, length_append, length_cons, Nat.succ_mul]
    omega

/-- Fewer than `2 ^ 32 - 1` chunks of fewer than `2 ^ 32` bytes each leave room for one more in the byte count. -/
theorem LiveHolds.total_lt (h : LiveHolds serverName world uploadId upload p)
    (lt : p.receivedCount.toNat < 2 ^ 32 - 1) : p.totalLen.toNat + 2 ^ 32 ≤ 2 ^ 64 := by
  have bytes := flatten_length_le fun chunk mem => Nat.le_sub_one_of_lt (h.sized chunk mem).2
  rw [← h.total, ← h.counted] at bytes
  have most : p.receivedCount.toNat * (2 ^ 32 - 1) ≤ (2 ^ 32 - 2) * (2 ^ 32 - 1) :=
    Nat.mul_le_mul_right _ (by omega)
  omega

section

variable (durable : Durable serverName isSealed world) (memory : MemoryHolds world.service)
include durable

include memory in
theorem acceptChunk_kept (decl : world.service.uploads.find uploadId = some upload)
    (advanced : world.service.progress.find uploadId = some p) (few : p.receivedCount.toNat < 2 ^ 32 - 1)
    (chunk : Bytes) (ends : Bool) (written : Option Nat) (now : UInt64) :
    Kept serverName isSealed world (acceptChunk config uploadId (.of upload p) p.receivedCount chunk ends
      written now).effects := by
  have h := durable.live uploadId upload p decl advanced
  unfold acceptChunk
  by_cases empty : chunk.isEmpty
  · rw [if_pos empty]
    exact .nothing memory
  rw [if_neg empty]
  refine .check memory ?_
  by_cases k : chunk.length ≥ 2 ^ 32
  · rw [if_pos k]
    exact .nothing memory
  rw [if_neg k]
  split
  · -- Over the limit: the progress row is closed and nothing else moves.
    refine ⟨⟨⟨p, advanced, rfl, rfl⟩, trivial, trivial⟩, ?_⟩
    exact memory.remember decl (find_put_self ..) (fun _ _ => rfl) (fun _ ne => find_put_of_ne _ _ ne) rfl
  · cases written with
    | some n =>
      -- The write failed half way: what it left lies behind the counted bytes.
      refine ⟨⟨fun row got => ?_, trivial⟩, memory⟩
      rw [some.inj (got.symm.trans advanced)]
      exact le_rfl
    | none =>
      have lt : (UInt32.ofNat chunk.length).toUInt64.toNat = chunk.length := by
        rw [UInt32.toNat_toUInt64, UInt32.toNat_ofNat', Nat.mod_eq_of_lt (by omega)]
      -- Neither sum saturates, so the next row counts this chunk.
      have total := h.total_lt few
      refine ⟨⟨fun row got => ?_, ⟨upload, p, _, decl, advanced, update_self .., ?_, ?_, by omega, rfl,
        rfl, rfl, ?_, ?_⟩, trivial, trivial⟩, ?_⟩
      · rw [some.inj (got.symm.trans advanced)]
        exact le_rfl
      · exact slice_writeAt h.reaches
      · exact fun nil => empty (by rw [nil]; rfl)
      · rw [saturatingAdd32_toNat]
        exact min_eq_left (by simp; omega)
      · rw [saturatingAdd64_toNat, lt]
        exact min_eq_left (by simp only [of]; omega)
      · exact memory.remember decl (find_put_self ..) (fun _ _ => rfl) (fun _ ne => find_put_of_ne _ _ ne) rfl

theorem Durable.withHot (hot : UploadId → Option UploadHot) : Durable serverName isSealed (world.withHot hot) where
  paired := durable.paired
  live uploadId upload p decl advanced := { durable.live uploadId upload p decl advanced with }
  closed uploadId mem := { durable.closed uploadId mem with }

include memory in
theorem uploadChunk_kept (all : ∀ p, world.service.progress.find uploadId = some p →
      p.receivedCount.toNat < 2 ^ 32 - 1 ∨ p.finished) (u : UserId) (i : UInt32)
    (chunk : Bytes) (isLast : Bool) (written : Option Nat) (now : UInt64) : Kept serverName isSealed world
      (uploadChunk config world.service u uploadId i chunk isLast written now).effects := by
  refine Kept.owned memory fun upload p hot decl advanced copied => ?_
  dsimp only
  split
  · exact .nothing copied
  rename_i notBefore
  split
  · exact .nothing copied
  rename_i notAfter
  split
  · exact .nothing copied
  rename_i unfinished
  split
  · exact .nothing copied
  -- Neither a resend nor ahead: it is the chunk that is due.
  obtain rfl : i = p.receivedCount := UInt32.le_antisymm (UInt32.not_lt.mp notAfter) (UInt32.not_lt.mp notBefore)
  have few := (all p advanced).resolve_right unfinished
  exact acceptChunk_kept (durable.withHot hot) copied decl advanced few chunk _ written now

omit durable in
include memory in
theorem uploadStatus_kept (u : UserId) (uploadId : UploadId) :
    Kept serverName isSealed world (uploadStatus world.service u uploadId).effects :=
  Kept.owned memory fun _ _ _ _ _ copied => .nothing copied

theorem Durable.advanced (decl : world.service.uploads.find uploadId = some upload) :
    ∃ p, world.service.progress.find uploadId = some p := by
  refine ne_none_iff_exists'.mp fun none => ?_
  rw [(durable.paired uploadId).mpr none] at decl
  cases decl

theorem Durable.mxc_ne_sealed {o : UploadId} (decl : world.service.uploads.find uploadId = some upload)
    (mem : isSealed o) : upload.mxc ≠ mxcOf serverName o := by
  have closed := durable.closed o mem
  obtain ⟨p, advanced⟩ := durable.advanced decl
  have live := durable.live uploadId upload p decl advanced
  rw [live.mxc]
  intro eq
  rw [mxcOf_injective live.fits closed.fits eq, closed.ended] at decl
  cases decl

omit durable in
theorem MemoryHolds.drop {next : Service} (memory : MemoryHolds service)
    (uploads : next.uploads = service.uploads.del uploadId) (eq : next.progress = service.progress.del uploadId)
    (hot : next.hot = Function.update service.hot uploadId none) : MemoryHolds next := by
  refine memory.update uploadId ?_ ?_
  · intro o ne
    rw [uploads, eq, hot]
    exact ⟨update_of_ne ne .., find_del_of_ne _ ne, find_del_of_ne _ ne⟩
  · intro copy copied
    rw [hot, update_self] at copied
    cases copied

include memory

theorem discardUpload_kept (decl : world.service.uploads.find uploadId = some upload)
    (advanced : world.service.progress.find uploadId = some p) (removes : Bool) :
    Kept serverName isSealed world (discardUpload uploadId upload.mxc removes) := by
  have mine := durable.live uploadId upload p decl advanced
  have apart : ∀ o, (world.service.uploads.del uploadId).find o ≠ none ∨ isSealed o →
      upload.mxc ≠ mxcOf serverName o := by
    rintro o (hit | mem)
    · have ne : o ≠ uploadId := by
        rintro rfl
        exact hit (find_del_self ..)
      rw [find_del_of_ne _ ne] at hit
      obtain ⟨got, declaredOther⟩ := ne_none_iff_exists'.mp hit
      obtain ⟨row, advancedOther⟩ := durable.advanced declaredOther
      have h := durable.live o got row declaredOther advancedOther
      rw [mine.mxc]
      exact fun eq => ne (mxcOf_injective mine.fits h.fits eq).symm
    · exact durable.mxc_ne_sealed decl mem
  cases removes with
  | false => exact ⟨⟨trivial, trivial, apart, trivial⟩, memory.drop rfl rfl rfl⟩
  | true => exact ⟨⟨trivial, trivial, apart, find_del_self .., trivial⟩, memory.drop rfl rfl rfl⟩

theorem uploadAbort_kept (u : UserId) (uploadId : UploadId) (removes : Bool) :
    Kept serverName isSealed world (uploadAbort world.service u uploadId removes).effects :=
  Kept.owned memory fun _ _ hot decl advanced copied =>
    discardUpload_kept (durable.withHot hot) copied decl advanced removes

theorem uploadSeal_kept (u : UserId) (uploadId : UploadId) (d : Option Bytes) (stores removes : Bool) :
    Kept serverName isSealed world (uploadSeal config world.service u uploadId d stores removes).effects := by
  refine Kept.owned memory fun upload p hot decl advanced copied => ?_
  refine .check copied (.check copied ?_)
  rw [decl]
  refine .check copied ?_
  have noSealed : ∀ o, isSealed o → upload.mxc ≠ mxcOf serverName o := fun _ mem =>
    durable.mxc_ne_sealed decl mem
  have noObject : ∀ o, isSealed o → fileKey upload.mxc ≠ fileKey (mxcOf serverName o) := fun o mem eq =>
    noSealed o mem (fileKey_inj.mp eq)
  split
  · cases removes with
    | false => exact ⟨⟨trivial, noObject, noSealed, trivial, trivial, trivial⟩, copied.drop rfl rfl rfl⟩
    | true =>
      exact ⟨⟨trivial, noObject, noSealed, trivial, trivial, find_del_self .., trivial⟩, copied.drop rfl rfl rfl⟩
  · exact ⟨⟨trivial, trivial⟩, copied⟩

variable {d : Option Bytes} {stores removes : Bool}

omit durable in
theorem uploadSeal_ok (ok : (uploadSeal config world.service u uploadId d stores removes).answer.toBool) :
    ∃ effects upload p file chunked, Loads world.service uploadId effects ∧
      world.service.uploads.find uploadId = some upload ∧ world.service.progress.find uploadId = some p ∧
      world.service.staging uploadId = some file ∧ chunked.chunkCount = p.receivedCount ∧
      (uploadSeal config world.service u uploadId d stores removes).effects = effects ++
        ([.createFileMetadata upload.mxc, .storeObject (fileKey upload.mxc) (file.take p.totalLen.toNat),
          .putChunkedMedia upload.mxc chunked, .delUpload uploadId, .forget uploadId] ++
          if removes then [.removeStaging uploadId] else []) := by
  unfold uploadSeal at ok ⊢
  obtain ⟨effects, loads, ⟨error, refused⟩ | ⟨upload, p, decl, advanced, _, answered⟩⟩ :=
    ownedUpload_spec memory u uploadId
  · rw [refused] at ok
    cases ok
  · rw [answered] at ok ⊢
    simp only [andThen, decl] at ok ⊢
    split at ok
    · cases ok
    rename_i finished
    split at ok
    · cases ok
    rename_i got
    split at ok
    · cases ok
    rename_i lt
    split at ok
    next file staged =>
      rw [if_neg finished, if_neg got, if_neg lt]
      exact ⟨effects, upload, p, file, _, loads, rfl, advanced, staged, rfl, rfl⟩
    · cases ok

theorem uploadSeal_sealed (ok : (uploadSeal config world.service u uploadId d stores removes).answer.toBool) :
    SealedHolds serverName (run apply world
      (uploadSeal config world.service u uploadId d stores removes).effects) uploadId := by
  obtain ⟨effects, upload, p, file, chunked, loads, decl, advanced, staged, n, changes⟩ :=
    uploadSeal_ok memory ok
  obtain ⟨hot, loaded, _⟩ := loads.withHot memory
  have h := durable.live uploadId upload p decl advanced
  have c := h.content
  rw [staged, getD_some] at c
  rw [changes, run_append, loaded, c, h.mxc]
  have result : SealedHolds serverName (run apply (world.withHot hot) [.createFileMetadata (mxcOf serverName uploadId),
        .storeObject (fileKey (mxcOf serverName uploadId)) (world.accepted uploadId).flatten,
        .putChunkedMedia (mxcOf serverName uploadId) chunked, .delUpload uploadId, .forget uploadId]) uploadId := {
    fits := h.fits
    ended := find_del_self ..
    present := h.mxc ▸ h.present
    onlySealed := (h.mxc ▸ h.onlySealed).put _
    file := find_put_self ..
    few := h.counted ▸ p.receivedCount.toNat_lt
    sized := h.sized
    shape := ⟨chunked, find_put_self .., n ▸ h.counted⟩
    spans := h.mxc ▸ h.spans
    object := update_self .. }
  cases removes with
  | false => exact result
  | true => exact { result with }

end

/-! ## The sweep -/

theorem Kept.append {a b : List Effect} (old : Kept serverName isSealed world a)
    (after : Kept serverName isSealed (run apply world a) b) :
    Kept serverName isSealed world (a ++ b) :=
  ⟨admits_append.mpr ⟨old.safe, after.safe⟩, by rw [run_append]; exact after.memory⟩

theorem Kept.durable {effects : List Effect} (kept : Kept serverName isSealed world effects)
    (ok : Durable serverName isSealed world) : Along apply (Durable serverName isSealed) world effects :=
  along_of_keeps (fun _ _ h safe => h.apply safe) ok kept.safe

variable (ok : Durable serverName isSealed world) (memory : MemoryHolds world.service)
include memory

theorem removeStaging_kept {orphans : List UploadId}
    (absent : ∀ uploadId ∈ orphans, world.service.uploads.find uploadId = none) :
    Kept serverName isSealed world (orphans.map .removeStaging) := by
  induction orphans generalizing world with
  | nil => exact .nothing memory
  | cons uploadId orphans ih =>
    have rest := @ih (world.apply (.removeStaging uploadId)) memory fun o mem =>
      absent o (mem_cons_of_mem _ mem)
    exact ⟨⟨absent uploadId mem_cons_self, rest.safe⟩, rest.memory⟩

include ok

theorem sweepUpload_kept (config : Config) (now : UInt64) (removes : UploadId → Bool) (uploadId : UploadId) :
    Kept serverName isSealed world (sweepUpload config world.service now removes uploadId) := by
  unfold sweepUpload
  split
  · exact .nothing memory
  · cases decl : world.service.uploads.find uploadId with
    | none => exact ⟨⟨trivial, trivial, trivial⟩, memory.drop rfl rfl rfl⟩
    | some upload =>
      obtain ⟨p, advanced⟩ := ok.advanced decl
      exact discardUpload_kept ok memory decl advanced (removes uploadId)

theorem sweepCandidates_kept (config : Config) (now : UInt64) (removes : UploadId → Bool) (candidates : List UploadId) :
    Kept serverName isSealed world (sweepCandidates config now removes world.service candidates) := by
  induction candidates generalizing world with
  | nil => exact .nothing memory
  | cons uploadId rest ih =>
    have a := sweepUpload_kept ok memory config now removes uploadId
    refine a.append ?_
    -- The rest is judged from the state the first candidate left.
    rw [← run_service]
    exact ih (a.durable ok).last a.memory

theorem sweepUploads_kept (now : UInt64) (removes : UploadId → Bool) (entries : List UploadId) :
    Kept serverName isSealed world (sweepUploads config world.service now removes entries) := by
  have a := sweepCandidates_kept ok memory config now removes
    ((world.service.progress.rows.filter fun row => isExpired config row.2 now).map Prod.fst)
  refine a.append (removeStaging_kept a.memory ?_)
  intro uploadId mem
  rw [run_service]
  have sel := (mem_filter.mp mem).2
  simp only [Store.contains, Bool.and_eq_true, Bool.not_eq_true', isSome_eq_false_iff, isNone_iff_eq_none] at sel
  exact sel.1

end Operations

end Wbfuwunel.Media
