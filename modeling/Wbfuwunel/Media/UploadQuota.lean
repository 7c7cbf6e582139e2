import Wbfuwunel.Media.Upload

/-! `upload_create`, split where calls can overlap: a call counts what its user has pending, then draws ids until one is
free, then writes its row. Nothing is locked in between. -/

set_option autoImplicit false

namespace Wbfuwunel.Media

open Foundation Database Function Option

/-! ## Calls that overlap -/

structure Creating where
  user : UserId
  request : UploadRequest
  chunkSize : Nat
  /-- `count_uploads_for_user`, as the call found it. -/
  inProgress : Nat
  uploadId : Option UploadId

structure Uploading where
  service : Service
  /-- The pending media ids of each user; no call changes them. -/
  pending : UserId → Nat
  calls : Nat → Option Creating

inductive CreateEvent where
  /-- The checks and the count. -/
  | start (call : Nat) (user : UserId) (request : UploadRequest)
  /-- One turn of the loop that mints an id. -/
  | draw (call : Nat) (digits : Fin (16 ^ 14))
  /-- The row is written. -/
  | create (call : Nat) (now : UInt64)

namespace Uploading

variable (config : Config) (serverName : String) (state : Uploading)

def start (call : Nat) (user : UserId) (request : UploadRequest) : Uploading :=
  match checkUploadRequest config request with
  | .error _ => state
  | .ok (chunkSize, _) =>
    let inProgress := countUploadsForUser state.service user
    if isQuotaReached config (state.pending user) inProgress then state
    else { state with
      calls := update state.calls call (some { user, request, chunkSize, inProgress, uploadId := none }) }

def draw (call : Nat) (creating : Creating) (digits : Fin (16 ^ 14)) : Uploading :=
  let uploadId := UInt64.ofNat digits.val
  if uploadId ≠ 0 && isUploadIdFree state.service uploadId (mxcOf serverName uploadId) then
    { state with calls := update state.calls call (some { creating with uploadId := some uploadId }) }
  else state

def create (call : Nat) (creating : Creating) (uploadId : UploadId) (now : UInt64) : Uploading :=
  { state with
    service := (createEffects serverName creating.user creating.request creating.chunkSize uploadId now).foldl
      Service.apply state.service
    calls := update state.calls call none }

def step : CreateEvent → Uploading
  | .start call user request =>
    match state.calls call with
    | none => state.start config call user request
    | some _ => state
  | .draw call digits =>
    match state.calls call with
    | some creating => if creating.uploadId = none then state.draw serverName call creating digits else state
    | none => state
  | .create call now =>
    match state.calls call with
    | some creating =>
      match creating.uploadId with
      | some uploadId => state.create serverName call creating uploadId now
      | none => state
    | none => state

def promised (user : UserId) : Nat := state.pending user + countUploadsForUser state.service user

def CountStands : CreateEvent → Prop
  | .create call _ => ∀ creating, state.calls call = some creating →
      countUploadsForUser state.service creating.user ≤ creating.inProgress
  | _ => True

structure Roomy (user : UserId) (state : Uploading) : Prop where
  promised : state.promised user ≤ config.maxPendingMediaUploads
  passed : ∀ call creating, state.calls call = some creating → creating.user = user →
    state.pending user + creating.inProgress < config.maxPendingMediaUploads

variable {config} {serverName}

theorem room_of_not_isQuotaReached (lt : config.maxPendingMediaUploads < 2 ^ 64) {pending inProgress : Nat}
    (passed : isQuotaReached config pending inProgress = false) :
    pending + inProgress < config.maxPendingMediaUploads := by
  simp only [isQuotaReached, saturatingAddSize, ge_iff_le, decide_eq_false_iff_not] at passed
  omega

theorem count_createUpload_le (v : Service) (u : UserId) (id : UploadId) (upload : Upload) (p : UploadProgress) :
    countUploadsForUser (v.apply (.createUpload id upload p)) u ≤
      countUploadsForUser v u + if upload.owner = u then 1 else 0 := by
  simp only [countUploadsForUser, ← List.countP_eq_length_filter, Service.apply]
  have counts := v.uploads.countP_put_le (fun row => decide (row.2.owner = u)) id upload
  simpa using counts

theorem count_createEffects_le (serverName : String) (v : Service) (u owner : UserId) (req : UploadRequest)
    (chunkSize : Nat) (id : UploadId) (now : UInt64) :
    countUploadsForUser ((createEffects serverName owner req chunkSize id now).foldl Service.apply v) u ≤
      countUploadsForUser v u + if owner = u then 1 else 0 :=
  count_createUpload_le v u id (declare serverName owner req chunkSize id now) { lastChunkAtSecs := now }

variable {state : Uploading} {user : UserId}

section

variable (roomy : Roomy config user state)
include roomy

theorem Roomy.start (lt : config.maxPendingMediaUploads < 2 ^ 64) (c : Nat) (caller : UserId)
    (req : UploadRequest) : Roomy config user (state.start config c caller req) := by
  unfold Uploading.start
  split
  · exact roomy
  · dsimp only
    split
    · exact roomy
    next passed =>
      refine ⟨roomy.promised, fun o creating hit mine => ?_⟩
      by_cases eq : o = c
      · subst eq
        dsimp only at hit
        rw [update_self] at hit
        obtain rfl := some.inj hit
        obtain rfl : caller = user := mine
        exact room_of_not_isQuotaReached lt (by simpa using passed)
      · exact roomy.passed o creating (by simpa [eq] using hit) mine

theorem Roomy.draw {c : Nat} {creating : Creating} (hit : state.calls c = some creating)
    (digits : Fin (16 ^ 14)) : Roomy config user (state.draw serverName c creating digits) := by
  unfold Uploading.draw
  dsimp only
  split
  · refine ⟨roomy.promised, fun o got stored mine => ?_⟩
    by_cases eq : o = c
    · subst eq
      dsimp only at stored
      rw [update_self] at stored
      obtain rfl := some.inj stored
      exact roomy.passed o creating hit mine
    · exact roomy.passed o got (by simpa [eq] using stored) mine
  · exact roomy

theorem Roomy.create {c : Nat} {creating : Creating} (hit : state.calls c = some creating)
    (stands : countUploadsForUser state.service creating.user ≤ creating.inProgress) (id : UploadId) (now : UInt64) :
    Roomy config user (state.create serverName c creating id now) := by
  have counts := count_createEffects_le serverName state.service user creating.user creating.request
    creating.chunkSize id now
  refine ⟨?_, fun o got stored mine => ?_⟩
  · have old := roomy.promised
    unfold Uploading.promised at old ⊢
    unfold Uploading.create
    by_cases mine : creating.user = user
    · have r := roomy.passed c creating hit mine
      rw [mine] at stands
      rw [if_pos mine] at counts
      dsimp only
      omega
    · rw [if_neg mine] at counts
      dsimp only
      omega
  · by_cases eq : o = c
    · simp [Uploading.create, eq] at stored
    · exact roomy.passed o got (by simpa [Uploading.create, eq] using stored) mine

theorem Roomy.step (lt : config.maxPendingMediaUploads < 2 ^ 64) {e : CreateEvent}
    (stands : state.CountStands e) : Roomy config user (state.step config serverName e) := by
  cases e with
  | start c caller req =>
    simp only [Uploading.step]
    split
    · exact roomy.start lt c caller req
    · exact roomy
  | draw c digits =>
    simp only [Uploading.step]
    split
    next creating hit =>
      split
      · exact roomy.draw hit digits
      · exact roomy
    · exact roomy
  | create c now =>
    simp only [Uploading.step]
    split
    next creating hit =>
      split
      · exact roomy.create hit (stands creating hit) _ now
      · exact roomy
    · exact roomy

end

/-- In every run in which each call writes its row while its count still stands, the quota holds throughout. -/
theorem quota_kept (small : config.maxPendingMediaUploads < 2 ^ 64) (user : UserId) {state : Uploading}
    (idle : ∀ call, state.calls call = none) (within : state.promised user ≤ config.maxPendingMediaUploads)
    {events : List CreateEvent} (stands : Admits (step config serverName) CountStands state events) :
    Along (step config serverName) (fun state => state.promised user ≤ config.maxPendingMediaUploads) state events := by
  have roomy : Roomy config user state := ⟨within, fun call creating hit => by simp [idle call] at hit⟩
  exact (along_of_keeps (fun _ _ roomy stands => roomy.step small stands) roomy stands).imp fun _ roomy => roomy.promised

def single : Config where
  mediaUploadMaxLen := 0
  mediaUploadTtl := 60
  mediaChunkSizeDefault := 1
  mediaChunkSizeMin := 1
  mediaChunkSizeMax := 1
  mediaChunkOverheadMax := 0
  wbfMetaMaxBytes := 0
  wbfDataMaxBytes := 1
  maxPendingMediaUploads := 1

def blank : Uploading where
  service := ⟨.empty, .empty, .empty, .empty, .empty, .empty, fun _ => none, fun _ => none, fun _ => none⟩
  pending _ := 0
  calls _ := none

def openStreams : List CreateEvent :=
  [.start 1 "@u:s" ⟨0, none, 0, []⟩, .start 2 "@u:s" ⟨0, none, 0, []⟩, .draw 1 1, .draw 2 2, .create 1 0, .create 2 0]

/-- Two calls that count before either writes both find room for one. -/
theorem overlapping_creates_exceed :
    blank.promised "@u:s" = 0 ∧ (run (step single "s") blank openStreams).promised "@u:s" = 2 := by
  decide

/-- One after the other, the second is refused. -/
theorem quota_kept_single : (run (step single "s") blank [.start 1 "@u:s" ⟨0, none, 0, []⟩, .draw 1 1, .create 1 0,
      .start 2 "@u:s" ⟨0, none, 0, []⟩]).promised "@u:s" = 1 ∧
    Along (step single "s") (fun state => state.promised "@u:s" ≤ 1) blank [.start 1 "@u:s" ⟨0, none, 0, []⟩, .draw 1 1,
      .create 1 0, .start 2 "@u:s" ⟨0, none, 0, []⟩] := by
  refine ⟨by decide, quota_kept (by decide) "@u:s" (fun _ => rfl) (by decide) ⟨trivial, trivial, ?_, trivial, trivial⟩⟩
  rintro creating hit
  obtain rfl := some.inj hit
  decide

end Uploading

end Wbfuwunel.Media
