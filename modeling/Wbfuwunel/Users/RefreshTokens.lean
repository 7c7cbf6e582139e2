import Wbfuwunel.Users.TokenRuns

/-! How a presented refresh token is classified, after any operations on one device. -/

set_option autoImplicit false

namespace Wbfuwunel.Users
open Foundation Function Option Tokens

structure Generation where
  token : Token
  since : Seconds
  deriving DecidableEq, Repr

/-- The tables, and the refresh tokens of the device since it last had none, newest first. -/
structure Rotating (UserDevice : Type) where
  tokens : Tokens UserDevice
  generations : List Generation

namespace Rotating

variable {UserDevice : Type}

def new : Rotating UserDevice := ⟨.empty, []⟩

variable (device : Rotating UserDevice)

def newest : Option Token := device.generations.head?.map Generation.token

def spent : Option Generation :=
  match device.generations with
  | newest :: earlier :: _ => some ⟨earlier.token, newest.since⟩
  | _ => none

def isStored (token : Token) : Bool := (device.tokens.tokenUserdeviceid token).isSome

variable (config : Config)

variable (owner : UserDevice)

variable (device : Rotating UserDevice)

/-- A replacement that fails has dropped the token before. -/
def renewed (refreshToken : Token)
    (now : Seconds) : List Generation :=
  match device.tokens.refreshExpiresAt config owner now with
  | .error _ => []
  | .ok _ => ⟨refreshToken, now⟩ :: device.generations

def after : DeviceOp → List Generation
  | .setAccessToken accessToken _ refreshToken now =>
    if accessToken.utf8ByteSize < tokenLength then device.generations
    else match refreshToken with
      | some refreshToken => device.renewed config owner refreshToken now
      | none => device.generations
  | .setRefreshToken refreshToken now => device.renewed config owner refreshToken now
  | .removeAccessToken => device.generations
  | .removeRefreshToken | .removeTokens => []

/-- What a presented token is to be answered: the newest while it is stored, the one before it with grace within the
window, and nothing else. -/
def answer (token : Token) (now : Seconds) :
    RefreshToken UserDevice :=
  if device.newest = some token ∧ device.isStored token then
    .current owner ((device.tokens.tokenUserdeviceid token).bind TokenRow.expiresAt)
  else match device.newest, device.spent with
    | some current, some spent =>
      if spent.token = token then .replayed owner current
        (config.refreshTokenReuseGrace ≠ 0 ∧ now - spent.since ≤ config.refreshTokenReuseGrace)
      else .unknown
    | _, _ => .unknown

structure Classified (now : Seconds) : Prop where
  current_iff : ∀ token, (device.tokens.classifyRefreshToken config token now).isCurrent ↔
    device.newest = some token ∧ device.isStored token
  current_unique : ∀ first second, (device.tokens.classifyRefreshToken config first now).isCurrent →
    (device.tokens.classifyRefreshToken config second now).isCurrent → first = second
  replayed_unique : ∀ first second, (device.tokens.classifyRefreshToken config first now).isReplayed →
    (device.tokens.classifyRefreshToken config second now).isReplayed → first = second
  /-- The answer names the successor, and has grace just within the window. -/
  replayed : ∀ token other current grace,
    device.tokens.classifyRefreshToken config token now = .replayed other current grace →
      other = owner ∧ device.newest = some current ∧ ∃ replaced, device.spent = some ⟨token, replaced⟩ ∧
        (grace ↔ config.refreshTokenReuseGrace ≠ 0 ∧ now - replaced ≤ config.refreshTokenReuseGrace)
  unknown : ∀ token, ¬(device.newest = some token ∧ device.isStored token) →
    (∀ replaced, device.spent ≠ some ⟨token, replaced⟩) →
      device.tokens.classifyRefreshToken config token now = .unknown

/-! ## The tables follow the generations -/

structure Rotated (tokens : Tokens UserDevice) (generations : List Generation) : Prop where
  owned : ∀ token row, tokens.tokenUserdeviceid token = some row →
    row.owner = owner ∧ ∀ expiresAt ∈ row.expiresAt, expiresAt < 2 ^ 63
  refresh : tokens.userdeviceidRefresh owner = generations.head?.map Generation.token
  spentrefresh : tokens.userdeviceidSpentrefresh owner = generations.tail.head?.map Generation.token
  spent_iff : ∀ token row, tokens.spentrefreshUserdeviceid token = some row ↔
    ∃ newest earlier rest, generations = newest :: earlier :: rest ∧ token = earlier.token ∧
      row = ⟨owner, newest.token, newest.since⟩

variable {config : Config} {owner : UserDevice} {tokens : Tokens UserDevice} {generations : List Generation}

theorem Rotated.empty : Rotated owner (.empty : Tokens UserDevice) [] where
  owned token row hit := by cases hit
  refresh := rfl
  spentrefresh := rfl
  spent_iff token row := by simp [Tokens.empty]

/-! ## Deadlines -/

variable {now : Seconds} {expiresAt : Option Seconds} {device : Rotating UserDevice}

theorem lt_of_timepointFromNow {duration timepoint : Seconds}
    (representable : timepointFromNow now duration = .ok timepoint) : timepoint < 2 ^ 63 := by
  unfold timepointFromNow at representable
  split at representable
  · obtain rfl := Except.ok.inj representable
    assumption
  · cases representable

theorem lt_of_map_timepointFromNow {duration : Seconds}
    (representable : (timepointFromNow now duration).map some = .ok expiresAt) :
    ∀ deadline ∈ expiresAt, deadline < 2 ^ 63 := by
  cases got : timepointFromNow now duration with
  | error failure => simp [got, Except.map] at representable
  | ok timepoint =>
    simp only [got, Except.map, Except.ok.injEq] at representable
    subst representable
    rintro _ ⟨⟩
    exact lt_of_timepointFromNow got

theorem lt_of_accessExpiresAt {expiresIn : Option Seconds} (got : accessExpiresAt now expiresIn = .ok expiresAt) :
    ∀ deadline ∈ expiresAt, deadline < 2 ^ 63 := by
  cases expiresIn with
  | none =>
    obtain rfl := Except.ok.inj got
    simp
  | some expiresIn => exact lt_of_map_timepointFromNow got

theorem lt_of_findRefreshTokenExpiresAt {prior : Seconds} (got : tokens.findRefreshTokenExpiresAt owner = some prior) :
    prior < 2 ^ 63 := by
  simp only [findRefreshTokenExpiresAt, bind_eq_bind, bind_eq_some_iff] at got
  obtain ⟨_, -, _, -, expiresAt, -, representable⟩ := got
  unfold timepointFromEpoch at representable
  split at representable
  · obtain rfl := some.inj representable
    assumption
  · cases representable

theorem lt_of_refreshExpiresAt (stored : tokens.refreshExpiresAt config owner now = .ok expiresAt) :
    ∀ deadline ∈ expiresAt, deadline < 2 ^ 63 := by
  simp only [refreshExpiresAt] at stored
  split at stored
  · obtain rfl := Except.ok.inj stored
    simp
  next prior got _ =>
    obtain rfl := Except.ok.inj stored
    split at got
    · rintro _ ⟨⟩
      exact lt_of_findRefreshTokenExpiresAt got
    · cases got
  · exact lt_of_map_timepointFromNow stored

/-! ## The answer -/

theorem Rotated.findFromToken (rotated : Rotated owner tokens generations) (token : Token) :
    tokens.findFromToken token = (tokens.tokenUserdeviceid token).map fun row => (owner, row.expiresAt) := by
  cases hit : tokens.tokenUserdeviceid token with
  | none => simp [Tokens.findFromToken, hit]
  | some row =>
    obtain ⟨mine, representable⟩ := rotated.owned token row hit
    cases deadline : row.expiresAt with
    | none => simp [Tokens.findFromToken, hit, deadline, mine]
    | some expiresAt =>
      have unchanged : timepointFromEpoch expiresAt = some expiresAt := if_pos (representable expiresAt deadline)
      simp [Tokens.findFromToken, hit, deadline, mine, unchanged]

section

variable (rotated : Rotated owner device.tokens device.generations)
include rotated

theorem Rotated.spentrefreshUserdeviceid (token : Token) :
    device.tokens.spentrefreshUserdeviceid token = match device.generations with
      | newest :: old :: _ => if old.token = token then some ⟨owner, newest.token, newest.since⟩ else none
      | _ => none := by
  refine Option.ext fun row => ?_
  rw [rotated.spent_iff]
  split
  next newest old rest generations =>
    simp only [generations, List.cons.injEq]
    split
    next eq =>
      constructor
      · rintro ⟨_, _, _, ⟨rfl, rfl, rfl⟩, -, rfl⟩
        rfl
      · rintro ⟨⟩
        exact ⟨newest, old, rest, ⟨rfl, rfl, rfl⟩, eq.symm, rfl⟩
    next o =>
      simp only [reduceCtorEq, iff_false]
      rintro ⟨_, _, _, ⟨rfl, rfl, rfl⟩, rfl, -⟩
      exact o rfl
  next fewer =>
    simp only [reduceCtorEq, iff_false]
    rintro ⟨newest, old, rest, generations, -⟩
    exact fewer newest old rest generations

theorem Rotated.classifyRefreshToken (token : Token) (now : Seconds) :
    device.tokens.classifyRefreshToken config token now = device.answer config owner token now := by
  have retained := rotated.spentrefreshUserdeviceid token
  have pointed := rotated.refresh
  have got := rotated.findFromToken token
  rcases stages : device.generations with _ | ⟨a, _ | ⟨old, rest⟩⟩ <;>
    cases hit : device.tokens.tokenUserdeviceid token <;> rw [stages] at retained pointed <;> rw [hit] at got
  · simp [Tokens.classifyRefreshToken, got, retained, answer, newest, stages]
  · simp [Tokens.classifyRefreshToken, got, retained, pointed, answer, newest, stages]
  · simp [Tokens.classifyRefreshToken, got, retained, answer, spent, isStored, stages, hit]
  · by_cases eq : a.token = token <;>
      simp [Tokens.classifyRefreshToken, got, retained, pointed, answer, newest, spent, isStored, stages, hit]
  · by_cases replayed : old.token = token <;>
      simp [Tokens.classifyRefreshToken, got, retained, pointed, answer, newest, spent, isStored, stages, hit,
        replayed]
  · by_cases eq : a.token = token <;> by_cases replayed : old.token = token <;>
      simp [Tokens.classifyRefreshToken, got, retained, pointed, answer, newest, spent, isStored, stages, hit, replayed]

theorem Rotated.classified (now : Seconds) : device.Classified config owner now := by
  have current_iff (token : Token) : (device.tokens.classifyRefreshToken config token now).isCurrent ↔
      device.newest = some token ∧ device.isStored token := by
    rw [rotated.classifyRefreshToken, answer]
    by_cases current : device.newest = some token ∧ device.isStored token
    · simp [current, RefreshToken.isCurrent]
    · rw [if_neg current]
      refine iff_of_false ?_ current
      split
      · split <;> simp [RefreshToken.isCurrent]
      · simp [RefreshToken.isCurrent]
  have replayed (token : Token) (o : UserDevice) (current : Token) (grace : Bool)
      (answered : device.tokens.classifyRefreshToken config token now = .replayed o current grace) :
      o = owner ∧ device.newest = some current ∧ ∃ replaced, device.spent = some ⟨token, replaced⟩ ∧
        (grace ↔ config.refreshTokenReuseGrace ≠ 0 ∧ now - replaced ≤ config.refreshTokenReuseGrace) := by
    rw [rotated.classifyRefreshToken, answer] at answered
    split at answered
    · cases answered
    · split at answered
      next got spent newest earlier =>
        split at answered
        next eq =>
          cases answered
          subst eq
          exact ⟨rfl, newest, spent.since, earlier, by simp⟩
        · cases answered
      · cases answered
  refine ⟨current_iff, fun a b one two => ?_, fun a b one two => ?_, replayed, fun token old unspent => ?_⟩
  · have newest := ((current_iff a).mp one).1
    rw [((current_iff b).mp two).1] at newest
    exact (some.inj newest).symm
  · obtain ⟨_, _, _, one⟩ := RefreshToken.isReplayed_iff.mp one
    obtain ⟨_, _, _, two⟩ := RefreshToken.isReplayed_iff.mp two
    obtain ⟨-, -, _, spent, -⟩ := replayed _ _ _ _ one
    obtain ⟨-, -, _, also, -⟩ := replayed _ _ _ _ two
    rw [spent] at also
    exact congrArg Generation.token (some.inj also)
  · rw [rotated.classifyRefreshToken, answer, if_neg old]
    split
    next got spent newest earlier =>
      exact if_neg fun eq => unspent spent.since (by rw [earlier, ← eq])
    · rfl

end

/-! ## Every operation -/

variable [DecidableEq UserDevice]

def step (config : Config) (owner : UserDevice) (device : Rotating UserDevice) (op : DeviceOp) : Rotating UserDevice :=
  ⟨device.tokens.apply config owner op, device.after config owner op⟩

theorem Rotated.removeRefreshToken (rotated : Rotated owner tokens generations) :
    Rotated owner (tokens.removeRefreshToken owner) [] where
  owned token row hit := rotated.owned token row (Tokens.row_removeRefreshToken.mp hit).2
  refresh := by simp [Tokens.removeRefreshToken]
  spentrefresh := by simp [Tokens.removeRefreshToken]
  spent_iff token row := by
    simp only [Tokens.removeRefreshToken, without_eq_some, reduceCtorEq, false_and, exists_false, iff_false]
    rintro ⟨o, hit⟩
    -- The only spent token is the one that the pointer names.
    obtain ⟨newest, old, rest, rfl, rfl, -⟩ := (rotated.spent_iff token row).mp hit
    exact o rotated.spentrefresh

theorem Rotated.putRefreshToken (rotated : Rotated owner tokens []) (generations : List Generation) (k : Token)
    (representable : ∀ deadline ∈ expiresAt, deadline < 2 ^ 63) (now : Seconds) :
    Rotated owner (tokens.putRefreshToken owner k expiresAt (generations.head?.map Generation.token) now)
      (⟨k, now⟩ :: generations) := by
  have owned : ∀ token row,
      update tokens.tokenUserdeviceid k (some ⟨owner, expiresAt⟩) token = some row →
        row.owner = owner ∧ ∀ expiresAt ∈ row.expiresAt, expiresAt < 2 ^ 63 := by
    intro token row hit
    by_cases eq : token = k
    · subst eq
      rw [update_self] at hit
      obtain rfl := some.inj hit
      exact ⟨rfl, representable⟩
    · rw [update_of_ne eq] at hit
      exact rotated.owned token row hit
  have unspent (token : Token) : tokens.spentrefreshUserdeviceid token = none :=
    eq_none_iff_forall_ne_some.mpr fun row hit => by simpa using (rotated.spent_iff token row).mp hit
  cases generations with
  | nil =>
    refine ⟨owned, by simp [Tokens.putRefreshToken], rotated.spentrefresh, fun token row => ?_⟩
    simp [Tokens.putRefreshToken, unspent]
  | cons newest rest =>
    refine ⟨owned, by simp [Tokens.putRefreshToken], by simp [Tokens.putRefreshToken], fun token row => ?_⟩
    by_cases eq : token = newest.token
    · simp [Tokens.putRefreshToken, eq, eq_comm]
    · simp [Tokens.putRefreshToken, eq, unspent]

theorem Rotated.removeAccessToken (rotated : Rotated owner tokens generations) :
    Rotated owner (tokens.removeAccessToken owner) generations := { rotated with
  owned token row hit := rotated.owned token row (row_removeAccessToken.mp hit).2.2 }

theorem Rotated.putAccessToken (rotated : Rotated owner tokens generations) (accessToken : Token)
    (representable : ∀ deadline ∈ expiresAt, deadline < 2 ^ 63) :
    Rotated owner (tokens.putAccessToken owner accessToken expiresAt) generations := { rotated with
  owned token row hit := by
    by_cases eq : token = accessToken
    · simp only [Tokens.putAccessToken, eq, update_self, some.injEq] at hit
      subst hit
      exact ⟨rfl, representable⟩
    · exact rotated.owned token row (by simpa [Tokens.putAccessToken, eq] using hit) }

theorem Rotated.setRefreshToken (rotated : Rotated owner device.tokens device.generations) (k : Token)
    (now : Seconds) : Rotated owner (device.tokens.setRefreshToken config owner k now).1
      (device.renewed config owner k now) := by
  rw [setRefreshToken_tables]
  unfold renewed
  cases got : device.tokens.refreshExpiresAt config owner now with
  | error failure => exact rotated.removeRefreshToken
  | ok expiresAt =>
    rw [rotated.refresh]
    exact rotated.removeRefreshToken.putRefreshToken device.generations k (lt_of_refreshExpiresAt got) now

theorem Rotated.step (rotated : Rotated owner device.tokens device.generations) (op : DeviceOp) :
    Rotated owner (device.step config owner op).tokens (device.step config owner op).generations := by
  cases op with
  | setAccessToken accessToken expiresIn k now =>
    simp only [Rotating.step, apply, setAccessToken, after]
    split
    · exact rotated
    · -- The refresh token first; the access token changes no generation.
      have refreshed : Rotated owner (match k with
          | some k => device.tokens.setRefreshToken config owner k now
          | none => (device.tokens, .ok ())).1 (match k with
          | some k => device.renewed config owner k now
          | none => device.generations) := by
        cases k with
        | none => exact rotated
        | some k => exact rotated.setRefreshToken k now
      split
      · exact refreshed
      · exact refreshed
      next got =>
        exact refreshed.putAccessToken accessToken (lt_of_accessExpiresAt got)
  | setRefreshToken k now => exact rotated.setRefreshToken k now
  | removeAccessToken => exact rotated.removeAccessToken
  | removeRefreshToken => exact rotated.removeRefreshToken
  | removeTokens => exact rotated.removeAccessToken.removeRefreshToken

/-- A device keeps its refresh token while no access token is the same. -/
structure Kept (owner : UserDevice) (token : Token) (tokens : Tokens UserDevice) : Prop where
  unlisted : token ∉ tokens.userdeviceidtokenIndex owner
  unpointed : tokens.userdeviceidToken owner ≠ some token
  stored : tokens.userdeviceidRefresh owner = some token → (tokens.tokenUserdeviceid token).isSome

theorem Kept.apply {token : Token} (kept : Kept owner token tokens) {op : DeviceOp} (distinct : ¬op.SetsAccess token) :
    Kept owner token (tokens.apply config owner op) := by
  refine apply_keeps (fun tokens kept => ?_) (fun tokens k expiresAt now _ kept => ?_)
    (fun tokens kept => ?_) (fun tokens accessToken expiresAt sets kept => ?_) kept
  · exact ⟨kept.unlisted, kept.unpointed, by simp [removeRefreshToken]⟩
  · obtain ⟨rows, i, access, refresh⟩ := (tokens.removeRefreshToken owner).putRefreshToken_tables owner k
      expiresAt (tokens.userdeviceidRefresh owner) now
    refine ⟨i ▸ kept.unlisted, access ▸ kept.unpointed, fun pointed => ?_⟩
    rw [refresh, update_self] at pointed
    rw [rows, some.inj pointed, update_self]
    rfl
  · refine ⟨by simp [removeAccessToken], by simp [removeAccessToken], fun pointed => ?_⟩
    obtain ⟨row, hit⟩ := isSome_iff_exists.mp (kept.stored pointed)
    exact isSome_iff_exists.mpr
      ⟨row, row_removeAccessToken.mpr ⟨kept.unpointed, kept.unlisted, hit⟩⟩
  · have o : token ≠ accessToken := fun eq => distinct (eq ▸ sets)
    refine ⟨?_, ?_, fun pointed => ?_⟩
    · simp [putAccessToken, o, kept.unlisted, kept.unpointed]
    · simp [putAccessToken, o.symm]
    · simpa [putAccessToken, o] using kept.stored pointed

/-- After any operations on a device, its refresh tokens are answered as they were rotated. The newest is stored, unless
an access token of the device was the same. -/
theorem refreshToken_classified (config : Config) (owner : UserDevice) (ops : List DeviceOp) (now : Seconds) :
    (run (step config owner) new ops).Classified config owner now ∧
      ∀ token, (∀ op ∈ ops, ¬op.SetsAccess token) → (run (step config owner) new ops).newest = some token →
        (run (step config owner) new ops).isStored token := by
  have always : Admits (step config owner) (fun _ _ => True) new ops := admits_of_forall fun _ _ _ => trivial
  have rotated : Along (step config owner) (fun device => Rotated owner device.tokens device.generations) new ops :=
    along_of_keeps (fun _ op rotated _ => rotated.step op) .empty always
  refine ⟨rotated.last.classified now, fun token distinct newest => ?_⟩
  have kept : Along (step config owner) (fun device => Kept owner token device.tokens) new ops :=
    along_of_keeps (fun _ op kept distinct => kept.apply distinct)
      ⟨by simp [new, empty], by simp [new, empty], by simp [new, empty]⟩
      (admits_of_forall fun _ => distinct)
  exact kept.last.stored (rotated.last.refresh.trans newest)

/-- Two rotations a minute apart, with half a minute of grace. -/
example :
    let device := run (step ⟨0, false, 30⟩ 1) new
      [.setRefreshToken "refresh_a" 0, .setRefreshToken "refresh_b" 60, .setRefreshToken "refresh_c" 120]
    device.newest = some "refresh_c" ∧ device.spent = some ⟨"refresh_b", 120⟩ ∧
      (device.tokens.classifyRefreshToken ⟨0, false, 30⟩ "refresh_c" 150).isCurrent ∧
      (device.tokens.classifyRefreshToken ⟨0, false, 30⟩ "refresh_b" 150).isReplayed ∧
      ¬(device.tokens.classifyRefreshToken ⟨0, false, 30⟩ "refresh_a" 150).isReplayed := by
  decide +kernel

end Rotating

end Wbfuwunel.Users
