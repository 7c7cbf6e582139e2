import Mathlib.Data.Finset.Option
import Wbfuwunel.Foundation.Runs

/-! The access and refresh tokens of devices, from `users/device.rs`: one row for each token, an index and a pointer
from each device to its access tokens, and pointers to its refresh token and to the one before it. -/

set_option autoImplicit false

namespace Wbfuwunel.Users
open Foundation Function

abbrev Token := String

/-- Whole seconds, of a duration or since the epoch. -/
abbrev Seconds := Nat

def tokenLength : Nat := 32

structure Config where
  /-- Zero for tokens that do not expire. -/
  refreshTokenTtl : Seconds
  /-- Every rotation starts the lifetime again, instead of carrying the deadline along. -/
  refreshTokenIdleOnly : Bool
  /-- Zero for no grace. -/
  refreshTokenReuseGrace : Seconds

inductive TokenError where
  /-- The caller's assertion failed. -/
  | accessTokenTooShort
  /-- The time is not representable. -/
  | durationFromNowTooLarge (duration : Seconds)
  deriving DecidableEq, Repr

def timepointFromNow (now duration : Seconds) : Except TokenError Seconds :=
  if now + duration < 2 ^ 63 then .ok (now + duration) else .error (.durationFromNowTooLarge duration)

def timepointFromEpoch (duration : Seconds) : Option Seconds := if duration < 2 ^ 63 then some duration else none

variable (UserDevice : Type)

structure TokenRow where
  owner : UserDevice
  expiresAt : Option Seconds

structure SpentRow where
  owner : UserDevice
  successor : Token
  spentAt : Seconds

structure Tokens where
  tokenUserdeviceid : Token → Option (TokenRow UserDevice)
  userdeviceidtokenIndex : UserDevice → Finset Token
  userdeviceidToken : UserDevice → Option Token
  userdeviceidRefresh : UserDevice → Option Token
  spentrefreshUserdeviceid : Token → Option (SpentRow UserDevice)
  userdeviceidSpentrefresh : UserDevice → Option Token

/-- Classification of a refresh token presented for rotation. -/
inductive RefreshToken where
  | current (owner : UserDevice) (expiresAt : Option Seconds)
  | replayed (owner : UserDevice) (current : Token) (grace : Bool)
  | unknown

def RefreshToken.isCurrent {UserDevice : Type} : RefreshToken UserDevice → Bool
  | .current .. => true
  | _ => false

def RefreshToken.isReplayed {UserDevice : Type} : RefreshToken UserDevice → Bool
  | .replayed .. => true
  | _ => false

theorem RefreshToken.isReplayed_iff {UserDevice : Type} {answer : RefreshToken UserDevice} :
    answer.isReplayed ↔ ∃ owner current grace, answer = .replayed owner current grace := by
  cases answer <;> simp [isReplayed]

def without {Row : Type} (table : Token → Option Row) (pointed : Option Token) : Token → Option Row :=
  fun token => if pointed = some token then none else table token

@[simp] theorem without_eq_some {Row : Type} {table : Token → Option Row} {pointed : Option Token} {token : Token}
    {row : Row} : without table pointed token = some row ↔ pointed ≠ some token ∧ table token = some row := by
  unfold without
  split <;> simp_all

namespace Tokens

variable {UserDevice : Type}

def empty : Tokens UserDevice := ⟨fun _ => none, fun _ => ∅, fun _ => none, fun _ => none, fun _ => none, fun _ => none⟩

variable (tokens : Tokens UserDevice)

def findFromToken (token : Token) : Option (UserDevice × Option Seconds) := do
  let row ← tokens.tokenUserdeviceid token
  match row.expiresAt with
  | none => return (row.owner, none)
  | some expiresAt => return (row.owner, some (← timepointFromEpoch expiresAt))

variable (owner : UserDevice)

def findRefreshTokenExpiresAt : Option Seconds := do
  let oldToken ← tokens.userdeviceidRefresh owner
  let row ← tokens.tokenUserdeviceid oldToken
  let expiresAt ← row.expiresAt
  timepointFromEpoch expiresAt

def refreshExpiresAt (config : Config) (owner : UserDevice) (now : Seconds) : Except TokenError (Option Seconds) :=
  let priorExpiresAt := if config.refreshTokenTtl ≠ 0 ∧ ¬config.refreshTokenIdleOnly then
    tokens.findRefreshTokenExpiresAt owner else none
  match config.refreshTokenTtl, priorExpiresAt with
  | 0, _ => .ok none
  | _, some prior => .ok (some prior)
  | ttl, none => (timepointFromNow now ttl).map some

def accessExpiresAt (now : Seconds) : Option Seconds → Except TokenError (Option Seconds)
  | none => .ok none
  | some expiresIn => (timepointFromNow now expiresIn).map some

variable [DecidableEq UserDevice]

def removeRefreshToken : Tokens UserDevice :=
  { tokens with
    tokenUserdeviceid := without tokens.tokenUserdeviceid (tokens.userdeviceidRefresh owner)
    userdeviceidRefresh := update tokens.userdeviceidRefresh owner none
    -- `forget_spent_refresh_token`
    spentrefreshUserdeviceid := without tokens.spentrefreshUserdeviceid (tokens.userdeviceidSpentrefresh owner)
    userdeviceidSpentrefresh := update tokens.userdeviceidSpentrefresh owner none }

def putRefreshToken (refreshToken : Token) (expiresAt : Option Seconds) (spent : Option Token) (now : Seconds) :
    Tokens UserDevice :=
  let tokens := { tokens with
    tokenUserdeviceid := update tokens.tokenUserdeviceid refreshToken (some ⟨owner, expiresAt⟩)
    userdeviceidRefresh := update tokens.userdeviceidRefresh owner (some refreshToken) }
  match spent with
  | none => tokens
  | some spent =>
    { tokens with
      spentrefreshUserdeviceid :=
        update tokens.spentrefreshUserdeviceid spent (some ⟨owner, refreshToken, now⟩)
      userdeviceidSpentrefresh := update tokens.userdeviceidSpentrefresh owner (some spent) }

theorem putRefreshToken_tables (k : Token) (expiresAt : Option Seconds) (spent : Option Token) (now : Seconds) :
    (tokens.putRefreshToken owner k expiresAt spent now).tokenUserdeviceid =
        update tokens.tokenUserdeviceid k (some ⟨owner, expiresAt⟩) ∧
      (tokens.putRefreshToken owner k expiresAt spent now).userdeviceidtokenIndex = tokens.userdeviceidtokenIndex ∧
      (tokens.putRefreshToken owner k expiresAt spent now).userdeviceidToken = tokens.userdeviceidToken ∧
      (tokens.putRefreshToken owner k expiresAt spent now).userdeviceidRefresh =
        update tokens.userdeviceidRefresh owner (some k) := by
  cases spent <;> exact ⟨rfl, rfl, rfl, rfl⟩

/-- The old token is gone even if the new one cannot be stored. -/
def setRefreshToken (config : Config) (owner : UserDevice) (refreshToken : Token) (now : Seconds) :
    Tokens UserDevice × Except TokenError Unit :=
  let spent := tokens.userdeviceidRefresh owner
  let removed := tokens.removeRefreshToken owner
  match tokens.refreshExpiresAt config owner now with
  | .error failure => (removed, .error failure)
  | .ok expiresAt => (removed.putRefreshToken owner refreshToken expiresAt spent now, .ok ())

def putAccessToken (accessToken : Token) (expiresAt : Option Seconds) : Tokens UserDevice :=
  { tokens with
    tokenUserdeviceid := update tokens.tokenUserdeviceid accessToken (some ⟨owner, expiresAt⟩)
    userdeviceidtokenIndex := update tokens.userdeviceidtokenIndex owner
      (insert accessToken ((tokens.userdeviceidToken owner).toFinset ∪ tokens.userdeviceidtokenIndex owner))
    userdeviceidToken := update tokens.userdeviceidToken owner (some accessToken) }

def setAccessToken (config : Config) (owner : UserDevice) (accessToken : Token) (expiresIn : Option Seconds)
    (refreshToken : Option Token) (now : Seconds) : Tokens UserDevice × Except TokenError Unit :=
  if accessToken.utf8ByteSize < tokenLength then (tokens, .error .accessTokenTooShort)
  else
    let refreshed := match refreshToken with
      | some refreshToken => tokens.setRefreshToken config owner refreshToken now
      | none => (tokens, .ok ())
    match refreshed.2, accessExpiresAt now expiresIn with
    | .error failure, _ => (refreshed.1, .error failure)
    | .ok _, .error failure => (refreshed.1, .error failure)
    | .ok _, .ok expiresAt => (refreshed.1.putAccessToken owner accessToken expiresAt, .ok ())

/-- Every token of the device's index, and then the one its pointer names. -/
def removeAccessToken : Tokens UserDevice :=
  let indexed := tokens.userdeviceidtokenIndex owner
  { tokens with
    tokenUserdeviceid := without (fun token => if token ∈ indexed then none else tokens.tokenUserdeviceid token)
      (tokens.userdeviceidToken owner)
    userdeviceidtokenIndex := update tokens.userdeviceidtokenIndex owner ∅
    userdeviceidToken := update tokens.userdeviceidToken owner none }

/-- One access token by its value. The pointer of its device stays. -/
def removeAccessTokenValue (accessToken : Token) : Tokens UserDevice :=
  { tokens with
    tokenUserdeviceid := without tokens.tokenUserdeviceid (some accessToken)
    userdeviceidtokenIndex := match tokens.tokenUserdeviceid accessToken with
      | some row => update tokens.userdeviceidtokenIndex row.owner
          ((tokens.userdeviceidtokenIndex row.owner).erase accessToken)
      | none => tokens.userdeviceidtokenIndex }

variable {tokens : Tokens UserDevice} {owner : UserDevice} {token : Token} {row : TokenRow UserDevice}

theorem row_removeRefreshToken : (tokens.removeRefreshToken owner).tokenUserdeviceid token = some row ↔
      tokens.userdeviceidRefresh owner ≠ some token ∧ tokens.tokenUserdeviceid token = some row :=
  without_eq_some

theorem row_removeAccessToken : (tokens.removeAccessToken owner).tokenUserdeviceid token = some row ↔
      tokens.userdeviceidToken owner ≠ some token ∧ token ∉ tokens.userdeviceidtokenIndex owner ∧
        tokens.tokenUserdeviceid token = some row := by
  simp [removeAccessToken]

theorem index_removeAccessTokenValue (tokens : Tokens UserDevice) (accessToken : Token) (owner : UserDevice) :
    (tokens.removeAccessTokenValue accessToken).userdeviceidtokenIndex owner = tokens.userdeviceidtokenIndex owner ∨
      (tokens.removeAccessTokenValue accessToken).userdeviceidtokenIndex owner =
        (tokens.userdeviceidtokenIndex owner).erase accessToken := by
  unfold removeAccessTokenValue
  cases tokens.tokenUserdeviceid accessToken with
  | none => exact .inl rfl
  | some row =>
    by_cases eq : owner = row.owner
    · exact .inr (by simp [eq])
    · exact .inl (by simp [eq])

def removeTokens (tokens : Tokens UserDevice) (owner : UserDevice) : Tokens UserDevice :=
  (tokens.removeAccessToken owner).removeRefreshToken owner

def classifyRefreshToken (tokens : Tokens UserDevice) (config : Config) (presented : Token) (now : Seconds) :
    RefreshToken UserDevice :=
  let retained := match tokens.spentrefreshUserdeviceid presented with
    | none => .unknown
    | some spent =>
      let elapsed := now - spent.spentAt
      let grace := config.refreshTokenReuseGrace ≠ 0 ∧ elapsed ≤ config.refreshTokenReuseGrace ∧
        tokens.userdeviceidRefresh spent.owner = some spent.successor
      .replayed spent.owner spent.successor grace
  match tokens.findFromToken presented with
  | some (owner, expiresAt) =>
    if tokens.userdeviceidRefresh owner = some presented then .current owner expiresAt else retained
  | none => retained

end Tokens

/-! ## Operations -/

inductive DeviceOp where
  | setAccessToken (accessToken : Token) (expiresIn : Option Seconds) (refreshToken : Option Token) (now : Seconds)
  | setRefreshToken (refreshToken : Token) (now : Seconds)
  | removeAccessToken
  | removeRefreshToken
  | removeTokens
  deriving DecidableEq, Repr

inductive TokenOp (UserDevice : Type) where
  | on (owner : UserDevice) (op : DeviceOp)
  | removeAccessTokenValue (accessToken : Token)

def DeviceOp.SetsAccess (op : DeviceOp) (token : Token) : Prop :=
  match op with
  | .setAccessToken accessToken .. => accessToken = token
  | _ => False

def DeviceOp.SetsRefresh (op : DeviceOp) (token : Token) : Prop :=
  match op with
  | .setAccessToken _ _ refreshToken _ => refreshToken = some token
  | .setRefreshToken refreshToken _ => refreshToken = token
  | _ => False

def TokenOp.Sets {UserDevice : Type} (op : TokenOp UserDevice) (owner : UserDevice) (token : Token) : Prop :=
  match op with
  | .on other op => other = owner ∧ (op.SetsAccess token ∨ op.SetsRefresh token)
  | .removeAccessTokenValue _ => False

namespace Tokens

variable {UserDevice : Type} [DecidableEq UserDevice]

def apply (config : Config) (owner : UserDevice) (tokens : Tokens UserDevice) : DeviceOp → Tokens UserDevice
  | .setAccessToken accessToken expiresIn refreshToken now =>
    (tokens.setAccessToken config owner accessToken expiresIn refreshToken now).1
  | .setRefreshToken refreshToken now => (tokens.setRefreshToken config owner refreshToken now).1
  | .removeAccessToken => tokens.removeAccessToken owner
  | .removeRefreshToken => tokens.removeRefreshToken owner
  | .removeTokens => tokens.removeTokens owner

def step (config : Config) (tokens : Tokens UserDevice) : TokenOp UserDevice → Tokens UserDevice
  | .on owner op => tokens.apply config owner op
  | .removeAccessTokenValue accessToken => tokens.removeAccessTokenValue accessToken

end Tokens

end Wbfuwunel.Users
