import Wbfuwunel.Users.Tokens

/-! What revoking a device's tokens leaves behind, whatever happened to the tables before. -/

set_option autoImplicit false

namespace Wbfuwunel.Users
open Foundation Option

namespace Tokens

variable {UserDevice : Type} [DecidableEq UserDevice] {tokens : Tokens UserDevice} {config : Config}
  {owner : UserDevice}

theorem setRefreshToken_tables (k : Token) (now : Seconds) :
    (tokens.setRefreshToken config owner k now).1 = match tokens.refreshExpiresAt config owner now with
      | .error _ => tokens.removeRefreshToken owner
      | .ok expiresAt => (tokens.removeRefreshToken owner).putRefreshToken owner k expiresAt
          (tokens.userdeviceidRefresh owner) now := by
  unfold setRefreshToken
  cases tokens.refreshExpiresAt config owner now <;> rfl

theorem apply_keeps {P : Tokens UserDevice → Prop} {op : DeviceOp}
    (removeRefresh : ∀ tokens, P tokens → P (tokens.removeRefreshToken owner))
    (renew : ∀ tokens k expiresAt now, op.SetsRefresh k → P tokens →
      P ((tokens.removeRefreshToken owner).putRefreshToken owner k expiresAt (tokens.userdeviceidRefresh owner) now))
    (removeAccess : ∀ tokens, P tokens → P (tokens.removeAccessToken owner))
    (putAccess : ∀ tokens accessToken expiresAt, op.SetsAccess accessToken → P tokens →
      P (tokens.putAccessToken owner accessToken expiresAt))
    (h : P tokens) : P (tokens.apply config owner op) := by
  have refresh (k : Token) (now : Seconds) (sets : op.SetsRefresh k) :
      P (tokens.setRefreshToken config owner k now).1 := by
    rw [setRefreshToken_tables]
    split
    · exact removeRefresh tokens h
    · exact renew tokens k _ now sets h
  cases op with
  | setAccessToken accessToken expiresIn k now =>
    simp only [apply, setAccessToken]
    split
    · exact h
    · cases k with
      | none =>
        split
        · exact h
        · exact h
        · exact putAccess _ accessToken _ rfl h
      | some k =>
        have refreshed := refresh k now rfl
        split
        · exact refreshed
        · exact refreshed
        · exact putAccess _ accessToken _ rfl refreshed
  | setRefreshToken k now => exact refresh k now rfl
  | removeAccessToken => exact removeAccess tokens h
  | removeRefreshToken => exact removeRefresh tokens h
  | removeTokens => exact removeRefresh _ (removeAccess tokens h)

/-! ## Every row is reached from its device -/

/-- A token that resolves is in its device's index or is its refresh token. -/
def Covered (tokens : Tokens UserDevice) : Prop :=
  ∀ token row, tokens.tokenUserdeviceid token = some row →
    token ∈ tokens.userdeviceidtokenIndex row.owner ∨ tokens.userdeviceidRefresh row.owner = some token

section

variable (covered : tokens.Covered)
include covered

theorem Covered.removeRefreshToken (owner : UserDevice) : (tokens.removeRefreshToken owner).Covered := by
  intro token row hit
  obtain ⟨o, hit⟩ := row_removeRefreshToken.mp hit
  rcases covered token row hit with indexed | pointed
  · exact .inl indexed
  · -- The one row that was reached through the pointer went with it.
    have away : row.owner ≠ owner := by
      rintro rfl
      exact o pointed
    exact .inr (by simpa [Tokens.removeRefreshToken, away] using pointed)

theorem Covered.putRefreshToken (nothing : tokens.userdeviceidRefresh owner = none) (k : Token)
    (expiresAt : Option Seconds) (spent : Option Token) (now : Seconds) :
    (tokens.putRefreshToken owner k expiresAt spent now).Covered := by
  intro token row hit
  obtain ⟨rows, i, -, pointers⟩ := tokens.putRefreshToken_tables owner k expiresAt spent now
  rw [rows] at hit
  rw [i, pointers]
  by_cases eq : token = k
  · subst eq
    rw [Function.update_self] at hit
    obtain rfl := some.inj hit
    exact .inr (by simp)
  · rw [Function.update_of_ne eq] at hit
    rcases covered token row hit with indexed | pointed
    · exact .inl indexed
    · have away : row.owner ≠ owner := by
        rintro rfl
        simp [nothing] at pointed
      exact .inr (by simpa [away] using pointed)

theorem Covered.removeAccessToken (owner : UserDevice) : (tokens.removeAccessToken owner).Covered := by
  intro token row hit
  obtain ⟨-, unlisted, hit⟩ := row_removeAccessToken.mp hit
  rcases covered token row hit with indexed | pointed
  · have away : row.owner ≠ owner := by
      rintro rfl
      exact unlisted indexed
    exact .inl (by simpa [Tokens.removeAccessToken, away] using indexed)
  · exact .inr pointed

theorem Covered.putAccessToken (owner : UserDevice) (accessToken : Token) (expiresAt : Option Seconds) :
    (tokens.putAccessToken owner accessToken expiresAt).Covered := by
  intro token row hit
  by_cases eq : token = accessToken
  · subst eq
    simp only [Tokens.putAccessToken, Function.update_self, some.injEq] at hit
    subst hit
    exact .inl (by simp [Tokens.putAccessToken])
  · refine (covered token row (by simpa [Tokens.putAccessToken, eq] using hit)).imp_left fun indexed => ?_
    by_cases mine : row.owner = owner
    · simp [Tokens.putAccessToken, ← mine, indexed]
    · simpa [Tokens.putAccessToken, mine] using indexed

theorem Covered.removeAccessTokenValue (accessToken : Token) : (tokens.removeAccessTokenValue accessToken).Covered := by
  intro token row hit
  obtain ⟨o, hit⟩ := without_eq_some.mp hit
  have o : token ≠ accessToken := fun eq => o (congrArg some eq.symm)
  refine (covered token row hit).imp_left fun indexed => ?_
  rcases tokens.index_removeAccessTokenValue accessToken row.owner with eq | erased
  · rwa [eq]
  · exact erased ▸ Finset.mem_erase.mpr ⟨o, indexed⟩

theorem Covered.step (op : TokenOp UserDevice) : (tokens.step config op).Covered := by
  cases op with
  | on owner op =>
    refine apply_keeps (fun _ covered => covered.removeRefreshToken owner) (fun tokens token expiresAt now _ covered => ?_)
      (fun _ covered => covered.removeAccessToken owner) (fun _ token expiresAt _ covered => ?_) covered
    · exact (covered.removeRefreshToken owner).putRefreshToken (by simp [Tokens.removeRefreshToken]) token expiresAt _ now
    · exact covered.putAccessToken owner token expiresAt
  | removeAccessTokenValue accessToken => exact covered.removeAccessTokenValue accessToken

theorem Covered.removeTokens (owner : UserDevice) {token : Token} {row : TokenRow UserDevice}
    (hit : (tokens.removeTokens owner).tokenUserdeviceid token = some row) : row.owner ≠ owner := by
  rintro rfl
  -- Both ways a row of the device may be reached are empty afterwards.
  rcases (covered.removeAccessToken row.owner).removeRefreshToken row.owner token row hit with indexed | pointed
  · simp [Tokens.removeRefreshToken, Tokens.removeAccessToken] at indexed
  · simp [Tokens.removeRefreshToken] at pointed

end

/-! ## A device reaches only what was set for it -/

def Reaches (tokens : Tokens UserDevice) (owner : UserDevice) (token : Token) : Prop :=
  token ∈ tokens.userdeviceidtokenIndex owner ∨ tokens.userdeviceidToken owner = some token ∨
    tokens.userdeviceidRefresh owner = some token

variable {o : UserDevice} {token : Token}

theorem Reaches.of_removeRefreshToken (reaches : (tokens.removeRefreshToken o).Reaches owner token) :
    tokens.Reaches owner token := by
  by_cases eq : owner = o
  · exact reaches.imp_right (.imp_right fun pointed => by simp [removeRefreshToken, eq] at pointed)
  · simpa [Reaches, removeRefreshToken, eq] using reaches

variable {expiresAt : Option Seconds} {accessToken : Token}

theorem Reaches.of_putRefreshToken {k : Token} {spent : Option Token} {now : Seconds}
    (reaches : (tokens.putRefreshToken o k expiresAt spent now).Reaches owner token) :
    tokens.Reaches owner token ∨ o = owner ∧ k = token := by
  obtain ⟨-, i, access, refresh⟩ := tokens.putRefreshToken_tables o k expiresAt spent now
  simp only [Reaches, i, access, refresh] at reaches
  by_cases eq : owner = o
  · subst eq
    simp only [Function.update_self, some.injEq] at reaches
    unfold Reaches
    tauto
  · exact .inl (by simpa [Reaches, eq] using reaches)

theorem Reaches.of_removeAccessToken (reaches : (tokens.removeAccessToken o).Reaches owner token) :
    tokens.Reaches owner token := by
  by_cases eq : owner = o
  · simp only [Reaches, removeAccessToken, eq] at reaches
    simpa [eq] using .inr (.inr (by simpa using reaches))
  · simpa [Reaches, removeAccessToken, eq] using reaches

theorem Reaches.of_putAccessToken (reaches : (tokens.putAccessToken o accessToken expiresAt).Reaches owner token) :
    tokens.Reaches owner token ∨ o = owner ∧ accessToken = token := by
  by_cases eq : owner = o
  · subst eq
    simp only [Reaches, putAccessToken, Function.update_self, Finset.mem_insert, Finset.mem_union, mem_toFinset, some.injEq] at reaches
    unfold Reaches
    tauto
  · exact .inl (by simpa [Reaches, putAccessToken, eq] using reaches)

theorem Reaches.of_removeAccessTokenValue (reaches : (tokens.removeAccessTokenValue accessToken).Reaches owner token) :
    tokens.Reaches owner token := by
  refine reaches.imp_left fun indexed => ?_
  rcases tokens.index_removeAccessTokenValue accessToken owner with eq | erased
  · rwa [eq] at indexed
  · exact Finset.mem_of_mem_erase (erased ▸ indexed)

theorem Reaches.of_step {op : TokenOp UserDevice} (reaches : (tokens.step config op).Reaches owner token) :
    tokens.Reaches owner token ∨ op.Sets owner token := by
  cases op with
  | on o op =>
    revert reaches
    refine apply_keeps (P := fun now => now.Reaches owner token → _) ?_ ?_ ?_ ?_ .inl
    · exact fun _ old reaches => old reaches.of_removeRefreshToken
    · rintro _ k _ _ sets old reaches
      rcases reaches.of_putRefreshToken with reaches | ⟨rfl, rfl⟩
      · exact old reaches.of_removeRefreshToken
      · exact .inr ⟨rfl, .inr sets⟩
    · exact fun _ old reaches => old reaches.of_removeAccessToken
    · rintro _ accessToken _ sets old reaches
      rcases reaches.of_putAccessToken with reaches | ⟨rfl, rfl⟩
      · exact old reaches
      · exact .inr ⟨rfl, .inl sets⟩
  | removeAccessTokenValue accessToken => exact .inl reaches.of_removeAccessTokenValue

theorem Reaches.of_run {ops : List (TokenOp UserDevice)} (reaches : (run (step config) tokens ops).Reaches owner token) :
    tokens.Reaches owner token ∨ ∃ op ∈ ops, op.Sets owner token := by
  induction ops generalizing tokens with
  | nil => exact .inl reaches
  | cons op ops ih =>
    rcases ih reaches with reaches | ⟨later, mem, sets⟩
    · exact reaches.of_step.imp_right fun sets => ⟨op, by simp, sets⟩
    · exact .inr ⟨later, by simp [mem], sets⟩

theorem findFromToken_removeTokens (unreached : ¬tokens.Reaches owner token) :
    (tokens.removeTokens owner).findFromToken token = tokens.findFromToken token := by
  simp only [Reaches, not_or] at unreached
  obtain ⟨unlisted, access, refresh⟩ := unreached
  have row : (tokens.removeTokens owner).tokenUserdeviceid token = tokens.tokenUserdeviceid token := by
    simp [removeTokens, removeRefreshToken, removeAccessToken, without, unlisted, access, refresh]
  rw [findFromToken, row, findFromToken]

/-- After `remove_tokens` no token of the device is stored, and a token that was never set for the device resolves as
before. -/
theorem removeTokens_revokes (config : Config) (ops : List (TokenOp UserDevice)) (owner : UserDevice) :
    (∀ token row, ((run (step config) empty ops).removeTokens owner).tokenUserdeviceid token = some row →
      row.owner ≠ owner) ∧
    ∀ token, (∀ op ∈ ops, ¬op.Sets owner token) → ((run (step config) empty ops).removeTokens owner).findFromToken token =
        (run (step config) empty ops).findFromToken token := by
  have always : Admits (step config) (fun _ _ => True) (empty : Tokens UserDevice) ops :=
    admits_of_forall fun _ _ _ => trivial
  have nothing : (empty : Tokens UserDevice).Covered := fun token row hit => by cases hit
  have covered : Along (step config) Covered empty ops :=
    along_of_keeps (fun _ op covered _ => covered.step op) nothing always
  refine ⟨fun token row hit => covered.last.removeTokens owner hit, fun token unset => ?_⟩
  refine findFromToken_removeTokens fun reaches => ?_
  rcases reaches.of_run with nowhere | ⟨op, mem, sets⟩
  · simp [Reaches, empty] at nowhere
  · exact unset op mem sets

/-- Two devices with one token: revoking the first device's takes it from the second. -/
theorem shared_token_revoked : let op : DeviceOp := .setAccessToken "0123456789abcdef0123456789abcdef" none none 0
    let tokens := run (step ⟨0, false, 0⟩) empty [.on 1 op, .on 2 op]
    tokens.findFromToken "0123456789abcdef0123456789abcdef" = some (2, none) ∧
      (tokens.removeTokens 1).findFromToken "0123456789abcdef0123456789abcdef" = none := by
  decide +kernel

end Tokens

end Wbfuwunel.Users
