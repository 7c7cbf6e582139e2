import Wbfuwunel.Foundation.Calls

/-! Authorization codes: `service/oauth/server/auth.rs`, as the token route of `api/oidc/token.rs` presents them.

A code is stored with its session. A token request reads the session, then removes it, then checks what it presents
against it.
-/

set_option autoImplicit false

namespace Wbfuwunel.OAuth

open Foundation List Function Option Protocol

/-- Nanoseconds since the epoch. -/
abbrev SystemTime := Nat

/-- A `SystemTime` counts whole seconds in an `i64`. -/
def checkedAdd (time duration : SystemTime) : Option SystemTime :=
  if (time + duration) / 1000000000 < 0x8000000000000000 then some (time + duration) else none

inductive ErrorKind where
  | forbidden
  | invalidParam
  deriving DecidableEq, Repr

structure Error where
  kind : ErrorKind
  message : String
  deriving DecidableEq, Repr

structure AuthRequest where
  clientId : String
  redirectUri : String
  scope : String
  state : Option String
  nonce : Option String
  codeChallenge : Option String
  codeChallengeMethod : Option String
  idpId : Option String
  deriving DecidableEq, Repr

structure AuthCodeSession where
  code : String
  clientId : String
  redirectUri : String
  scope : String
  state : Option String
  nonce : Option String
  codeChallenge : Option String
  codeChallengeMethod : Option String
  userId : String
  idpId : Option String
  createdAt : SystemTime
  expiresAt : SystemTime
  deriving DecidableEq, Repr

def authCodeLifetime : SystemTime := 10 * 60 * 1000000000

structure Creation where
  request : AuthRequest
  userId : String
  now : SystemTime
  code : String
  deriving DecidableEq, Repr

def Creation.session (creation : Creation) : AuthCodeSession where
  code := creation.code
  clientId := creation.request.clientId
  redirectUri := creation.request.redirectUri
  scope := creation.request.scope
  state := creation.request.state
  nonce := creation.request.nonce
  codeChallenge := creation.request.codeChallenge
  codeChallengeMethod := creation.request.codeChallengeMethod
  userId := creation.userId
  idpId := creation.request.idpId
  createdAt := creation.now
  expiresAt := (checkedAdd creation.now authCodeLifetime).getD creation.now

def isUnreserved (byte : Char) : Bool :=
  byte.isAlphanum || byte = '-' || byte = '.' || byte = '_' || byte = '~'

def validateCodeVerifier (verifier : String) : Except Error Unit :=
  if !(43 ≤ verifier.utf8ByteSize && verifier.utf8ByteSize ≤ 128) then
    .error ⟨.invalidParam, "code_verifier must be 43-128 characters"⟩
  else if !verifier.toList.all isUnreserved then
    .error ⟨.invalidParam, "code_verifier contains invalid characters"⟩
  else .ok ()

structure TokenRequest where
  code : Option String
  redirectUri : Option String
  clientId : Option String
  codeVerifier : Option String
  deriving DecidableEq, Repr

structure Exchange where
  code : String
  clientId : String
  redirectUri : String
  codeVerifier : Option String
  requirePkce : Bool
  deriving DecidableEq, Repr

section Checks

-- `challengeOf` is the base64 of the SHA-256 of a verifier.
variable (challengeOf : String → String)

variable (exchange : Exchange)

variable (session : AuthCodeSession)

def checkChallenge : Except Error AuthCodeSession :=
  match session.codeChallenge with
  | none =>
    if exchange.requirePkce then .error ⟨.forbidden, "the authorization request carried no PKCE code_challenge"⟩
    else .ok session
  | some challenge =>
    match exchange.codeVerifier with
    | none => .error ⟨.forbidden, "code_verifier required for PKCE"⟩
    | some verifier =>
      match validateCodeVerifier verifier with
      | .error error => .error error
      | .ok () =>
        if session.codeChallengeMethod.getD "S256" ≠ "S256" then
          .error ⟨.invalidParam, "Unsupported code_challenge_method"⟩
        else if challengeOf verifier ≠ challenge then .error ⟨.forbidden, "PKCE verification failed"⟩
        else .ok session

/-- What follows the removal; it reads nothing but the session and the clock. -/
def checkSession (now : SystemTime) : Except Error AuthCodeSession :=
  if now > session.expiresAt then .error ⟨.forbidden, "Authorization code has expired"⟩
  else if session.clientId ≠ exchange.clientId then .error ⟨.forbidden, "client_id mismatch"⟩
  else if session.redirectUri ≠ exchange.redirectUri then .error ⟨.forbidden, "redirect_uri mismatch"⟩
  else checkChallenge challengeOf exchange session

structure Fits (now : SystemTime) : Prop where
  client : session.clientId = exchange.clientId
  redirect : session.redirectUri = exchange.redirectUri
  inTime : now ≤ session.expiresAt
  verified : ∀ challenge, session.codeChallenge = some challenge →
    ∃ verifier, exchange.codeVerifier = some verifier ∧ challengeOf verifier = challenge

variable {challengeOf} {exchange : Exchange} {session result : AuthCodeSession} {now : SystemTime}

theorem verified_of_checkChallenge (ok : checkChallenge challengeOf exchange session = .ok result) :
    result = session ∧ ∀ challenge, session.codeChallenge = some challenge →
      ∃ verifier, exchange.codeVerifier = some verifier ∧ challengeOf verifier = challenge := by
  unfold checkChallenge at ok
  cases got : session.codeChallenge with
  | none =>
    simp only [got] at ok
    split at ok
    · cases ok
    · exact ⟨(Except.ok.inj ok).symm, by simp⟩
  | some challenge =>
    simp only [got] at ok
    cases presented : exchange.codeVerifier with
    | none => simp [presented] at ok
    | some verifier =>
      simp only [presented] at ok
      split at ok
      · cases ok
      · split at ok
        · cases ok
        · split at ok
          · cases ok
          next equal =>
            refine ⟨(Except.ok.inj ok).symm, ?_⟩
            rintro challenge' ⟨⟩
            exact ⟨verifier, rfl, not_not.mp equal⟩

theorem fits_of_checkSession (ok : checkSession challengeOf exchange session now = .ok result) :
    result = session ∧ Fits challengeOf exchange session now := by
  unfold checkSession at ok
  split at ok
  · cases ok
  rename_i inTime
  split at ok
  · cases ok
  rename_i client
  split at ok
  · cases ok
  rename_i redirect
  obtain ⟨eq, verified⟩ := verified_of_checkChallenge ok
  exact ⟨eq, not_not.mp client, not_not.mp redirect, not_lt.mp inTime, verified⟩

end Checks

/-! ## Requests at the same time -/

structure Server where
  oidccodeAuthsession : String → Option AuthCodeSession
  created : List Creation

namespace Server

def empty : Server := ⟨fun _ => none, []⟩

def createAuthCode (creation : Creation) (server : Server) : Server :=
  ⟨update server.oidccodeAuthsession creation.code (some creation.session), creation :: server.created⟩

def remove (server : Server) (code : String) : Server :=
  { server with oidccodeAuthsession := update server.oidccodeAuthsession code none }

end Server

open Server

inductive Call where
  | refused (error : Error)
  | reading (exchange : Exchange)
  | removing (exchange : Exchange) (session : AuthCodeSession)
  | unknown (exchange : Exchange) (error : Error)
  | checked (exchange : Exchange) (now : SystemTime) (result : Except Error AuthCodeSession)

/-- `token_authorization_code`, up to the exchange; `oidc_require_pkce` is read with the request. -/
def tokenAuthorizationCode (body : TokenRequest) (requirePkce : Bool) : Call :=
  match body.code, body.redirectUri, body.clientId with
  | none, _, _ => .refused ⟨.invalidParam, "code is required"⟩
  | some _, none, _ => .refused ⟨.invalidParam, "redirect_uri is required"⟩
  | some _, some _, none => .refused ⟨.invalidParam, "client_id is required"⟩
  | some code, some redirectUri, some clientId =>
    .reading { code, clientId, redirectUri, codeVerifier := body.codeVerifier, requirePkce }

variable (challengeOf : String → String)

def exchangeAuthCode (now : SystemTime) (server : Server) : Call → Server × Call
  | .reading exchange =>
    match server.oidccodeAuthsession exchange.code with
    | none => (server, .unknown exchange ⟨.forbidden, "Invalid or expired authorization code"⟩)
    | some session => (server, .removing exchange session)
  | .removing exchange session =>
    (server.remove exchange.code, .checked exchange now (checkSession challengeOf exchange session now))
  | call => (server, call)

abbrev CodeEvent := CallEvent (TokenRequest × Bool) SystemTime Creation

def codeProtocol : Protocol Server Call (TokenRequest × Bool) SystemTime Creation where
  begin request server := (server, tokenAuthorizationCode request.1 request.2)
  advance := exchangeAuthCode challengeOf
  other := createAuthCode

namespace Call

def code : Call → Option String
  | .refused _ => none
  | .reading exchange | .removing exchange _ | .unknown exchange _ | .checked exchange _ _ => some exchange.code

def Returned : Call → Prop
  | .unknown _ _ | .checked _ _ _ => True
  | _ => False

def succeeded : Call → Option String
  | .checked exchange _ (.ok _) => some exchange.code
  | _ => none

theorem code_of_succeeded {c : Call} {code : String} (success : c.succeeded = some code) : c.code = some code := by
  unfold succeeded at success
  split at success
  · exact success
  · cases success

end Call

open Call

def Fresh (state : Calls Server Call) : CodeEvent → Prop
  | .other creation => (∀ earlier ∈ state.shared.created, earlier.code ≠ creation.code) ∧
      ∀ call ∈ state.calls, call.code ≠ some creation.code
  | _ => True

/-- The session an exchange removes is still the one it read. -/
def Call.Undisturbed (server : Server) : Call → Prop
  | .removing exchange session => server.oidccodeAuthsession exchange.code = some session
  | _ => True

instance decidableFresh (state : Calls Server Call) : ∀ event, Decidable (Fresh state event)
  | .other creation => inferInstanceAs (Decidable ((∀ earlier ∈ state.shared.created, earlier.code ≠ creation.code) ∧
      ∀ call ∈ state.calls, call.code ≠ some creation.code))
  | .start _ | .move _ _ => .isTrue trivial

instance decidableUndisturbed (server : Server) : ∀ call : Call, Decidable (call.Undisturbed server)
  | .removing exchange session => inferInstanceAs (Decidable (server.oidccodeAuthsession exchange.code = some session))
  | .refused _ | .reading _ | .unknown _ _ | .checked _ _ _ => .isTrue trivial

abbrev Undisturbed : Calls Server Call → CodeEvent → Prop := Calls.Moves Call.Undisturbed

section Runs

variable (challengeOf : String → String) (server : Server)

def Issued (exchange : Exchange) (session : AuthCodeSession) : Prop :=
  ∃ creation ∈ server.created, creation.code = exchange.code ∧ creation.session = session

def Call.Rightful : Call → Prop
  | .refused _ | .reading _ => True
  | .removing exchange session => Issued server exchange session
  | .unknown exchange _ => server.oidccodeAuthsession exchange.code = none
  | .checked exchange now result => server.oidccodeAuthsession exchange.code = none ∧
      ∀ session, result = .ok session → Issued server exchange session ∧ Fits challengeOf exchange session now

def Server.Grounded : Prop :=
  ∀ code session, server.oidccodeAuthsession code = some session →
    ∃ creation ∈ server.created, creation.code = code ∧ creation.session = session

variable {challengeOf} {server : Server} {call : Call}

theorem Server.Grounded.remove (grounded : server.Grounded) (code : String) : (server.remove code).Grounded := by
  intro o session got
  rcases eq_or_ne o code with rfl | ne
  · simp [Server.remove] at got
  · exact grounded o session (by simpa [Server.remove, ne] using got)

theorem Server.Grounded.createAuthCode (grounded : server.Grounded) (creation : Creation) :
    (server.createAuthCode creation).Grounded := by
  intro code session got
  rcases eq_or_ne code creation.code with rfl | ne
  · exact ⟨creation, mem_cons_self, rfl, by simpa [Server.createAuthCode] using got⟩
  · obtain ⟨old, mem, made⟩ := grounded code session (by simpa [Server.createAuthCode, ne] using got)
    exact ⟨old, mem_cons_of_mem _ mem, made⟩

variable {code : String} {state : Calls Server Call} {e : CodeEvent}

theorem remove_eq_none {o : String} (absent : server.oidccodeAuthsession o = none) :
    (server.remove code).oidccodeAuthsession o = none := by
  rcases eq_or_ne o code with rfl | ne
  · simp [remove]
  · simpa [remove, ne] using absent

theorem Call.Rightful.remove (ok : call.Rightful challengeOf server) (code : String) :
    call.Rightful challengeOf (server.remove code) := by
  cases call with
  | refused _ => trivial
  | reading _ => trivial
  | removing _ _ => exact ok
  | unknown _ _ => exact remove_eq_none ok
  | checked _ _ _ => exact ⟨remove_eq_none ok.1, ok.2⟩

theorem Issued.createAuthCode {exchange : Exchange} {session : AuthCodeSession} (issued : Issued server exchange session)
    (creation : Creation) : Issued (server.createAuthCode creation) exchange session := by
  obtain ⟨old, mem, made⟩ := issued
  exact ⟨old, mem_cons_of_mem _ mem, made⟩

theorem Call.Rightful.createAuthCode (ok : call.Rightful challengeOf server) {creation : Creation}
    (apart : call.code ≠ some creation.code) : call.Rightful challengeOf (server.createAuthCode creation) := by
  have kept {exchange : Exchange} (own : call.code = some exchange.code)
      (absent : server.oidccodeAuthsession exchange.code = none) :
      (server.createAuthCode creation).oidccodeAuthsession exchange.code = none := by
    have ne : exchange.code ≠ creation.code := fun eq => apart (own.trans (congrArg some eq))
    simpa [Server.createAuthCode, ne] using absent
  cases call with
  | refused _ => trivial
  | reading _ => trivial
  | removing _ _ => exact Issued.createAuthCode ok creation
  | unknown _ _ => exact kept rfl ok
  | checked _ _ _ =>
    exact ⟨kept rfl ok.1, fun session passed => (ok.2 session passed).imp_left (·.createAuthCode creation)⟩

abbrev Accounted (challengeOf : String → String) (state : Calls Server Call) : Prop :=
  state.Sound succeeded (fun server _ => server.Grounded) fun _ => Call.Rightful challengeOf

theorem accounted_step (accounted : Accounted challengeOf state) (fresh : Fresh state e) :
    Accounted challengeOf ((codeProtocol challengeOf).step state e) := by
  cases e with
  | start q =>
    have begun : (tokenAuthorizationCode q.1 q.2).succeeded = none ∧
        (tokenAuthorizationCode q.1 q.2).Rightful challengeOf state.shared := by
      unfold tokenAuthorizationCode
      split <;> exact ⟨rfl, trivial⟩
    exact sound_start accounted begun.1 accounted.shared begun.2 fun _ _ _ rightful => rightful
  | move i now =>
    refine step_move_rule accounted fun call got moves => ?_
    have own := accounted.calls i call got
    cases call with
    | refused | unknown | checked => exact absurd rfl moves
    | reading exchange =>
      have read : ∃ next, (codeProtocol challengeOf).advance now state.shared (.reading exchange) = (state.shared, next) ∧
          next.Rightful challengeOf state.shared := by
        simp only [codeProtocol, exchangeAuthCode]
        split
        case h_1 absent => exact ⟨_, rfl, absent⟩
        case h_2 stored => exact ⟨_, rfl, accounted.shared _ _ stored⟩
      obtain ⟨next, read, rightful⟩ := read
      exact sound_pass accounted got rfl read accounted.shared rightful
    | removing exchange session =>
      refine sound_move accounted got rfl (accounted.shared.remove _) ⟨?_, ?_⟩ fun _ _ _ _ rightful =>
        rightful.remove _
      · exact update_self _ _ _
      · intro result passed
        obtain ⟨rfl, fits⟩ := fits_of_checkSession passed
        exact ⟨own, fits⟩
  | other creation =>
    exact sound_other accounted (accounted.shared.createAuthCode creation) fun _ call got rightful =>
      rightful.createAuthCode (fresh.2 call (mem_of_getElem? got))

/-! ### At most one success -/

def Spent (server : Server) (codes : Multiset String) : Prop :=
  codes.Nodup ∧ ∀ code ∈ codes, server.oidccodeAuthsession code = none

theorem spent_step (spent : state.Sound succeeded Spent fun _ _ _ => True) (fresh : Fresh state e)
    (undisturbed : Undisturbed state e) :
    ((codeProtocol challengeOf).step state e).Sound succeeded Spent fun _ _ _ => True := by
  cases e with
  | start q =>
    have begun : (tokenAuthorizationCode q.1 q.2).succeeded = none := by
      unfold tokenAuthorizationCode
      split <;> rfl
    exact sound_start spent begun spent.shared trivial fun _ _ _ _ => trivial
  | move i now =>
    refine step_move_rule spent fun call got moves => ?_
    cases call with
    | refused | unknown | checked => exact absurd rfl moves
    | reading exchange =>
      refine sound_move spent got rfl ?_ trivial fun _ _ _ _ _ => trivial
      simp only [codeProtocol, exchangeAuthCode]
      split <;> simpa [succeeded] using spent.shared
    | removing exchange session =>
      refine sound_move spent got rfl ?_ trivial fun _ _ _ _ _ => trivial
      simp only [codeProtocol, exchangeAuthCode]
      have left (code : String) (mem : code ∈ state.outcomes succeeded) :
          (state.shared.remove exchange.code).oidccodeAuthsession code = none :=
        remove_eq_none (spent.shared.2 code mem)
      cases checkSession challengeOf exchange session now with
      | error _ => simpa [succeeded] using ⟨spent.shared.1, left⟩
      | ok _ =>
        -- The session was still there, so the code is none of those exchanged before.
        have new : exchange.code ∉ state.outcomes succeeded := fun mem => by
          have stored : state.shared.oidccodeAuthsession exchange.code = some session := undisturbed _ got
          rw [spent.shared.2 _ mem] at stored
          cases stored
        constructor
        · simpa [succeeded] using ⟨new, spent.shared.1⟩
        · intro code mem
          rcases Multiset.mem_add.mp mem with own | earlier
          · obtain rfl : code = exchange.code := by simpa [succeeded] using own
            exact update_self _ _ _
          · exact left code earlier
  | other creation =>
    refine sound_other spent ⟨spent.shared.1, fun code mem => ?_⟩ fun _ _ _ _ => trivial
    obtain ⟨call, hit, success⟩ := Calls.mem_outcomes.mp mem
    have ne : code ≠ creation.code := by
      rintro rfl
      exact fresh.2 call hit (code_of_succeeded success)
    simpa [codeProtocol, createAuthCode, ne] using spent.shared.2 code mem

/-! ### Exchanges that begin when another has returned -/

def Call.Empty : Call → Prop
  | .removing _ _ | .checked _ _ _ => False
  | _ => True

/-- An exchange of the code has returned, and those that began later find nothing. -/
structure After (challengeOf : String → String) (code : String) (index count : Nat) (call : Call)
    (state : Calls Server Call) : Prop where
  accounted : Accounted challengeOf state
  returned : state.calls[index]? = some call
  later : ∀ other call', count ≤ other → state.calls[other]? = some call' → call'.code = some code → call'.Empty

theorem Call.Rightful.absent (ok : call.Rightful challengeOf server) (returned : call.Returned)
    (own : call.code = some code) : server.oidccodeAuthsession code = none := by
  cases call with
  | unknown _ _ =>
    obtain rfl := some.inj own
    exact ok
  | checked _ _ _ =>
    obtain rfl := some.inj own
    exact ok.1
  | _ => cases returned

variable {i : Nat} {before after : List CodeEvent} {request : TokenRequest × Bool}

theorem After.step {count : Nat} (after : After challengeOf code i count call state) (returned : call.Returned)
    (own : call.code = some code) (fresh : Fresh state e) :
    After challengeOf code i count call ((codeProtocol challengeOf).step state e) := by
  have absent := (after.accounted.calls i call after.returned).absent returned own
  have through (now : SystemTime) (server : Server) : (codeProtocol challengeOf).advance now server call = (server, call) := by
    cases call with
    | unknown _ _ => rfl
    | checked _ _ _ => rfl
    | _ => cases returned
  refine ⟨accounted_step after.accounted fresh, getElem?_step_of_through after.returned through e, ?_⟩
  have later : state.Sound succeeded (fun _ _ => True) fun other _ call' =>
      count ≤ other → call'.code = some code → call'.Empty :=
    ⟨trivial, fun other call' got bound eq => after.later other call' bound got eq⟩
  suffices kept : ((codeProtocol challengeOf).step state e).Sound succeeded (fun _ _ => True)
      fun other _ call' => count ≤ other → call'.code = some code → call'.Empty from
    fun other call' bound got eq => kept.calls other call' got bound eq
  cases e with
  | start request =>
    have begun : (tokenAuthorizationCode request.1 request.2).succeeded = none ∧
        (tokenAuthorizationCode request.1 request.2).Empty := by
      unfold tokenAuthorizationCode
      split <;> exact ⟨rfl, trivial⟩
    exact sound_start later begun.1 trivial (fun _ _ => begun.2) fun _ _ _ empty => empty
  | move other now =>
    refine step_move_rule later fun moving got moves => ?_
    cases moving with
    | refused | unknown | checked => exact absurd rfl moves
    | reading exchange =>
      refine sound_move later got rfl trivial (fun _ eq => ?_) fun _ _ _ _ empty => empty
      simp only [codeProtocol, exchangeAuthCode] at eq ⊢
      split
      · trivial
      next stored =>
        simp only [stored] at eq
        rw [some.inj eq, absent] at stored
        cases stored
    | removing exchange session =>
      refine sound_move later got rfl trivial (fun bound eq => ?_) fun _ _ _ _ empty => empty
      exact (later.calls other (.removing exchange session) got bound eq).elim
  | other creation => exact sound_other later trivial fun _ _ _ empty => empty

/-! ### Whole runs -/

variable (challengeOf)

abbrev codeRun (events : List CodeEvent) : Calls Server Call := run (codeProtocol challengeOf).step ⟨.empty, []⟩ events

def SucceedsRightly (state : Calls Server Call) : Prop :=
  ∀ exchange now session, checked exchange now (.ok session) ∈ state.calls →
    Issued state.shared exchange session ∧ Fits challengeOf exchange session now

def SucceedOnce (state : Calls Server Call) : Prop :=
  ∀ (first second : Nat) (call call' : Call) (code : String), state.calls[first]? = some call →
    state.calls[second]? = some call' → call.succeeded = some code → call'.succeeded = some code → first = second

variable {challengeOf} {events : List CodeEvent}

theorem accounted_run (fresh : Admits (codeProtocol challengeOf).step Fresh ⟨.empty, []⟩ events) :
    Accounted challengeOf (codeRun challengeOf events) := by
  refine (along_of_keeps (fun _ _ ok fresh => accounted_step ok fresh) ⟨?_, ?_⟩ fresh).last
  · intro _ _ stored
    cases stored
  · intro _ _ got
    cases got

theorem spent_run (fresh : Admits (codeProtocol challengeOf).step Fresh ⟨.empty, []⟩ events)
    (ok : Admits (codeProtocol challengeOf).step Undisturbed ⟨.empty, []⟩ events) :
    (codeRun challengeOf events).Sound succeeded Spent fun _ _ _ => True := by
  refine (along_of_keeps (fun _ _ spent meets => spent_step spent meets.1 meets.2) ⟨?_, fun _ _ _ => trivial⟩
    (admits_and.mpr ⟨fresh, ok⟩)).last
  exact ⟨Multiset.nodup_zero, fun _ mem => absurd mem (Multiset.notMem_zero _)⟩

theorem after_run {call : Call}
    (fresh : Admits (codeProtocol challengeOf).step Fresh ⟨.empty, []⟩ (before ++ .start request :: after))
    (got : (codeRun challengeOf before).calls[i]? = some call) (returned : call.Returned)
    (own : call.code = some code) : After challengeOf code i (codeRun challengeOf before).calls.length call
      (codeRun challengeOf (before ++ .start request :: after)) := by
  obtain ⟨a, rest⟩ := admits_append.mp fresh
  have initially : After challengeOf code i (codeRun challengeOf before).calls.length call (codeRun challengeOf before) := by
    refine ⟨accounted_run a, got, fun o call' le hit _ => ?_⟩
    rw [getElem?_eq_none le] at hit
    cases hit
  have whole : codeRun challengeOf (before ++ .start request :: after) =
      run (codeProtocol challengeOf).step (codeRun challengeOf before) (.start request :: after) := run_append _ _ _
  rw [whole]
  exact (along_of_keeps (fun _ _ after fresh => after.step returned own fresh) initially rest).last

theorem code_tokenAuthorizationCode (body : TokenRequest) (requirePkce : Bool) :
    (tokenAuthorizationCode body requirePkce).code = none ∨ (tokenAuthorizationCode body requirePkce).code = body.code := by
  unfold tokenAuthorizationCode
  split <;> simp_all [code]

theorem code_advance (now : SystemTime) (server : Server) (call : Call) :
    ((codeProtocol challengeOf).advance now server call).2.code = call.code := by
  cases call with
  | reading exchange =>
    simp only [codeProtocol, exchangeAuthCode]
    split <;> rfl
  | _ => rfl

theorem code_of_start {own : Call}
    (got : (codeRun challengeOf (before ++ .start request :: after)).calls[(codeRun challengeOf before).calls.length]? = some own)
    (presents : own.code = some code) : request.1.code = some code := by
  have whole : codeRun challengeOf (before ++ .start request :: after) =
      run (codeProtocol challengeOf).step ((codeProtocol challengeOf).step (codeRun challengeOf before) (.start request)) after :=
    run_append _ _ _
  have pre : (((codeProtocol challengeOf).step (codeRun challengeOf before) (.start request)).calls[
      (codeRun challengeOf before).calls.length]?).map Call.code = some (tokenAuthorizationCode request.1 request.2).code := by
    simp [step, codeProtocol]
  have begun := map_getElem?_run (@code_advance challengeOf) after pre
  rw [← whole, got, map_some, presents, some_inj] at begun
  rcases code_tokenAuthorizationCode request.1 request.2 with refused | eq
  · cases begun.trans refused
  · exact eq.symm.trans begun.symm

/-- When the codes drawn are new, what succeeds fits what the code was created with, and an exchange that begins when
another of its code has returned does not succeed; and if no exchange is disturbed between its read and its removal, no
code is exchanged twice. -/
theorem codes_single_use (challengeOf : String → String) (events : List CodeEvent)
    (fresh : Admits (codeProtocol challengeOf).step Fresh ⟨.empty, []⟩ events) :
    SucceedsRightly challengeOf (codeRun challengeOf events) ∧
    (∀ before request after, events = before ++ .start request :: after →
      ∀ call ∈ (codeRun challengeOf before).calls, call.Returned → call.code = request.1.code →
        ∀ own, (codeRun challengeOf events).calls[(codeRun challengeOf before).calls.length]? = some own →
          own.succeeded = none) ∧
    (Admits (codeProtocol challengeOf).step Undisturbed ⟨.empty, []⟩ events →
      SucceedOnce (codeRun challengeOf events)) := by
  refine ⟨?_, ?_, fun ok => ?_⟩
  · intro exchange now session mem
    obtain ⟨i, found⟩ := mem_iff_getElem?.mp mem
    exact ((accounted_run fresh).calls i _ found).2 session rfl
  · rintro before request after rfl call mem returned eq own found
    obtain ⟨i, returnedAt⟩ := mem_iff_getElem?.mp mem
    by_contra success
    obtain ⟨code, success⟩ := ne_none_iff_exists'.mp success
    have presents := code_of_succeeded success
    have empty := (after_run fresh returnedAt returned (eq.trans (code_of_start found presents))).later _ own le_rfl found
      presents
    cases own with
    | checked _ _ _ => cases empty
    | _ => cases success
  · intro a b call call' code found found' success success'
    exact Calls.index_eq_of_nodup (Multiset.coe_nodup.mp (spent_run fresh ok).shared.1) found found' success success'

end Runs

section Story

def someVerifier : String := "verifier-verifier-verifier-verifier-verifier"

/-- The base64 of the SHA-256 of `someVerifier`, the only verifier here. -/
def someChallengeOf (verifier : String) : String :=
  if verifier = someVerifier then "fD3GLJ_KzCDB0w6uDOSFNNdflrHwtv8Cizh6P5pJkfQ" else ""

def someCreation : Creation where
  request := { clientId := "client", redirectUri := "app://back", scope := "openid", state := none, nonce := none,
               codeChallenge := some "fD3GLJ_KzCDB0w6uDOSFNNdflrHwtv8Cizh6P5pJkfQ", codeChallengeMethod := none, idpId := none }
  userId := "@user:host"
  now := 1000
  code := "code"

def someRequest : TokenRequest where
  code := some "code"
  redirectUri := some "app://back"
  clientId := some "client"
  codeVerifier := some someVerifier

def inTurn : List CodeEvent :=
  [.other someCreation, .start (someRequest, true), .move 0 2000, .move 0 3000, .start (someRequest, true), .move 1 4000]

theorem codes_single_use_in_turn : (codeRun someChallengeOf inTurn).calls.map succeeded = [some "code", none] ∧
      SucceedOnce (codeRun someChallengeOf inTurn) := by
  refine ⟨by decide +kernel, (codes_single_use someChallengeOf inTurn ?_).2.2 ?_⟩ <;> decide +kernel

/-- Two requests that both read the session before either removes it. -/
def atOnce : List CodeEvent :=
  [.other someCreation, .start (someRequest, true), .start (someRequest, true), .move 0 2000, .move 1 2000, .move 0 3000,
    .move 1 3000]

/-- Both get the session of the code. -/
theorem code_exchanged_twice : Admits (codeProtocol someChallengeOf).step Fresh ⟨.empty, []⟩ atOnce ∧
      (codeRun someChallengeOf atOnce).calls.map succeeded = [some "code", some "code"] ∧
      ¬SucceedOnce (codeRun someChallengeOf atOnce) := by
  have both : (codeRun someChallengeOf atOnce).calls.map succeeded = [some "code", some "code"] := by decide +kernel
  refine ⟨by decide +kernel, both, fun once => ?_⟩
  have got (i : Nat) (mem : [some "code", some "code"][i]? = some (some "code")) :
      ∃ c, (codeRun someChallengeOf atOnce).calls[i]? = some c ∧ c.succeeded = some "code" := by
    rw [← both] at mem
    simpa using mem
  obtain ⟨c, a, success⟩ := got 0 rfl
  obtain ⟨c', b, success'⟩ := got 1 rfl
  cases once 0 1 c c' "code" a b success success'

end Story

end Wbfuwunel.OAuth
