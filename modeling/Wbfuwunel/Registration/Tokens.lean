import Wbfuwunel.Foundation.Calls
import Wbfuwunel.Foundation.Saturating

/-! Registration tokens: `service/registration_tokens/data.rs`.

The row of a token counts its uses. Every operation reads the row first, and what it writes or removes is decided by
what it read.
-/

set_option autoImplicit false

namespace Wbfuwunel.Registration

open Foundation List Function Option Protocol

/-- Nanoseconds since the epoch. -/
abbrev SystemTime := Nat

structure TokenExpires where
  maxUses : Option UInt64
  maxAge : Option SystemTime
  deriving DecidableEq, Repr

structure DatabaseTokenInfo where
  uses : UInt64
  expires : TokenExpires
  deriving DecidableEq, Repr

namespace DatabaseTokenInfo

def new (expires : TokenExpires) : DatabaseTokenInfo := { uses := 0, expires }

def exhausted (info : DatabaseTokenInfo) : Bool := info.expires.maxUses.any fun maxUses => info.uses ≥ maxUses

def isValid (info : DatabaseTokenInfo) (now : SystemTime) : Bool :=
  if info.exhausted then false
  else if info.expires.maxAge.any fun maxAge => now > maxAge then false
  else true

theorem not_exhausted_of_isValid {info : DatabaseTokenInfo} {now : SystemTime} (valid : info.isValid now) :
    info.exhausted = false := by
  unfold isValid at valid
  split at valid
  · cases valid
  next left =>
    exact Bool.eq_false_iff.mpr left

end DatabaseTokenInfo

open DatabaseTokenInfo

structure Tokens where
  registrationtokenInfo : String → Option DatabaseTokenInfo
  limits : String → List (Option UInt64)

namespace Tokens

variable (tokens : Tokens) (token : String)

def put (info : DatabaseTokenInfo) : Tokens :=
  { tokens with registrationtokenInfo := update tokens.registrationtokenInfo token (some info) }

def remove : Tokens :=
  { tokens with registrationtokenInfo := update tokens.registrationtokenInfo token none }

def limit (limits : List (Option UInt64)) : Tokens :=
  { tokens with limits := update tokens.limits token limits }

def saveToken (expires : TokenExpires) : Except String DatabaseTokenInfo × Tokens :=
  match tokens.registrationtokenInfo token with
  | none => (.ok (.new expires), (tokens.put token (.new expires)).limit token [expires.maxUses])
  | some _ => (.error "Registration token already exists", tokens)

end Tokens

open Tokens

inductive Operation where
  | check (consume : Bool)
  | update (expires : TokenExpires)
  /-- What a pass of `iterate_and_clean_tokens` does when it comes to the token. -/
  | clean
  | revoke
  deriving DecidableEq, Repr

inductive Outcome where
  | checked (valid : Bool)
  | updated (info : DatabaseTokenInfo)
  | listed (info : Option DatabaseTokenInfo)
  | revoked
  | error (message : String)
  deriving DecidableEq, Repr

def Operation.absent : Operation → Outcome
  | .check _ => .checked false
  | .update _ | .revoke => .error "Registration token not found"
  | .clean => .listed none

/-- What an operation does once it has read `info`; a consuming check reads the clock a second time. -/
def Operation.act (now later : SystemTime) (tokens : Tokens) (token : String) (info : DatabaseTokenInfo) :
    Operation → Tokens × Outcome
  | .check consume =>
    if !info.isValid now then (tokens.remove token, .checked false)
    else if consume then
      let used := { info with uses := saturatingAdd64 info.uses 1 }
      if used.isValid later then (tokens.put token used, .checked true) else (tokens.remove token, .checked true)
    else (tokens, .checked true)
  | .update expires =>
    ((tokens.put token { info with expires }).limit token (expires.maxUses :: tokens.limits token),
      .updated { info with expires })
  | .clean => if info.isValid now then (tokens, .listed (some info)) else (tokens.remove token, .listed none)
  | .revoke => (tokens.remove token, .revoked)

inductive Call where
  | reading (token : String) (operation : Operation)
  | acting (token : String) (operation : Operation) (info : DatabaseTokenInfo)
  | done (token : String) (operation : Operation) (outcome : Outcome)
  deriving DecidableEq, Repr

def advance (clock : SystemTime × SystemTime) (tokens : Tokens) : Call → Tokens × Call
  | .reading token operation =>
    match tokens.registrationtokenInfo token with
    | none => (tokens, .done token operation operation.absent)
    | some info => (tokens, .acting token operation info)
  | .acting token operation info =>
    ((operation.act clock.1 clock.2 tokens token info).1,
      .done token operation (operation.act clock.1 clock.2 tokens token info).2)
  | .done token operation outcome => (tokens, .done token operation outcome)

abbrev TokenEvent := CallEvent (String × Operation) (SystemTime × SystemTime) Empty

def tokenProtocol : Protocol Tokens Call (String × Operation) (SystemTime × SystemTime) Empty where
  begin request tokens := (tokens, .reading request.1 request.2)
  advance := advance
  other event := event.elim

section OneToken

variable (token : String)

def Call.consumed : Call → Option Unit
  | .done other (.check true) (.checked true) => if other = token then some () else none
  | _ => none

def consumed (state : Calls Tokens Call) : Nat := (state.outcomes (Call.consumed token)).card

/-- What a call is about to write is no older than the row: a consuming check finds the row it read, and counts on; an
update finds the uses it read. -/
def Call.Undisturbed (tokens : Tokens) : Call → Prop
  | .acting other (.check true) info =>
    other = token → tokens.registrationtokenInfo token = some info ∧ info.uses ≠ 0xFFFFFFFFFFFFFFFF
  | .acting other (.update _) info => other = token → (tokens.registrationtokenInfo token).map (·.uses) = some info.uses
  | _ => True

instance decidableUndisturbed (tokens : Tokens) : ∀ call : Call, Decidable (call.Undisturbed token tokens)
  | .acting other (.check true) info => inferInstanceAs (Decidable
      (other = token → tokens.registrationtokenInfo token = some info ∧ info.uses ≠ 0xFFFFFFFFFFFFFFFF))
  | .acting other (.update _) info => inferInstanceAs (Decidable
      (other = token → (tokens.registrationtokenInfo token).map (·.uses) = some info.uses))
  | .acting _ (.check false) _ | .acting _ .clean _ | .acting _ .revoke _ | .reading _ _ | .done _ _ _ => .isTrue trivial

inductive Effect (state next : Calls Tokens Call) : Prop where
  | kept (row : next.shared.registrationtokenInfo token = none ∨
        next.shared.registrationtokenInfo token = state.shared.registrationtokenInfo token)
      (limits : next.shared.limits token = state.shared.limits token) (count : consumed token next = consumed token state)
  | updated (info : DatabaseTokenInfo) (expires : TokenExpires)
      (found : state.shared.registrationtokenInfo token = some info)
      (row : next.shared.registrationtokenInfo token = some { info with expires })
      (limits : next.shared.limits token = expires.maxUses :: state.shared.limits token)
      (count : consumed token next = consumed token state)
  | used (info : DatabaseTokenInfo) (found : state.shared.registrationtokenInfo token = some info)
      (left : info.exhausted = false) (bound : info.uses ≠ 0xFFFFFFFFFFFFFFFF)
      (row : next.shared.registrationtokenInfo token = none ∨
        next.shared.registrationtokenInfo token = some { info with uses := saturatingAdd64 info.uses 1 })
      (limits : next.shared.limits token = state.shared.limits token)
      (count : consumed token next = consumed token state + 1)

variable {token} {other : String} {operation : Operation} {info : DatabaseTokenInfo}

theorem act_elsewhere (ne : token ≠ other) (now later : SystemTime) (tokens : Tokens) (info : DatabaseTokenInfo)
    (operation : Operation) :
    (operation.act now later tokens other info).1.registrationtokenInfo token = tokens.registrationtokenInfo token ∧
      (operation.act now later tokens other info).1.limits token = tokens.limits token := by
  cases operation with
  | check consume =>
    simp only [Operation.act]
    split
    · simp [remove, ne]
    · split
      · split <;> simp [put, remove, ne]
      · exact ⟨rfl, rfl⟩
  | update expires => simp [Operation.act, put, limit, ne]
  | clean =>
    simp only [Operation.act]
    split <;> simp [remove, ne]
  | revoke => simp [Operation.act, remove, ne]

variable {state : Calls Tokens Call} {i : Nat} {clock : SystemTime × SystemTime}

theorem consumed_move (token : String) (clock : SystemTime × SystemTime) {c : Call} (got : state.calls[i]? = some c) (pending : c.consumed token = none) :
    consumed token (tokenProtocol.step state (.move i clock)) =
      (((advance clock state.shared c).2.consumed token).toList.length) + consumed token state := by
  rw [consumed, outcomes_move got pending, Multiset.card_add]
  rfl

theorem effect_reading (got : state.calls[i]? = some (.reading other operation)) :
    Effect token state (tokenProtocol.step state (.move i clock)) := by
  have n := consumed_move token clock got rfl
  rw [step_move got] at n ⊢
  have quiet : (advance clock state.shared (.reading other operation)).1 = state.shared ∧
      (advance clock state.shared (.reading other operation)).2.consumed token = none := by
    simp only [advance]
    split
    · refine ⟨rfl, ?_⟩
      cases operation with
      | check consume => cases consume <;> rfl
      | _ => rfl
    · exact ⟨rfl, rfl⟩
  refine .kept (.inr ?_) ?_ ?_
  · exact congrFun (congrArg registrationtokenInfo quiet.1) token
  · exact congrFun (congrArg limits quiet.1) token
  · rw [n, quiet.2]
    exact Nat.zero_add _

theorem effect_consume (got : state.calls[i]? = some (.acting token (.check true) info))
    (row : state.shared.registrationtokenInfo token = some info) (le : info.uses ≠ 0xFFFFFFFFFFFFFFFF) :
    Effect token state (tokenProtocol.step state (.move i clock)) := by
  have n := consumed_move token clock got rfl
  rw [step_move got] at n ⊢
  by_cases valid : info.isValid clock.1
  · by_cases again : { info with uses := saturatingAdd64 info.uses 1 : DatabaseTokenInfo }.isValid clock.2
    · refine .used info row (not_exhausted_of_isValid valid) le (.inr ?_) ?_ ?_
      · simp [tokenProtocol, advance, Operation.act, valid, again, put]
      · simp [tokenProtocol, advance, Operation.act, valid, again, put]
      · simp [n, advance, Operation.act, valid, again, Call.consumed, Nat.add_comm]
    · refine .used info row (not_exhausted_of_isValid valid) le (.inl ?_) ?_ ?_
      · simp [tokenProtocol, advance, Operation.act, valid, again, remove]
      · simp [tokenProtocol, advance, Operation.act, valid, again, remove]
      · simp [n, advance, Operation.act, valid, again, Call.consumed, Nat.add_comm]
  · refine .kept (.inl ?_) ?_ ?_
    · simp [tokenProtocol, advance, Operation.act, valid, remove]
    · simp [tokenProtocol, advance, Operation.act, valid, remove]
    · simp [n, advance, Operation.act, valid, Call.consumed]

theorem effect_acting (got : state.calls[i]? = some (.acting token operation info))
    (other : operation ≠ .check true) (ok : (Call.acting token operation info).Undisturbed token state.shared) :
    Effect token state (tokenProtocol.step state (.move i clock)) := by
  have unused : (advance clock state.shared (.acting token operation info)).2.consumed token = none := by
    cases operation with
    | check consume =>
      cases consume with
      | true => exact absurd rfl other
      | false => rfl
    | _ => rfl
  have n := consumed_move token clock got rfl
  rw [unused, toList_none, length_nil, Nat.zero_add] at n
  rw [step_move got] at n ⊢
  cases operation with
  | check consume =>
    cases consume with
    | true => exact absurd rfl other
    | false =>
      by_cases valid : info.isValid clock.1 <;> refine .kept ?_ ?_ n <;>
        simp [tokenProtocol, advance, Operation.act, valid, remove]
  | update expires =>
    obtain ⟨stored, row, uses⟩ := map_eq_some_iff.mp (ok rfl)
    refine .updated stored expires row ?_ ?_ n <;>
      simp [tokenProtocol, advance, Operation.act, put, limit, uses]
  | clean =>
    by_cases valid : info.isValid clock.1 <;> refine .kept ?_ ?_ n <;>
      simp [tokenProtocol, advance, Operation.act, valid, remove]
  | revoke => refine .kept (.inl ?_) ?_ n <;> simp [tokenProtocol, advance, Operation.act, remove]

theorem effect_elsewhere (ne : token ≠ other) (got : state.calls[i]? = some (.acting other operation info)) :
    Effect token state (tokenProtocol.step state (.move i clock)) := by
  have n := consumed_move token clock got rfl
  rw [step_move got] at n ⊢
  obtain ⟨row, limits⟩ := act_elsewhere ne clock.1 clock.2 state.shared info operation
  refine .kept (.inr row) limits (n.trans ?_)
  have none : ((advance clock state.shared (.acting other operation info)).2.consumed token) = none := by
    simp only [advance, Call.consumed]
    split
    next eq =>
      simp only [Call.done.injEq] at eq
      rw [← eq.1, if_neg (Ne.symm ne)]
    · rfl
  rw [none]
  exact Nat.zero_add _

theorem effect_step {e : TokenEvent} (undisturbed : Calls.Moves (Call.Undisturbed token) state e) :
    Effect token state (tokenProtocol.step state e) := by
  cases e with
  | start req => exact .kept (.inr rfl) rfl (congrArg Multiset.card (outcomes_start rfl))
  | move i clock =>
    refine step_move_rule (.kept (.inr rfl) rfl rfl) fun c got moves => ?_
    cases c with
    | reading other operation => exact effect_reading got
    | acting other operation info =>
      have meets := undisturbed _ got
      rcases ne_or_eq token other with ne | rfl
      · exact effect_elsewhere ne got
      · by_cases consuming : operation = .check true
        · subst consuming
          obtain ⟨row, bound⟩ := meets rfl
          exact effect_consume got row bound
        · exact effect_acting got consuming meets
    | done other operation outcome => exact absurd rfl moves
  | other e => exact e.elim

/-! ## Whole runs -/

/-- The row counts the uses, and no limit the token has had is overrun. -/
structure Counted (token : String) (state : Calls Tokens Call) : Prop where
  uses : ∀ info, state.shared.registrationtokenInfo token = some info → info.uses.toNat = consumed token state
  known : ∀ info, state.shared.registrationtokenInfo token = some info → info.expires.maxUses ∈ state.shared.limits token
  within : ∀ bound : Nat, (∀ limit ∈ state.shared.limits token, ∃ maxUses, limit = some maxUses ∧ maxUses.toNat ≤ bound) →
    consumed token state ≤ bound

theorem Counted.step {next : Calls Tokens Call} (ok : Counted token state) (effect : Effect token state next) :
    Counted token next := by
  cases effect with
  | kept row limits n =>
    have old {info : DatabaseTokenInfo} (stored : next.shared.registrationtokenInfo token = some info) :=
      (row.resolve_left fun gone => by cases gone.symm.trans stored).symm.trans stored
    refine ⟨fun info stored => ?_, fun info stored => ?_, by rw [limits, n]; exact ok.within⟩
    · rw [n, ok.uses info (old stored)]
    · rw [limits]
      exact ok.known info (old stored)
  | updated info expires got row limits n =>
    refine ⟨?_, ?_, ?_⟩
    · intro stored eq
      obtain rfl := some.inj (row.symm.trans eq)
      rw [n]
      exact ok.uses info got
    · intro stored eq
      obtain rfl := some.inj (row.symm.trans eq)
      rw [limits]
      exact mem_cons_self
    · intro le lt
      rw [n]
      rw [limits] at lt
      exact ok.within le fun limit mem => lt limit (mem_cons_of_mem _ mem)
  | used info got left le row limits n =>
    have small := info.uses.toNat_lt
    have apart : info.uses.toNat ≠ 2 ^ 64 - 1 := fun eq => le (UInt64.toNat.inj eq)
    have used {stored : DatabaseTokenInfo} (eq : next.shared.registrationtokenInfo token = some stored) :=
      some.inj ((row.resolve_left fun gone => by cases gone.symm.trans eq).symm.trans eq)
    refine ⟨fun stored eq => ?_, fun stored eq => ?_, ?_⟩
    · rw [n, ← ok.uses info got, ← used eq, saturatingAdd64_toNat]
      simp only [UInt64.toNat_one]
      omega
    · rw [limits, ← used eq]
      exact ok.known info got
    · intro most lt
      rw [limits] at lt
      obtain ⟨maxUses, limited, bounded⟩ := lt _ (ok.known info got)
      have remains : info.uses.toNat < maxUses.toNat := by
        simpa [exhausted, limited, UInt64.lt_iff_toNat_lt] using left
      rw [n, ← ok.uses info got]
      omega

theorem Effect.gone {next : Calls Tokens Call} (effect : Effect token state next)
    (gone : state.shared.registrationtokenInfo token = none) :
    next.shared.registrationtokenInfo token = none ∧ consumed token next = consumed token state := by
  cases effect with
  | kept row _ n => exact ⟨row.elim id (·.trans gone), n⟩
  | updated info _ got => cases gone.symm.trans got
  | used info got => cases gone.symm.trans got

abbrev saved (tokens : Tokens) (token : String) (expires : TokenExpires) : Calls Tokens Call :=
  ⟨(tokens.saveToken token expires).2, []⟩

theorem counted_saved {tokens : Tokens} {expires : TokenExpires} (new : tokens.registrationtokenInfo token = none) :
    Counted token (saved tokens token expires) := by
  have none : consumed token (saved tokens token expires) = 0 := rfl
  have save : (saved tokens token expires).shared = (tokens.put token (.new expires)).limit token [expires.maxUses] := by
    simp [saveToken, new]
  refine ⟨?_, ?_, fun le _ => none ▸ Nat.zero_le le⟩
  · intro info got
    rw [save] at got
    obtain rfl : DatabaseTokenInfo.new expires = info := by simpa [put, limit] using got
    rfl
  · intro info got
    rw [save] at got ⊢
    obtain rfl : DatabaseTokenInfo.new expires = info := by simpa [put, limit] using got
    simp [limit, DatabaseTokenInfo.new]

/-- Consuming checks of a saved token return true no more often than the largest limit it has had; the row counts them;
each finds the token stored and not exhausted; and once the token is gone, by its last use or by a removal, none does. -/
theorem uses_within_limits (tokens : Tokens) (token : String) (expires : TokenExpires)
    (new : tokens.registrationtokenInfo token = none) (events : List TokenEvent)
    (undisturbed : Admits tokenProtocol.step (Calls.Moves (Call.Undisturbed token)) (saved tokens token expires) events) :
    let after := run tokenProtocol.step (saved tokens token expires)
    (∀ le : Nat, (∀ limit ∈ (after events).shared.limits token, ∃ maxUses, limit = some maxUses ∧ maxUses.toNat ≤ le) →
      consumed token (after events) ≤ le) ∧
    (∀ info, (after events).shared.registrationtokenInfo token = some info →
      info.uses.toNat = consumed token (after events)) ∧
    (∀ old e later, events = old ++ e :: later → consumed token (after (old ++ [e])) ≠ consumed token (after old) →
      ∃ info, (after old).shared.registrationtokenInfo token = some info ∧ info.exhausted = false) ∧
    (∀ old later, events = old ++ later → (after old).shared.registrationtokenInfo token = none →
      (after events).shared.registrationtokenInfo token = none ∧
        consumed token (after events) = consumed token (after old)) := by
  intro after
  have ok : Counted token (after events) :=
    (along_of_keeps (fun _ _ ok meets => ok.step (effect_step meets)) (counted_saved new) undisturbed).last
  refine ⟨ok.within, ok.uses, ?_, ?_⟩
  · rintro old e later rfl counts
    obtain ⟨-, meets, -⟩ := admits_append.mp undisturbed
    have effect := effect_step meets
    have last : after (old ++ [e]) = tokenProtocol.step (after old) e := run_append _ _ _
    rw [last] at counts
    cases effect with
    | kept _ _ n => exact absurd n counts
    | updated _ _ _ _ _ n => exact absurd n counts
    | used info got left => exact ⟨info, got, left⟩
  · rintro old later rfl gone
    obtain ⟨-, rest⟩ := admits_append.mp undisturbed
    have whole : after (old ++ later) = run tokenProtocol.step (after old) later := run_append _ _ _
    rw [whole]
    have along : Along tokenProtocol.step (fun state => state.shared.registrationtokenInfo token = none ∧
        consumed token state = consumed token (after old)) (after old) later := by
      refine along_of_keeps (fun state e away meets => ?_) ⟨gone, rfl⟩ rest
      exact ((effect_step meets).gone away.1).imp_right fun eq => eq.trans away.2
    exact along.last

end OneToken

section Story

def noTokens : Tokens := ⟨fun _ => none, fun _ => []⟩

def inTurn : List TokenEvent :=
  [.start ("t", .check true), .move 0 (1, 1), .move 0 (1, 1), .start ("t", .check true), .move 1 (2, 2), .move 1 (2, 2),
    .start ("t", .check true), .move 2 (3, 3)]

theorem uses_within_limits_in_turn :
    consumed "t" (run tokenProtocol.step (saved noTokens "t" ⟨some 2, none⟩) inTurn) = 2 ∧
      consumed "t" (run tokenProtocol.step (saved noTokens "t" ⟨some 2, none⟩) inTurn) ≤ 2 := by
  refine ⟨by decide +kernel, (uses_within_limits noTokens "t" ⟨some 2, none⟩ rfl inTurn (by decide +kernel)).1 2 ?_⟩
  have limits : (run tokenProtocol.step (saved noTokens "t" ⟨some 2, none⟩) inTurn).shared.limits "t" = [some 2] := by
    decide +kernel
  intro limit mem
  obtain rfl := mem_singleton.mp (limits ▸ mem)
  exact ⟨2, rfl, le_refl _⟩

/-- Two checks read the row of a token for one use before either removes it. -/
def atOnce : List TokenEvent :=
  [.start ("t", .check true), .start ("t", .check true), .move 0 (1, 1), .move 1 (1, 1), .move 0 (1, 1), .move 1 (1, 1)]

/-- An update reads the row, the token is revoked, the update writes the row back, and a check uses it. -/
def revived : List TokenEvent :=
  [.start ("t", .update ⟨some 1, none⟩), .move 0 (1, 1), .start ("t", .revoke), .move 1 (1, 1), .move 1 (1, 1), .move 0 (1, 1),
    .start ("t", .check true), .move 2 (1, 1), .move 2 (1, 1)]

theorem token_used_twice :
    (run tokenProtocol.step (saved noTokens "t" ⟨some 1, none⟩) atOnce).shared.limits "t" = [some 1] ∧
      consumed "t" (run tokenProtocol.step (saved noTokens "t" ⟨some 1, none⟩) atOnce) = 2 ∧
      (run tokenProtocol.step (saved noTokens "t" ⟨some 1, none⟩) (revived.take 5)).shared.registrationtokenInfo "t" = none ∧
      consumed "t" (run tokenProtocol.step (saved noTokens "t" ⟨some 1, none⟩) (revived.take 5)) = 0 ∧
      consumed "t" (run tokenProtocol.step (saved noTokens "t" ⟨some 1, none⟩) revived) = 1 := by
  decide +kernel

end Story

end Wbfuwunel.Registration
