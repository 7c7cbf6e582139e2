import Wbfuwunel.Rooms.Timeline

/-! What the effects of an appended event come to: which tables each one touches, and with what. -/

set_option autoImplicit false

namespace Wbfuwunel.Rooms

open Foundation MediaRefs Function Option Content Server

/-! ## A redaction -/

namespace Server

variable (server : Server) (env : Env) {eventId : EventId} {pduId : PduId} {pdu : Pdu}

def retired (eventId : EventId) (pduId : PduId) (pdu : Pdu) (short : Nat) : Server :=
  (server.saveOriginalPdu env eventId pdu).2.deindexBody env short pduId pdu

theorem saveOriginalPdu_eq (eventId : EventId) (pdu : Pdu) : (server.saveOriginalPdu env eventId pdu).2 = { server with
    eventidOriginalpdu := (server.saveOriginalPdu env eventId pdu).2.eventidOriginalpdu } := by
  unfold saveOriginalPdu
  repeat' split
  all_goals rfl

theorem deindexBody_eq (k : Nat) (pduId : PduId) (pdu : Pdu) : server.deindexBody env k pduId pdu = { server with
    tokenids := (server.deindexBody env k pduId pdu).tokenids } := by
  unfold deindexBody
  cases pdu.content.body.asStr <;> rfl

theorem retired_eq (eventId : EventId) (pduId : PduId) (pdu : Pdu) (k : Nat) :
    server.retired env eventId pduId pdu k = { server with
      eventidOriginalpdu := (server.saveOriginalPdu env eventId pdu).2.eventidOriginalpdu
      tokenids := (server.retired env eventId pduId pdu k).tokenids } := by
  unfold retired
  rw [deindexBody_eq, saveOriginalPdu_eq]

theorem deleteTypedRelation_eq (pduId : PduId) (pdu : Pdu) : server.deleteTypedRelation pduId pdu = { server with
    relatestoTyped := (server.deleteTypedRelation pduId pdu).relatestoTyped } := by
  unfold deleteTypedRelation deleteTypedRelation.delete
  repeat' split
  all_goals rfl

def rewritten (eventId : EventId) (pduId : PduId) (pdu : Pdu) (short : Nat) (rules : RoomRules) (reason : Pdu) : Server :=
  (((server.retired env eventId pduId pdu short).deleteTypedRelation pduId pdu).replacePdu pduId
    (stripped pdu rules reason)).2

theorem redactPdu_of_stored (loc : server.eventidPduid eventId = some pduId)
    (got : server.pduidPdu pduId = some pdu) (reason : Pdu) (k : Nat) :
    (∃ error, server.redactPdu env eventId reason k = (.error error, server.retired env eventId pduId pdu k) ∧
      ∀ rules, (server.rooms pdu.roomId).version.bind env.rules ≠ some rules) ∨
    (∃ rules, server.redactPdu env eventId reason k = (.ok (), pdu.unsigned.positions.elim
        (server.rewritten env eventId pduId pdu k rules reason) fun positions =>
          (server.rewritten env eventId pduId pdu k rules reason).moveMedia pdu.roomId positions
            (server.saveOriginalPdu env eventId pdu).1) ∧
      (server.rooms pdu.roomId).version.bind env.rules = some rules) := by
  have rooms : (server.retired env eventId pduId pdu k).rooms = server.rooms := by rw [retired_eq]
  have hit : ((server.retired env eventId pduId pdu k).deleteTypedRelation pduId pdu).pduidPdu pduId ≠ none := by
    rw [deleteTypedRelation_eq, retired_eq]
    simp [got]
  have replaced : ∀ next, ((server.retired env eventId pduId pdu k).deleteTypedRelation pduId pdu).replacePdu pduId
      next = (.ok (), (((server.retired env eventId pduId pdu k).deleteTypedRelation pduId pdu).replacePdu pduId
        next).2) := by
    intro next
    simp only [replacePdu, if_neg hit]
  unfold redactPdu
  simp only [loc, got]
  rw [← retired, getRoomRules, rooms]
  cases v : (server.rooms pdu.roomId).version with
  | none => exact .inl ⟨_, rfl, by simp⟩
  | some name =>
    cases known : env.rules name with
    | none =>
      simp only [known]
      exact .inl ⟨_, rfl, by simp [known]⟩
    | some rules =>
      refine .inr ⟨rules, ?_, by simp [known]⟩
      simp only [known]
      rw [replaced, rewritten]

theorem rewritten_pduidPdu (got : server.pduidPdu pduId = some pdu) (eventId : EventId) (k : Nat)
    (rules : RoomRules) (reason : Pdu) : (server.rewritten env eventId pduId pdu k rules reason).pduidPdu =
      update server.pduidPdu pduId (some (stripped pdu rules reason)) := by
  have rows : ((server.retired env eventId pduId pdu k).deleteTypedRelation pduId pdu).pduidPdu = server.pduidPdu := by
    rw [deleteTypedRelation_eq, retired_eq]
  simp only [rewritten, replacePdu, rows, got, reduceCtorEq, if_false]

theorem rewritten_eq (eventId : EventId) (pduId : PduId) (pdu : Pdu) (k : Nat) (rules : RoomRules) (reason : Pdu) :
    server.rewritten env eventId pduId pdu k rules reason = { server.retired env eventId pduId pdu k with
      pduidPdu := (server.rewritten env eventId pduId pdu k rules reason).pduidPdu
      relatestoTyped := (server.rewritten env eventId pduId pdu k rules reason).relatestoTyped } := by
  unfold rewritten replacePdu
  rw [deleteTypedRelation_eq]
  split <;> rfl

/-- The tables of another server that a redaction writes, in place of one's own. -/
def withRedaction (source : Server) : Server := { server with
  eventidOriginalpdu := source.eventidOriginalpdu
  tokenids := source.tokenids
  pduidPdu := source.pduidPdu
  relatestoTyped := source.relatestoTyped
  mediaRefs := source.mediaRefs }

theorem redactPdu_eq (eventId : EventId) (reason : Pdu) (k : Nat) : (server.redactPdu env eventId reason k).2 =
      server.withRedaction (server.redactPdu env eventId reason k).2 := by
  cases loc : server.eventidPduid eventId with
  | none => simp only [redactPdu, loc]; rfl
  | some pduId =>
    cases got : server.pduidPdu pduId with
    | none => simp only [redactPdu, loc, got]; rfl
    | some pdu =>
      rcases server.redactPdu_of_stored env loc got reason k with ⟨error, result, -⟩ | ⟨rules, result, -⟩
      · rw [result, retired_eq]
        rfl
      · rw [result, rewritten_eq, retired_eq]
        cases pdu.unsigned.positions <;> rfl

theorem kindEffects_eq (pduId : PduId) (a : Arrival) (k : Nat) : (server.kindEffects env pduId a k).2 =
      server.withRedaction (server.kindEffects env pduId a k).2 := by
  unfold kindEffects
  split
  · unfold redactionEffects
    repeat' split
    all_goals first | rfl | exact server.redactPdu_eq env _ a.pdu k
  · rfl
  · split <;> rfl
  · cases a.pdu.content.topic <;> rfl
  · rfl

variable {server env} in
theorem redactPdu_rows {rules : RoomRules} (loc : server.eventidPduid eventId = some pduId) (got : server.pduidPdu pduId = some pdu)
    (known : (server.rooms pdu.roomId).version.bind env.rules = some rules) (reason : Pdu) (k : Nat) :
    (server.redactPdu env eventId reason k).2.pduidPdu =
      update server.pduidPdu pduId (some (stripped pdu rules reason)) := by
  rcases server.redactPdu_of_stored env loc got reason k with ⟨error, -, unknown⟩ | ⟨others, result, eq⟩
  · exact absurd known (unknown rules)
  obtain rfl : others = rules := some.inj (eq.symm.trans known)
  rw [result, ← server.rewritten_pduidPdu env got eventId k others reason]
  cases pdu.unsigned.positions <;> rfl

theorem kindEffects_rows (pduId : PduId) (a : Arrival) (k : Nat) :
    (server.kindEffects env pduId a k).2.pduidPdu = server.pduidPdu ∨ ∃ eventId t pdu rules,
        server.userCanRedact eventId a.pdu.sender a.pdu.roomId false = .ok true ∧
        server.eventidPduid eventId = some t ∧ server.pduidPdu t = some pdu ∧
        (server.kindEffects env pduId a k).2.pduidPdu = update server.pduidPdu t (some (stripped pdu rules a.pdu)) := by
  unfold kindEffects
  split
  · unfold redactionEffects
    split
    · exact .inl rfl
    split
    · exact .inl rfl
    rename_i eventId names
    split
    · exact .inl rfl
    · exact .inl rfl
    rename_i permitted
    cases loc : server.eventidPduid eventId with
    | none => exact .inl (by simp only [redactPdu, loc])
    | some t =>
      cases got : server.pduidPdu t with
      | none => exact .inl (by simp only [redactPdu, loc, got])
      | some pdu =>
        cases known : (server.rooms pdu.roomId).version.bind env.rules with
        | some rules =>
          exact .inr ⟨eventId, t, pdu, rules, permitted, loc, got, redactPdu_rows loc got known _ _⟩
        | none =>
          rcases server.redactPdu_of_stored env loc got a.pdu k with
            ⟨error, result, -⟩ | ⟨rules, -, eq⟩
          · exact .inl (by rw [result, retired_eq])
          · simp [known] at eq
  · exact .inl rfl
  · split <;> exact .inl rfl
  · exact .inl (by cases a.pdu.content.topic <;> rfl)
  · exact .inl rfl

end Server

/-! ## Relations -/

namespace Server

variable (server : Server)

def threadRows (pdu : Pdu) : PduId → Option Pdu :=
  match pdu.content.thread?.bind server.eventidPduid with
  | none => server.pduidPdu
  | some rootId =>
    match server.pduidPdu rootId with
    | none => server.pduidPdu
    | some root => update server.pduidPdu rootId (some (bundleReply root pdu))

variable {rootEvent : EventId} {pdu : Pdu}

theorem threadRows_of_root {rootId : PduId} {root : Pdu} (names : pdu.content.thread? = some rootEvent)
    (loc : server.eventidPduid rootEvent = some rootId) (got : server.pduidPdu rootId = some root) :
    server.threadRows pdu = update server.pduidPdu rootId (some (bundleReply root pdu)) := by
  simp only [threadRows, names, bind_some, loc, got]

theorem threadRows_cases (pdu : Pdu) : server.threadRows pdu = server.pduidPdu ∨
    ∃ rootEvent rootId root, pdu.content.thread? = some rootEvent ∧ server.eventidPduid rootEvent = some rootId ∧
      server.pduidPdu rootId = some root ∧
      server.threadRows pdu = update server.pduidPdu rootId (some (bundleReply root pdu)) := by
  cases names : pdu.content.thread? with
  | none => exact .inl (by simp [threadRows, names])
  | some rootEvent =>
    cases loc : server.eventidPduid rootEvent with
    | none => exact .inl (by simp [threadRows, names, loc])
    | some rootId =>
      cases got : server.pduidPdu rootId with
      | none => exact .inl (by simp [threadRows, names, loc, got])
      | some root => exact .inr ⟨rootEvent, rootId, root, rfl, loc, got, server.threadRows_of_root names loc got⟩

def withRelations (source : Server) : Server := { server with
  tofromRelation := source.tofromRelation
  relatestoTyped := source.relatestoTyped
  threadidUserids := source.threadidUserids
  threadactivityidRootid := source.threadactivityidRootid
  threadrootidLatestcount := source.threadrootidLatestcount }

theorem addRelationTo_eq (origin : PduCount) (related : EventId) :
    server.addRelationTo origin related = server.withRelations (server.addRelationTo origin related) := by
  unfold addRelationTo
  cases server.getPduCount related with
  | none => rfl
  | some t => cases origin <;> cases t <;> rfl

theorem addTypedRelation_eq (k : Nat) (childCount : PduCount) (parent : EventId) (child : Pdu) (tag : Tag) :
    server.addTypedRelation k childCount parent child tag =
      server.withRelations (server.addTypedRelation k childCount parent child tag) := by
  unfold addTypedRelation
  split <;> rfl

theorem touchThread_eq (rootId : PduId) (root : Pdu) (id : PduId) (e : Pdu) :
    server.touchThread rootId root id e = server.withRelations (server.touchThread rootId root id e) := by
  unfold touchThread
  split <;> rfl

theorem addToThread_eq (names : pdu.content.thread? = some rootEvent) (id : PduId) :
    (server.addToThread rootEvent id pdu).2 =
      { server.withRelations (server.addToThread rootEvent id pdu).2 with pduidPdu := server.threadRows pdu } := by
  unfold addToThread threadRows
  rw [names, bind_some]
  cases server.eventidPduid rootEvent with
  | none => rfl
  | some rootId =>
    cases got : server.pduidPdu rootId with
    | none => simp only [got]; rfl
    | some root =>
      simp only [got]
      have hit : (server.touchThread rootId root id pdu).pduidPdu rootId ≠ none := by
        rw [touchThread_eq]
        simp [withRelations, got]
      simp only [replacePdu, if_neg hit]
      rw [touchThread_eq]
      rfl

theorem relationEffects_eq (id : PduId) (pdu : Pdu) (k : Nat) : (server.relationEffects id pdu k).2 =
      { server.withRelations (server.relationEffects id pdu k).2 with pduidPdu := server.threadRows pdu } := by
  obtain ⟨source, related⟩ : ∃ source, pdu.content.relatesToEventId.elim server (server.addRelationTo id.count) =
      server.withRelations source := by
    cases pdu.content.relatesToEventId with
    | none => exact ⟨server, rfl⟩
    | some eventId => exact ⟨_, server.addRelationTo_eq id.count eventId⟩
  unfold relationEffects
  simp only [related]
  cases relation : pdu.content.relatesTo with
  | none => simp only [threadRows, thread?, relation]; rfl
  | some relation' =>
    cases relation' with
    | thread root =>
      have names : pdu.content.thread? = some root := by simp [thread?, relation]
      rw [addToThread_eq _ names]
      rfl
    | reply inReplyTo =>
      simp only [threadRows, thread?, relation]
      rw [addRelationTo_eq]
      rfl
    | replacement original | reference original =>
      simp only [threadRows, thread?, relation]
      rw [addTypedRelation_eq]
      rfl
    | other => simp only [threadRows, thread?, relation]; rfl

end Server

/-! ## What no effect changes -/

def Pdu.identity (pdu : Pdu) : EventId × RoomId × UserId × Kind × Nat :=
  (pdu.eventId, pdu.roomId, pdu.sender, pdu.kind, pdu.originServerTs)

/-- Rewriting an event leaves it the same event, in the same place. -/
structure Effects (server next : Server) : Prop where
  count : next.count = server.count
  shorts : next.roomidShortroomid = server.roomidShortroomid
  rooms : next.rooms = server.rooms
  ids : next.eventidPduid = server.eventidPduid
  outliers : next.eventidOutlierpdu = server.eventidOutlierpdu
  rows : ∀ pduId, (next.pduidPdu pduId).map Pdu.identity = (server.pduidPdu pduId).map Pdu.identity

namespace Effects

variable {v next last : Server}

theorem trans (old : Effects v next) (after : Effects next last) : Effects v last where
  count := after.count.trans old.count
  shorts := after.shorts.trans old.shorts
  rooms := after.rooms.trans old.rooms
  ids := after.ids.trans old.ids
  outliers := after.outliers.trans old.outliers
  rows id := (after.rows id).trans (old.rows id)

variable {id : PduId} {pdu : Pdu}

theorem row (effects : Effects v next) (got : next.pduidPdu id = some pdu) :
    ∃ old, v.pduidPdu id = some old ∧ old.identity = pdu.identity := by
  have eq := effects.rows id
  rw [got] at eq
  simpa using eq.symm

theorem row_after (effects : Effects v next) (got : v.pduidPdu id = some pdu) :
    ∃ after, next.pduidPdu id = some after ∧ after.identity = pdu.identity := by
  have eq := effects.rows id
  rw [got] at eq
  simpa using eq

theorem update {after : Pdu} (got : v.pduidPdu id = some pdu) (eq : after.identity = pdu.identity)
    (o : PduId) : (update v.pduidPdu id (some after) o).map Pdu.identity = (v.pduidPdu o).map Pdu.identity := by
  by_cases here : o = id
  · subst here
    simp [got, eq]
  · simp [here]

variable {a b : Pdu}

theorem roomId_eq (eq : a.identity = b.identity) : a.roomId = b.roomId :=
  congrArg (fun identity => identity.2.1) eq

theorem eventId_eq (eq : a.identity = b.identity) : a.eventId = b.eventId :=
  congrArg (fun identity => identity.1) eq

theorem stripped_identity (pdu : Pdu) (rules : RoomRules) (reason : Pdu) :
    (stripped pdu rules reason).identity = pdu.identity := by
  unfold stripped
  cases pdu.unsigned.positions <;> rfl

theorem relationEffects (v : Server) (id : PduId) (pdu : Pdu) (k : Nat) : Effects v (v.relationEffects id pdu k).2 := by
  rw [relationEffects_eq]
  refine ⟨rfl, rfl, rfl, rfl, rfl, fun o => ?_⟩
  rcases v.threadRows_cases pdu with eq | ⟨rootEvent, rootId, root, -, -, got, bundled⟩
  · exact congrArg _ (congrFun eq o)
  · have eq : (bundleReply root pdu).identity = root.identity := rfl
    exact (congrArg _ (congrFun bundled o)).trans (update got eq o)

theorem indexPdu (v : Server) (env : Env) (k : Nat) (id : PduId) (body : String) :
    Effects v (v.indexPdu env k id body) := ⟨rfl, rfl, rfl, rfl, rfl, fun _ => rfl⟩

theorem kindEffects (v : Server) (env : Env) (id : PduId) (arrival : Arrival) (k : Nat) :
    Effects v (v.kindEffects env id arrival k).2 := by
  rw [kindEffects_eq]
  refine ⟨rfl, rfl, rfl, rfl, rfl, fun o => ?_⟩
  rcases v.kindEffects_rows env id arrival k with eq | ⟨-, t, pdu, rules, -, -, got, redacted⟩
  · exact congrArg _ (congrFun eq o)
  · exact (congrArg _ (congrFun redacted o)).trans (update got (stripped_identity pdu rules arrival.pdu) o)

theorem appendPduEffects (v : Server) (env : Env) (id : PduId) (arrival : Arrival) (k : Nat) :
    Effects v (v.appendPduEffects env id arrival k).2 := by
  have ofKind := kindEffects v env id arrival k
  unfold Server.appendPduEffects
  split
  next result =>
    simpa only [result] using ofKind
  next next result =>
    rw [result] at ofKind
    exact ofKind.trans (relationEffects next id arrival.pdu k)

end Effects

/-! ## When the relations are reached -/

namespace Server

variable (server : Server) (env : Env)

def retains (eventId : EventId) : Prop :=
  env.saveUnredactedEvents ∧ server.eventidOriginalpdu eventId = none

theorem saveOriginalPdu_of_not_retains {server : Server} {env : Env} {id : EventId}
    (kept : ¬server.retains env id) (pdu : Pdu) : (server.saveOriginalPdu env id pdu).2 = server := by
  unfold saveOriginalPdu
  cases saves : env.saveUnredactedEvents with
  | false => rfl
  | true =>
    have hit : (server.eventidOriginalpdu id).isSome := by
      rw [← ne_none_iff_isSome]
      exact fun absent => kept ⟨saves, absent⟩
    simp [hit]

def Supports (room : RoomId) : Prop :=
  ((server.rooms room).version.bind env.rules).isSome

def Carries (arrival : Arrival) : Prop :=
  match arrival.pdu.kind with
  | .roomRedaction => ∃ rules, server.roomVersionRules env arrival.pdu.roomId = .ok rules ∧
      ∀ eventId, arrival.pdu.redactsId rules = some eventId →
        ∃ permitted, server.userCanRedact eventId arrival.pdu.sender arrival.pdu.roomId false = .ok permitted ∧
          (permitted → ∀ pduId, server.eventidPduid eventId = some pduId →
            ∃ pdu, server.pduidPdu pduId = some pdu ∧ server.Supports env pdu.roomId)
  | .roomMember => arrival.effects = .ok ()
  | .roomMessage => arrival.pdu.content.body ≠ .malformed ∧ ∀ body, arrival.pdu.content.body = .text body →
      arrival.effects = .ok ()
  | _ => True

theorem redactPdu_ok_iff (eventId : EventId) (reason : Pdu) (k : Nat) :
    (server.redactPdu env eventId reason k).1 = .ok () ↔ ∀ id, server.eventidPduid eventId = some id →
      ∃ pdu, server.pduidPdu id = some pdu ∧ server.Supports env pdu.roomId := by
  cases loc : server.eventidPduid eventId with
  | none => simp [redactPdu, loc]
  | some id =>
    cases got : server.pduidPdu id with
    | none => simp [redactPdu, loc, got]
    | some pdu =>
      simp only [some.injEq, forall_eq', got, Supports]
      rcases server.redactPdu_of_stored env loc got reason k with
        ⟨error, result, unknown⟩ | ⟨rules, result, known⟩
      · rw [result]
        simpa [isSome_iff_exists] using unknown
      · rw [result]
        simp [known]

theorem kindEffects_ok_iff (id : PduId) (a : Arrival) (k : Nat) :
    (server.kindEffects env id a k).1 = .ok () ↔ server.Carries env a := by
  unfold kindEffects Carries
  cases a.pdu.kind with
  | roomRedaction =>
    simp only [redactionEffects]
    cases known : server.roomVersionRules env a.pdu.roomId with
    | error error => simp
    | ok rules =>
      simp only [Except.ok.injEq, exists_eq_left']
      cases names : a.pdu.redactsId rules with
      | none => simp
      | some eventId =>
        simp only [some.injEq, forall_eq']
        cases server.userCanRedact eventId a.pdu.sender a.pdu.roomId false with
        | error error => simp
        | ok permitted =>
          cases permitted with
          | false => simp
          | true => simpa using server.redactPdu_ok_iff env eventId a.pdu k
  | roomMessage => cases a.pdu.content.body <;> simp
  | roomMember | roomCreate | roomServerAcl | roomTopic | other type => simp

/-! ## What becomes of the rows -/

variable {server : Server} {env : Env} {eventId : EventId} {id : PduId} {pdu : Pdu} {rules : RoomRules} {a : Arrival}

theorem redactPdu_originals (loc : server.eventidPduid eventId = some id)
    (got : server.pduidPdu id = some pdu) (reason : Pdu) (k : Nat) :
    (server.redactPdu env eventId reason k).2.eventidOriginalpdu =
      (server.saveOriginalPdu env eventId pdu).2.eventidOriginalpdu := by
  rcases server.redactPdu_of_stored env loc got reason k with ⟨error, result, -⟩ | ⟨rules, result, -⟩
  · rw [result, retired_eq]
  · have rewrites : (server.rewritten env eventId id pdu k rules reason).eventidOriginalpdu =
        (server.saveOriginalPdu env eventId pdu).2.eventidOriginalpdu := by
      rw [rewritten_eq, retired_eq]
    rw [result, ← rewrites]
    cases pdu.unsigned.positions <;> rfl

variable {token : TokenId}

theorem retired_tokens (server : Server) (env : Env) (eventId : EventId) (id : PduId) (pdu : Pdu) (k : Nat)
    (hit : (server.retired env eventId id pdu k).tokenids token) : server.tokenids token := by
  unfold retired deindexBody at hit
  rw [saveOriginalPdu_eq] at hit
  cases words : pdu.content.body.asStr with
  | none =>
    rw [words] at hit
    exact hit
  | some body =>
    simp only [words, elim_some, deindexPdu, setTokens] at hit
    split at hit
    · cases hit
    · exact hit

theorem redactPdu_tokens (server : Server) (env : Env) (eventId : EventId) (reason : Pdu) (k : Nat)
    (hit : (server.redactPdu env eventId reason k).2.tokenids token) : server.tokenids token := by
  cases loc : server.eventidPduid eventId with
  | none => simpa only [redactPdu, loc] using hit
  | some id =>
    cases got : server.pduidPdu id with
    | none => simpa only [redactPdu, loc, got] using hit
    | some pdu =>
      apply server.retired_tokens env eventId id pdu k
      rcases server.redactPdu_of_stored env loc got reason k with ⟨error, result, -⟩ | ⟨rules, result, -⟩
      · rwa [result] at hit
      · have rewrites : (server.rewritten env eventId id pdu k rules reason).tokenids =
            (server.retired env eventId id pdu k).tokenids := by
          rw [rewritten_eq]
        rw [← rewrites]
        rw [result] at hit
        cases positions : pdu.unsigned.positions <;> (rw [positions] at hit; exact hit)

theorem indexPdu_tokens (server : Server) (env : Env) (k : Nat) (id : PduId) (body : String)
    (hit : (server.indexPdu env k id body).tokenids token) :
    server.tokenids token ∨ token.shortroomid = k ∧ token.pduId = id := by
  simp only [indexPdu, setTokens] at hit
  split at hit
  next own =>
    exact .inr ⟨own.1, own.2.1⟩
  · exact .inl hit

theorem kindEffects_tokens (server : Server) (env : Env) (id : PduId) (a : Arrival) (k : Nat)
    (hit : (server.kindEffects env id a k).2.tokenids token) :
    server.tokenids token ∨ token.shortroomid = k ∧ token.pduId = id := by
  unfold kindEffects at hit
  split at hit
  · refine .inl ?_
    unfold redactionEffects at hit
    repeat' split at hit
    all_goals first | exact hit | exact server.redactPdu_tokens env _ a.pdu k hit
  · exact .inl hit
  · split at hit
    · exact .inl hit
    · exact .inl hit
    · exact server.indexPdu_tokens env k id _ hit
  · cases t : a.pdu.content.topic with
    | none => exact .inl (by simpa [t] using hit)
    | some body => exact server.indexPdu_tokens env k id body (by simpa [t] using hit)
  · exact .inl hit

theorem indexBackfilled_cases (server : Server) (env : Env) (k : Nat) (id : PduId) (pdu : Pdu) :
    server.indexBackfilled env k id pdu = server ∨
      ∃ body, server.indexBackfilled env k id pdu = server.indexPdu env k id body := by
  unfold indexBackfilled
  split
  · cases pdu.content.body.asStr with
    | none => exact .inl rfl
    | some body => exact .inr ⟨body, rfl⟩
  · cases pdu.content.topic with
    | none => exact .inl rfl
    | some t => exact .inr ⟨t, rfl⟩
  · exact .inl rfl

/-- Relations leave contents, reasons and originals alone. -/
theorem appendPduEffects_kept (server : Server) (env : Env) (id : PduId) (a : Arrival) (k : Nat) :
    (∀ o, ((server.appendPduEffects env id a k).2.pduidPdu o).map
        (fun pdu => (pdu.content, pdu.unsigned.redactedBecause)) =
      ((server.kindEffects env id a k).2.pduidPdu o).map (fun pdu => (pdu.content, pdu.unsigned.redactedBecause))) ∧
    (server.appendPduEffects env id a k).2.eventidOriginalpdu = (server.kindEffects env id a k).2.eventidOriginalpdu := by
  unfold appendPduEffects
  split
  next result =>
    simp [result]
  rename_i next result
  rw [relationEffects_eq]
  refine ⟨fun o => ?_, by simp only [result]; rfl⟩
  simp only [result]
  rcases next.threadRows_cases a.pdu with eq | ⟨rootEvent, rootId, root, -, -, got, bundled⟩
  · rw [eq]
  · rw [bundled]
    by_cases here : o = rootId
    · subst here
      simp [got, bundleReply]
    · simp [here]

theorem kindEffects_of_target (ofRoom : server.roomVersionRules env a.pdu.roomId = .ok rules)
    (names : a.pdu.redactsId rules = some eventId)
    (permitted : server.userCanRedact eventId a.pdu.sender a.pdu.roomId false = .ok true) (k : Nat) :
    server.kindEffects env id a k = server.redactPdu env eventId a.pdu k := by
  have kind : a.pdu.kind = .roomRedaction := by
    by_contra o
    simp [Pdu.redactsId, o] at names
  simp only [kindEffects, kind, redactionEffects, ofRoom, names, permitted]

theorem appendPduEffects_of_carries {k : Nat} (got : server.Carries env a) : server.appendPduEffects env id a k =
      (server.kindEffects env id a k).2.relationEffects id a.pdu k := by
  have succeeds := (server.kindEffects_ok_iff env id a k).mpr got
  unfold appendPduEffects
  split
  next result =>
    simp [result] at succeeds
  next result =>
    rw [result]

/-! ## What becomes of the thread tables -/

def SameThreads (server next : Server) : Prop :=
  next.threadidUserids = server.threadidUserids ∧ next.threadactivityidRootid = server.threadactivityidRootid ∧
    next.threadrootidLatestcount = server.threadrootidLatestcount

theorem kindEffects_threads (server : Server) (env : Env) (id : PduId) (a : Arrival) (k : Nat) :
    SameThreads server (server.kindEffects env id a k).2 := by
  rw [kindEffects_eq]
  exact ⟨rfl, rfl, rfl⟩

theorem addRelationTo_threads (server : Server) (origin : PduCount) (related : EventId) :
    SameThreads server (server.addRelationTo origin related) := by
  unfold addRelationTo
  cases server.getPduCount related with
  | none => exact ⟨rfl, rfl, rfl⟩
  | some t => cases origin <;> cases t <;> exact ⟨rfl, rfl, rfl⟩

theorem relationEffects_threads (server : Server) (id : PduId) (pdu : Pdu) (k : Nat)
    (unthreaded : pdu.content.thread? = none) : SameThreads server (server.relationEffects id pdu k).2 := by
  have related : SameThreads server (pdu.content.relatesToEventId.elim server (server.addRelationTo id.count)) := by
    cases pdu.content.relatesToEventId with
    | none => exact ⟨rfl, rfl, rfl⟩
    | some eventId => exact server.addRelationTo_threads id.count eventId
  obtain ⟨users, activity, latest⟩ := related
  unfold relationEffects
  cases relation : pdu.content.relatesTo with
  | none => exact ⟨users, activity, latest⟩
  | some relation' =>
    cases relation' with
    | thread root => simp [thread?, relation] at unthreaded
    | reply inReplyTo =>
      obtain ⟨users', activity', latest'⟩ := addRelationTo_threads _ id.count inReplyTo
      exact ⟨users'.trans users, activity'.trans activity, latest'.trans latest⟩
    | replacement original | reference original =>
      simp only [addTypedRelation]
      split <;> exact ⟨users, activity, latest⟩
    | other => exact ⟨users, activity, latest⟩

theorem relationEffects_reply {root : Pdu} {rootEvent : EventId} {rootId : PduId} (server : Server) (k n : Nat)
    (pdu : Pdu) (names : pdu.content.thread? = some rootEvent) (loc : server.eventidPduid rootEvent = some rootId)
    (got : server.pduidPdu rootId = some root) :
    let next := (server.relationEffects ⟨k, .normal n⟩ pdu k).2
    next.threadidUserids = update server.threadidUserids rootId
        (some ((server.threadidUserids rootId).getD [root.sender] ++ [pdu.sender])) ∧
      next.threadactivityidRootid = server.threadactivityidRootid.put (toLex (k, n)) rootId ∧
      next.threadrootidLatestcount = update server.threadrootidLatestcount rootId (some n) := by
  have relation : pdu.content.relatesTo = some (.thread rootEvent) := by
    unfold thread? at names
    split at names
    · cases names
      assumption
    · cases names
  -- The generic relation row comes first and touches no thread.
  obtain ⟨source, related⟩ : ∃ source, pdu.content.relatesToEventId.elim server (server.addRelationTo (.normal n)) =
      { server with tofromRelation := source } := by
    cases pdu.content.relatesToEventId with
    | none => exact ⟨server.tofromRelation, rfl⟩
    | some eventId =>
      simp only [elim_some, addRelationTo]
      cases server.getPduCount eventId with
      | none => exact ⟨server.tofromRelation, rfl⟩
      | some t => cases t <;> exact ⟨_, rfl⟩
  simp [relationEffects, relation, related, addToThread, loc, got, replacePdu, touchThread, getParticipants]

end Server

end Wbfuwunel.Rooms
