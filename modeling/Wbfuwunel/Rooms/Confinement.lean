import Wbfuwunel.Rooms.Elsewhere

/-! What an event of one room can change in another.

An event reaches stored events by id: the one it redacts and the root of its thread. Ids are server-wide, so the event
stays in its room just when what it reaches is there.
-/

set_option autoImplicit false

namespace Wbfuwunel.Rooms

open Foundation MediaRefs Function Option Server

/-! ## What an event reaches -/

inductive Server.Reaches (server : Server) (env : Env) (arrival : Arrival) : Pdu → Prop where
  | target {rules : RoomRules} {eventId : EventId} {pduId : PduId} {pdu : Pdu}
      (ofRoom : server.roomVersionRules env arrival.pdu.roomId = .ok rules)
      (names : arrival.pdu.redactsId rules = some eventId)
      (permitted : server.userCanRedact eventId arrival.pdu.sender arrival.pdu.roomId false = .ok true)
      (located : server.eventidPduid eventId = some pduId) (stored : server.pduidPdu pduId = some pdu)
      (written : server.retains env eventId ∨ server.Supports env pdu.roomId) : Reaches server env arrival pdu
  | root {eventId : EventId} {pduId : PduId} {pdu : Pdu} (carried : server.Carries env arrival)
      (names : arrival.pdu.content.thread? = some eventId) (located : server.eventidPduid eventId = some pduId)
      (stored : server.pduidPdu pduId = some pdu) : Reaches server env arrival pdu

namespace Server.Consistent

variable {v : Server} {a : Arrival} {k : Nat} (ok : v.Consistent)
include ok

variable {id : PduId}

theorem insertPdu {pdu : Pdu} (own : v.roomidShortroomid pdu.roomId = some id.shortroomid)
    (counts : id.count.size = v.count + 1) (positions : Positions) (bounds : SeqBounds) (mediaRefs : List String) :
    (v.insertPdu id positions bounds pdu mediaRefs).Consistent where
  shorts := ok.shorts
  placed o got hit := by
    by_cases here : o = id
    · subst here
      obtain rfl : pdu.setPositions positions = got := by simpa [insertPdu] using hit
      exact own
    · exact ok.placed o got (by simpa [Server.insertPdu, here] using hit)
  located eventId o place := by
    by_cases here : o = id
    · subst here
      exact ⟨_, update_self _ _ _⟩
    · have known : v.eventidPduid eventId = some o := by
        by_cases own : eventId = pdu.eventId
        · subst own
          exact absurd (by simpa [Server.insertPdu] using place.symm) here
        · simpa [Server.insertPdu, own] using place
      obtain ⟨got, hit⟩ := ok.located eventId o known
      exact ⟨got, (update_of_ne here _ _).trans hit⟩
  numbered r o place := (ok.numbered r o place).trans (Nat.le_succ _)
  counted o got hit := by
    by_cases here : o = id
    · subst here
      exact ⟨counts ▸ Nat.succ_pos _, counts.le⟩
    · obtain ⟨positive, below⟩ := ok.counted o got (by simpa [Server.insertPdu, here] using hit)
      exact ⟨positive, below.trans (Nat.le_succ _)⟩
  indexed := ok.indexed

theorem store (own : v.roomidShortroomid a.pdu.roomId = some k) : (v.store k a).Consistent :=
  ok.insertPdu own rfl _ _ _

theorem effects {next : Server} (effects : Effects v next)
    (indexed : ∀ token, next.tokenids token → token.shortroomid = token.pduId.shortroomid) : next.Consistent where
  shorts := effects.shorts ▸ ok.shorts
  placed id pdu stored := by
    obtain ⟨old, row, identity⟩ := effects.row stored
    rw [effects.shorts, ← Effects.roomId_eq identity]
    exact ok.placed id old row
  located eventId id place := by
    obtain ⟨pdu, stored⟩ := ok.located eventId id (effects.ids ▸ place)
    obtain ⟨after, row, -⟩ := effects.row_after stored
    exact ⟨after, row⟩
  numbered r k place := effects.count ▸ ok.numbered r k (effects.shorts ▸ place)
  counted id pdu stored := by
    obtain ⟨old, row, -⟩ := effects.row stored
    rw [effects.count]
    exact ok.counted id old row
  indexed := indexed

theorem appendPduEffects (env : Env) (a : Arrival) (placed : id.shortroomid = k) :
    (v.appendPduEffects env id a k).2.Consistent := by
  refine ok.effects (.appendPduEffects v env id a k) fun token hit => ?_
  have old : (v.kindEffects env id a k).2.tokenids token := by
    unfold Server.appendPduEffects at hit
    split at hit
    next result =>
      rwa [result]
    next result =>
      rw [relationEffects_eq] at hit
      rwa [result]
  rcases v.kindEffects_tokens env id a k old with known | ⟨rfl, rfl⟩
  · exact ok.indexed token known
  · exact placed.symm

theorem appendPdu (env : Env) (a : Arrival) : (v.appendPdu env a).2.Consistent := by
  unfold Server.appendPdu
  split
  · exact ok
  rename_i k own
  have placed : (v.nextId k).shortroomid = k := rfl
  have appended := (ok.store own).appendPduEffects env a placed
  simp only
  split <;> rename_i result <;> rwa [result] at appended

theorem arrive (env : Env) (a : Arrival) : (v.arrive env a).2.Consistent := by
  by_cases accepts : v.Accepts env a
  · rw [arrive_of_accepts accepts]
    exact ok.appendPdu env a
  · rwa [arrive_of_not_accepts accepts]

end Server.Consistent

namespace Others

variable {v : Server} {env : Env} {a : Arrival} {k : Nat} {id : PduId}
  (mem : ∀ pdu, v.Reaches env a pdu → pdu.roomId = a.pdu.roomId)

include mem

theorem redactionEffects (ok : v.Consistent) (own : v.roomidShortroomid a.pdu.roomId = some k) :
    Others a.pdu.roomId v (v.redactionEffects env a.pdu k).2 := by
  unfold Server.redactionEffects
  split
  · exact refl _ v
  rename_i rules ofRoom
  split
  · exact refl _ v
  rename_i eventId names
  split
  · exact refl _ v
  · exact refl _ v
  rename_i permitted
  cases loc : v.eventidPduid eventId with
  | none => simpa only [Server.redactPdu, loc] using refl _ v
  | some id =>
    obtain ⟨pdu, stored⟩ := ok.located eventId id loc
    by_cases written : v.retains env eventId ∨ v.Supports env pdu.roomId
    · have here := mem pdu (.target ofRoom names permitted loc stored written)
      exact redactPdu loc stored here env a.pdu k
    -- Nothing is saved and the version is unknown, so at most search rows of this room go.
    obtain ⟨unsaved, unknown⟩ := not_or.mp written
    rcases v.redactPdu_of_stored env loc stored a.pdu k with ⟨error, result, -⟩ | ⟨rules, -, known⟩
    · rw [result]
      by_cases here : pdu.roomId = a.pdu.roomId
      · exact retired loc stored here env k
      · exact retired_elsewhere ok stored here own (saveOriginalPdu_of_not_retains unsaved pdu)
    · exact absurd (by simp [Server.Supports, known]) unknown

theorem kindEffects {e : Pdu} (ok : v.Consistent) (own : v.roomidShortroomid a.pdu.roomId = some k)
    (got : v.pduidPdu id = some e) (here : e.roomId = a.pdu.roomId) :
    Others a.pdu.roomId v (v.kindEffects env id a k).2 := by
  have i : ∀ body, Others a.pdu.roomId v (v.indexPdu env k id body) :=
    fun body => setTokens got here env k body true
  unfold Server.kindEffects
  split
  · exact redactionEffects mem ok own
  · exact refl _ v
  · split
    · exact refl _ v
    · exact refl _ v
    · exact i _
  · cases a.pdu.content.topic with
    | none => exact refl _ v
    | some t => exact i t
  · exact refl _ v

theorem relationEffects {next : Server} (got : v.Carries env a) (effects : Effects v next) :
    Others a.pdu.roomId next (next.relationEffects id a.pdu k).2 := by
  rw [relationEffects_eq]
  rcases next.threadRows_cases a.pdu with eq | ⟨rootEvent, rootId, root, names, loc, stored, bundled⟩
  · exact of_tables eq rfl rfl rfl rfl rfl
  -- The root is read after the event's own kind was handled; it is still the same event.
  · obtain ⟨old, row, identity⟩ := effects.row stored
    have here := mem old (.root got names (effects.ids ▸ loc) row)
    exact rewrite stored ((Effects.roomId_eq identity).symm.trans here) bundled rfl rfl rfl rfl rfl

end Others

/-! ## Redacted by right -/

/-- The sender has the room's redact level or sent the event; without levels, created the room or sent the event. -/
def Permitted (room : RoomState) (sender : UserId) (pdu : Pdu) : Prop :=
  match room.powerLevels with
  | some levels => (levels.forUser sender).reaches levels.redact ∨ pdu.sender = sender
  | none => room.createSender = some sender ∨ pdu.sender = sender

variable {server : Server}

theorem permitted_of_userCanRedact {id : EventId} {z : UserId} {r : RoomId} {pdu : Pdu}
    (got : server.getPdu id = some pdu) (permits : server.userCanRedact id z r false = .ok true) :
    Permitted (server.rooms r) z pdu := by
  unfold userCanRedact at permits
  simp only [got, any_some] at permits
  split at permits
  · cases permits
  split at permits
  · cases permits
  split at permits
  next levels ofRoom =>
    simp only [Permitted, ofRoom]
    simp only [Except.ok.injEq, Bool.or_eq_true, Bool.and_eq_true, Bool.false_eq_true, if_false,
      decide_eq_true_eq] at permits
    exact permits.imp (levels.ofOther_level z) And.right
  next ofRoom =>
    simp only [Permitted, ofRoom]
    split at permits
    next creator created =>
      simp only [Except.ok.injEq, Bool.or_eq_true, decide_eq_true_eq] at permits
      rw [created, some.injEq]
      exact permits
    · cases permits

def RedactedByRight (server next : Server) (event : Pdu) : Prop :=
  ∀ pduId before after, server.pduidPdu pduId = some before → next.pduidPdu pduId = some after →
    after.content ≠ before.content ∨ after.unsigned.redactedBecause ≠ before.unsigned.redactedBecause →
      Permitted (server.rooms event.roomId) event.sender before

/-! ## Storing, then the effects -/

section Append

variable {server : Server} {env : Env} {arrival : Arrival} {short : Nat}

abbrev Server.appended (server : Server) (env : Env) (arrival : Arrival) (short : Nat) : Server :=
  ((server.store short arrival).appendPduEffects env (server.nextId short) arrival short).2

theorem store_own : (server.store short arrival).pduidPdu (server.nextId short) = some (arrival.pdu.setPositions
    ⟨(server.roomidSeqbounds arrival.pdu.roomId).takeForward.1, (server.nextId short).count.intoSigned⟩) :=
  update_self _ _ _

variable {pdu : Pdu} {id : PduId}

theorem store_elsewhere (got : (server.store short arrival).pduidPdu id = some pdu)
    (away : pdu.roomId ≠ arrival.pdu.roomId) : server.pduidPdu id = some pdu := by
  by_cases own : id = server.nextId short
  · subst own
    rw [store_own] at got
    obtain rfl := some.inj got
    exact absurd rfl away
  · simpa [store, appendPduJson, insertPdu, own] using got

theorem reaches_inside (alone : ∀ id pdu, server.pduidPdu id = some pdu → pdu.roomId = arrival.pdu.roomId)
    (reaches : (server.store short arrival).Reaches env arrival pdu) : pdu.roomId = arrival.pdu.roomId := by
  by_contra away
  cases reaches with
  | target _ _ _ _ stored _ => exact away (alone _ pdu (store_elsewhere stored away))
  | root _ _ _ stored => exact away (alone _ pdu (store_elsewhere stored away))

theorem store_located {eventId : EventId} (loc : (server.store short arrival).eventidPduid eventId = some id)
    (got : (server.store short arrival).pduidPdu id = some pdu) (away : pdu.roomId ≠ arrival.pdu.roomId) :
    server.eventidPduid eventId = some id := by
  by_cases own : eventId = arrival.pdu.eventId
  · subst own
    obtain rfl : server.nextId short = id := by simpa [store, appendPduJson, insertPdu] using loc
    rw [store_own] at got
    obtain rfl := some.inj got
    exact absurd rfl away
  · simpa [store, appendPduJson, insertPdu, own] using loc

theorem Others.appendPduEffects (ok : server.Consistent) (own : server.roomidShortroomid arrival.pdu.roomId = some short)
    (mem : ∀ pdu, (server.store short arrival).Reaches env arrival pdu → pdu.roomId = arrival.pdu.roomId) :
    Others arrival.pdu.roomId (server.store short arrival) (server.appended env arrival short) := by
  have ofKind := Others.kindEffects mem (ok.store own) own store_own rfl
  have effects := Effects.kindEffects (server.store short arrival) env (server.nextId short) arrival short
  by_cases got : (server.store short arrival).Carries env arrival
  · rw [appended, appendPduEffects_of_carries got]
    exact ofKind.trans (Others.relationEffects mem got effects)
  · -- the event's own kind fails: its relations are never looked at
    have fails := mt (kindEffects_ok_iff _ env (server.nextId short) arrival short).mp got
    unfold Server.appended Server.appendPduEffects
    split
    next result =>
      simpa only [result] using ofKind
    next result =>
      simp [result] at fails

theorem not_others_of_reaches (unseen : server.Unseen arrival.pdu)
    (reaches : (server.store short arrival).Reaches env arrival pdu) (away : pdu.roomId ≠ arrival.pdu.roomId) :
    ¬Others arrival.pdu.roomId server (server.appended env arrival short) := by
  intro others
  cases reaches with
  | @target rules eventId id _ ofRoom names permitted loc stored written =>
    have old := store_elsewhere stored away
    obtain ⟨kept, originals⟩ := appendPduEffects_kept (server.store short arrival) env (server.nextId short) arrival short
    rw [kindEffects_of_target ofRoom names permitted] at kept originals
    rcases written with ⟨saves, absent⟩ | supports
    · -- its original is retained now
      have got : server.getPdu eventId = some pdu := by
        simp [getPdu, getNonOutlier, store_located loc stored away, old]
      have eq := others.originals eventId pdu got away
      rw [originals, redactPdu_originals loc stored] at eq
      have none : server.eventidOriginalpdu eventId = none := absent
      simp [saveOriginalPdu, saves, absent, none] at eq
    -- The stripped event names the new one as its reason, which no event did before.
    · obtain ⟨ofTarget, known⟩ := isSome_iff_exists.mp supports
      have row := kept id
      rw [redactPdu_rows loc stored known, update_self, others.events id pdu old away] at row
      have reason : (stripped pdu ofTarget arrival.pdu).unsigned.redactedBecause = some arrival.pdu.eventId := by
        unfold stripped
        cases pdu.unsigned.positions <;> rfl
      simp only [map_some, some.injEq, Prod.mk.injEq] at row
      exact (unseen.unmentioned id pdu old).1 (row.2.trans reason)
  -- The bundle names the new event as the latest reply.
  | @root eventId id _ carried names loc stored =>
    have old := store_elsewhere stored away
    have effects := Effects.kindEffects (server.store short arrival) env (server.nextId short) arrival short
    obtain ⟨root, row, -⟩ := effects.row_after stored
    have after := others.events id pdu old away
    rw [appended, appendPduEffects_of_carries carried, relationEffects_eq] at after
    simp only [threadRows_of_root _ names (effects.ids ▸ loc) row, update_self] at after
    obtain rfl := some.inj after
    exact (unseen.unmentioned id _ old).2 rfl

theorem redactedByRight_appended (ok : server.Consistent) :
    RedactedByRight server (server.appended env arrival short) arrival.pdu := by
  intro id old after stored later changed
  have row : (server.store short arrival).pduidPdu id = some old := store_kept ok stored
  have kept := (appendPduEffects_kept (server.store short arrival) env (server.nextId short) arrival short).1 id
  -- Relations rewrite no content, so a change is the redaction's.
  rw [later] at kept
  rcases (server.store short arrival).kindEffects_rows env (server.nextId short) arrival short with
    eq | ⟨eventId, t, pdu, rules, permits, loc, hit, rewritten⟩
  · rw [eq, row] at kept
    simp only [map_some, some.injEq, Prod.mk.injEq] at kept
    exact absurd changed (by simp [kept])
  · by_cases here : id = t
    · subst here
      obtain rfl : pdu = old := some.inj (hit.symm.trans row)
      have got : (server.store short arrival).getPdu eventId = some pdu := by
        simp [getPdu, getNonOutlier, loc, hit]
      have right := permitted_of_userCanRedact got permits
      exact right
    · rw [rewritten, update_of_ne here, row] at kept
      simp only [map_some, some.injEq, Prod.mk.injEq] at kept
      exact absurd changed (by simp [kept])

end Append

/-! ## The event stays, or does not -/

theorem appendPdu_server {a : Arrival} {k : Nat} (own : server.roomidShortroomid a.pdu.roomId = some k) (env : Env) :
    (server.appendPdu env a).2 = server.appended env a k := by
  simp only [appendPdu, own, appended]
  split <;> rename_i result <;> rw [result]

/-- An event changes nothing of another room, and redacts by right, just when every stored event it reaches, if it is
accepted at all, is in its own room. -/
theorem event_stays_in_room_iff (server : Server) (env : Env) (arrival : Arrival) (consistent : server.Consistent)
    (unseen : server.Unseen arrival.pdu) :
    (Others arrival.pdu.roomId server (server.arrive env arrival).2 ∧
      RedactedByRight server (server.arrive env arrival).2 arrival.pdu) ↔
    (server.Accepts env arrival → ∀ short, server.roomidShortroomid arrival.pdu.roomId = some short →
      ∀ pdu, (server.store short arrival).Reaches env arrival pdu → pdu.roomId = arrival.pdu.roomId) := by
  have unchanged : RedactedByRight server server arrival.pdu := by
    intro id old after got later changed
    obtain rfl : old = after := some.inj (got.symm.trans later)
    simp at changed
  by_cases accepts : server.Accepts env arrival
  · rw [arrive_of_accepts accepts]
    simp only [accepts, true_imp_iff]
    cases own : server.roomidShortroomid arrival.pdu.roomId with
    | none =>
      have eq : (server.appendPdu env arrival).2 = server := by simp [appendPdu, own]
      rw [eq]
      exact ⟨by simp, fun _ => ⟨.refl _ server, unchanged⟩⟩
    | some short =>
      simp only [some.injEq, forall_eq', appendPdu_server own]
      constructor
      · rintro ⟨others, -⟩ pdu reaches
        by_contra away
        exact not_others_of_reaches unseen reaches away others
      · intro mem
        have others := (Others.store consistent unseen short).trans (.appendPduEffects consistent own mem)
        exact ⟨others, redactedByRight_appended consistent⟩
  · rw [arrive_of_not_accepts accepts]
    exact ⟨fun _ acc => absurd acc accepts, fun _ => ⟨.refl _ server, unchanged⟩⟩

/-! ## Two rooms -/

section TwoRooms

def plainEnv : Env where
  saveUnredactedEvents := false
  rules version := if version = "11" then some ⟨true, fun _ _ => {}⟩ else none
  tokenize body := [body]

def levelsOf (administrator : UserId) : PowerLevels where
  forUser user := .int (if user = administrator then 100 else 0)
  redact := 50
  userCanRedactOwnEvent _ := true
  userCanRedactEventOfOther user := user = administrator
  ofOther_level user administers := by
    have same : user = administrator := by simpa using administers
    simp only [same, if_true]
    decide

def lobby : RoomId := "!lobby:wbf.example"
def cabinet : RoomId := "!cabinet:wbf.example"
def alice : UserId := "@alice:wbf.example"
def mallory : UserId := "@mallory:wbf.example"

def roomOf (admin : UserId) : RoomState :=
  { version := some "11", powerLevels := some (levelsOf admin), createSender := some admin }

def twoRooms : Server := { empty with
  count := 2
  roomidShortroomid := fun room => if room = lobby then some 1 else if room = cabinet then some 2 else none
  rooms := fun room =>
    if room = lobby then roomOf mallory
    else if room = cabinet then roomOf alice
    else {} }

def minutes : Pdu where
  eventId := "$minutes"
  roomId := cabinet
  sender := alice
  kind := .roomMessage
  content := { body := .text "minutes" }

def meeting : Server := (twoRooms.arrive plainEnv ⟨.build, minutes, [], true, .ok ()⟩).2

def redactionOf (room : RoomId) (sender : UserId) : Pdu where
  eventId := "$redaction"
  roomId := room
  sender := sender
  kind := .roomRedaction
  content := { redacts := some "$minutes" }

/-- The lobby's administrator, who is nobody in the cabinet, empties the cabinet's message. -/
theorem lobby_redacts_cabinet :
    let server := (meeting.arrive plainEnv ⟨.build, redactionOf lobby mallory, [], true, .ok ()⟩).2
    (meeting.getPdu "$minutes").map (fun pdu => (pdu.roomId, pdu.content.body)) = some (cabinet, .text "minutes") ∧
      (server.getPdu "$minutes").map (fun pdu => (pdu.roomId, pdu.content.body, pdu.unsigned.redactedBecause)) =
        some (cabinet, .absent, some "$redaction") := by
  decide

theorem twoRooms_consistent : twoRooms.Consistent where
  shorts a b k ofFirst ofSecond := by
    simp only [twoRooms] at ofFirst ofSecond
    grind
  placed _ _ got := by simp [twoRooms, empty] at got
  located _ _ located := by simp [twoRooms, empty] at located
  numbered r k place := by
    simp only [twoRooms, empty] at place ⊢
    grind
  counted _ _ got := by simp [twoRooms, empty] at got
  indexed _ hit := by simp [twoRooms, empty] at hit

theorem meeting_row {id : PduId} {pdu : Pdu} (got : meeting.pduidPdu id = some pdu) :
    pdu = minutes.setPositions ⟨1, 3⟩ := by
  have rows : meeting.pduidPdu = update (fun _ => none) ⟨2, .normal 3⟩ (some (minutes.setPositions ⟨1, 3⟩)) := rfl
  rw [rows, update_apply] at got
  split at got
  · exact (some.inj got).symm
  · cases got

theorem meeting_unseen (r : RoomId) (z : UserId) : meeting.Unseen (redactionOf r z) where
  unplaced := (by decide : meeting.eventidPduid "$redaction" = none)
  outlier outlier hit := by
    have absent : meeting.eventidOutlierpdu "$redaction" = none := by decide
    exact absurd (absent.symm.trans hit) (by simp)
  unmentioned id got hit := by
    rw [meeting_row hit]
    exact ⟨by simp [minutes, Pdu.setPositions], by simp [minutes, Pdu.setPositions]⟩

/-- The same redaction by the cabinet's own administrator stays in the cabinet. -/
theorem cabinet_redaction_stays :
    Others cabinet meeting (meeting.arrive plainEnv ⟨.build, redactionOf cabinet alice, [], true, .ok ()⟩).2 := by
  refine ((event_stays_in_room_iff meeting plainEnv ⟨.build, redactionOf cabinet alice, [], true, .ok ()⟩
    (twoRooms_consistent.arrive plainEnv _) (meeting_unseen cabinet alice)).mpr ?_).1
  intro accepts k own pdu reaches
  refine reaches_inside (fun id pdu got => ?_) reaches
  rw [meeting_row got]
  rfl

end TwoRooms

end Wbfuwunel.Rooms
