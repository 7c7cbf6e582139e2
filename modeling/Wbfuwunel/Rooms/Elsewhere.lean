import Wbfuwunel.MediaRefs.Listing
import Wbfuwunel.Rooms.Effects

/-! What the writes of a timeline leave alone in the other rooms, and which arrivals get as far as to write. -/

set_option autoImplicit false

namespace Wbfuwunel.Rooms

open Foundation MediaRefs Function Option Server

/-! ## States that agree outside a room -/

/-- Everything stored for an event of another room is as before: the event itself, where its id leads, its original,
its search rows and, whoever holds it, the media held elsewhere. -/
structure Others (room : RoomId) (server next : Server) : Prop where
  events : ∀ pduId pdu, server.pduidPdu pduId = some pdu → pdu.roomId ≠ room → next.pduidPdu pduId = some pdu
  outliers : ∀ eventId pdu, server.eventidOutlierpdu eventId = some pdu → pdu.roomId ≠ room →
    next.eventidOutlierpdu eventId = some pdu
  found : ∀ eventId pdu, server.getPdu eventId = some pdu → pdu.roomId ≠ room → next.getPdu eventId = some pdu
  originals : ∀ eventId pdu, server.getPdu eventId = some pdu → pdu.roomId ≠ room →
    next.eventidOriginalpdu eventId = server.eventidOriginalpdu eventId
  search : ∀ pduId pdu, server.pduidPdu pduId = some pdu → pdu.roomId ≠ room → ∀ token : TokenId,
    token.pduId = pduId → next.tokenids token = server.tokenids token
  holders : ∀ holder : Holder, holder.room? ≠ some room → SameRows holder server.mediaRefs next.mediaRefs

namespace Others

variable {r : RoomId} {v next last : Server}

theorem refl (r : RoomId) (v : Server) : Others r v v where
  events _ _ got _ := got
  outliers _ _ got _ := got
  found _ _ got _ := got
  originals _ _ _ _ := rfl
  search _ _ _ _ _ _ := rfl
  holders _ _ := .refl _

theorem trans (old : Others r v next) (after : Others r next last) : Others r v last where
  events id pdu got away := after.events id pdu (old.events id pdu got away) away
  outliers eventId pdu got away :=
    after.outliers eventId pdu (old.outliers eventId pdu got away) away
  found eventId pdu got away := after.found eventId pdu (old.found eventId pdu got away) away
  originals eventId pdu got away :=
    (after.originals eventId pdu (old.found eventId pdu got away) away).trans (old.originals eventId pdu got away)
  search id pdu got away token eq :=
    (after.search id pdu (old.events id pdu got away) away token eq).trans (old.search id pdu got away token eq)
  holders x away := (old.holders x away).trans (after.holders x away)

theorem of_tables (pdus : next.pduidPdu = v.pduidPdu) (ids : next.eventidPduid = v.eventidPduid)
    (outliers : next.eventidOutlierpdu = v.eventidOutlierpdu)
    (originals : next.eventidOriginalpdu = v.eventidOriginalpdu) (tokens : next.tokenids = v.tokenids)
    (media : next.mediaRefs = v.mediaRefs) : Others r v next where
  events _ _ got _ := pdus ▸ got
  outliers _ _ got _ := outliers ▸ got
  found _ _ got _ := by
    simpa only [getPdu, getNonOutlier, pdus, ids, outliers] using got
  originals _ _ _ _ := by rw [originals]
  search _ _ _ _ _ _ := by rw [tokens]
  holders _ _ := media ▸ .refl _

end Others

/-! ## Consistent servers -/

/-- What every run keeps: a row's place names its room, ids lead to rows, search rows carry the room's short id, and
no number in use lies beyond the counter. -/
structure Server.Consistent (server : Server) : Prop where
  shorts : ∀ first second short, server.roomidShortroomid first = some short →
    server.roomidShortroomid second = some short → first = second
  placed : ∀ pduId pdu, server.pduidPdu pduId = some pdu → server.roomidShortroomid pdu.roomId = some pduId.shortroomid
  located : ∀ eventId pduId, server.eventidPduid eventId = some pduId → ∃ pdu, server.pduidPdu pduId = some pdu
  numbered : ∀ room short, server.roomidShortroomid room = some short → short ≤ server.count
  counted : ∀ pduId pdu, server.pduidPdu pduId = some pdu → 0 < pduId.count.size ∧ pduId.count.size ≤ server.count
  indexed : ∀ token, server.tokenids token → token.shortroomid = token.pduId.shortroomid

/-- The event is new: its id has no place in the timeline, no stored event refers to it, and an outlier under its id is
the event itself. -/
structure Server.Unseen (server : Server) (pdu : Pdu) : Prop where
  unplaced : server.eventidPduid pdu.eventId = none
  outlier : ∀ outlier, server.eventidOutlierpdu pdu.eventId = some outlier → outlier.roomId = pdu.roomId
  unmentioned : ∀ pduId stored, server.pduidPdu pduId = some stored → stored.unsigned.redactedBecause ≠ some pdu.eventId ∧
      stored.unsigned.thread.map BundledThread.latestEvent ≠ some pdu.eventId

/-! ## One write at a time -/

variable {server : Server} {arrival : Arrival}

theorem store_kept {k : Nat} {id : PduId} {pdu : Pdu} (ok : server.Consistent)
    (got : server.pduidPdu id = some pdu) : (server.store k arrival).pduidPdu id = some pdu := by
  refine (update_of_ne ?_ _ _).trans got
  rintro rfl
  exact absurd (ok.counted _ _ got).2 (by simp [nextId, PduCount.size])

namespace Others

variable {r : RoomId} {server : Server} {eventId : EventId} {id : PduId} {pdu : Pdu}

theorem ne_of_elsewhere {holder : Holder} {gSeq : Int64} (away : holder.room? ≠ some r) :
    holder ≠ .event r gSeq ∧ holder ≠ .backup r gSeq := by
  constructor <;> (rintro rfl; exact away rfl)

theorem store {arrival : Arrival} (ok : server.Consistent) (unseen : server.Unseen arrival.pdu) (k : Nat) :
    Others arrival.pdu.roomId server (server.store k arrival) := by
  have kept : ∀ id pdu, server.pduidPdu id = some pdu →
      (server.store k arrival).pduidPdu id = some pdu := fun id pdu => store_kept ok
  have known : ∀ eventId pdu, server.getPdu eventId = some pdu → pdu.roomId ≠ arrival.pdu.roomId →
      eventId ≠ arrival.pdu.eventId := by
    rintro eventId pdu got away rfl
    simp only [getPdu, getNonOutlier, unseen.unplaced] at got
    exact away (unseen.outlier pdu got)
  refine ⟨fun id pdu stored _ => kept id pdu stored, ?_, ?_, fun _ _ _ _ => rfl, fun _ _ _ _ _ _ => rfl, ?_⟩
  · intro eventId pdu stored away
    refine (update_of_ne ?_ _ _).trans stored
    rintro rfl
    exact away (unseen.outlier pdu stored)
  -- Found by id: its place and its outlier row are both as before.
  · intro eventId pdu got away
    have o := known eventId pdu got away
    have sameId : (server.store k arrival).eventidPduid eventId = server.eventidPduid eventId :=
      update_of_ne o _ _
    have sameOutlier : (server.store k arrival).eventidOutlierpdu eventId = server.eventidOutlierpdu eventId :=
      update_of_ne o _ _
    simp only [getPdu, getNonOutlier, sameId, sameOutlier] at got ⊢
    cases place : server.eventidPduid eventId with
    | none => simpa [place] using got
    | some id =>
      obtain ⟨row, stored⟩ := ok.located eventId id place
      simpa [place, stored, kept id row stored] using got
  · intro x away
    exact .foldl (fun t mxc => .hold t mxc (ne_of_elsewhere away).1) _ _

theorem saveOriginalPdu (got : server.getPdu eventId = some pdu) (mem : pdu.roomId = r) (env : Env) :
    Others r server (server.saveOriginalPdu env eventId pdu).2 := by
  unfold Server.saveOriginalPdu
  split
  · exact refl r server
  split
  · exact refl r server
  refine { refl r server with originals := ?_ }
  intro o b hit away
  refine update_of_ne ?_ _ _
  rintro rfl
  obtain rfl : pdu = b := some.inj (got.symm.trans hit)
  exact away mem

section

variable (stored : server.pduidPdu id = some pdu)
include stored

variable (mem : pdu.roomId = r)
include mem

theorem setTokens (env : Env) (k : Nat) (body : String) (hit : Bool) :
    Others r server (server.setTokens env k id body hit) := by
  refine { refl r server with search := ?_ }
  intro o b stored' away token eq
  refine if_neg ?_
  rintro ⟨-, rfl, -⟩
  obtain rfl := eq
  obtain rfl : pdu = b := some.inj (stored.symm.trans stored')
  exact away mem

theorem deindexBody (env : Env) (k : Nat) : Others r server (server.deindexBody env k id pdu) := by
  unfold Server.deindexBody
  cases pdu.content.body.asStr with
  | none => exact refl r server
  | some body => exact setTokens stored mem env k body false

omit mem in
omit stored in
theorem deleteTypedRelation (server : Server) (id : PduId) (pdu : Pdu) :
    Others r server (server.deleteTypedRelation id pdu) := by
  unfold Server.deleteTypedRelation Server.deleteTypedRelation.delete
  repeat' split
  all_goals exact of_tables rfl rfl rfl rfl rfl rfl

theorem rewrite {next : Server} {after : Pdu} (rows : next.pduidPdu = update server.pduidPdu id (some after))
    (ids : next.eventidPduid = server.eventidPduid) (outliers : next.eventidOutlierpdu = server.eventidOutlierpdu)
    (originals : next.eventidOriginalpdu = server.eventidOriginalpdu) (tokens : next.tokenids = server.tokenids)
    (media : next.mediaRefs = server.mediaRefs) : Others r server next := by
  have kept : ∀ o b, server.pduidPdu o = some b → b.roomId ≠ r → next.pduidPdu o = some b := by
    intro o b hit away
    rw [rows]
    refine (update_of_ne ?_ _ _).trans hit
    rintro rfl
    obtain rfl : pdu = b := some.inj (stored.symm.trans hit)
    exact away mem
  refine ⟨kept, fun _ _ hit _ => outliers ▸ hit, ?_, fun _ _ _ _ => by rw [originals],
    fun _ _ _ _ _ _ => by rw [tokens], fun _ _ => media ▸ .refl _⟩
  intro eventId b got away
  simp only [getPdu, getNonOutlier, ids, outliers] at got ⊢
  cases place : server.eventidPduid eventId with
  | none => simpa [place] using got
  | some o =>
    simp only [place, bind_some] at got ⊢
    cases row : server.pduidPdu o with
    -- An id that leads nowhere: the outlier answers, before and after.
    | none =>
      have ne : o ≠ id := by
        rintro rfl
        simp [stored] at row
      simpa [rows, update_of_ne ne] using got
    | some third =>
      rw [row] at got
      obtain rfl := some.inj got
      rw [kept o third row away, some_or]

theorem replacePdu {after : Pdu} : Others r server (server.replacePdu id after).2 := by
  unfold Server.replacePdu
  split
  · exact refl r server
  · exact rewrite stored mem rfl rfl rfl rfl rfl rfl

end

theorem moveMedia (server : Server) (positions : Positions) (retained : Bool) :
    Others r server (server.moveMedia r positions retained) := by
  refine { refl r server with holders := ?_ }
  intro x away
  obtain ⟨a, second⟩ := @ne_of_elsewhere r x positions.gSeq away
  cases retained with
  | true => exact .foldl (fun t mxc => .swap t mxc a second) _ _
  | false => exact .foldl (fun t mxc => .delHolderRows t mxc a) _ _

end Others

/-! ## A redaction -/

namespace Others

variable {r : RoomId} {server : Server} {eventId : EventId} {id : PduId} {pdu : Pdu}

theorem retired (loc : server.eventidPduid eventId = some id) (stored : server.pduidPdu id = some pdu)
    (mem : pdu.roomId = r) (env : Env) (k : Nat) :
    Others r server (server.retired env eventId id pdu k) := by
  have got : server.getPdu eventId = some pdu := by simp [getPdu, getNonOutlier, loc, stored]
  refine (saveOriginalPdu got mem env).trans (deindexBody ?_ mem env k)
  rw [saveOriginalPdu_eq]
  exact stored

theorem redactPdu (loc : server.eventidPduid eventId = some id) (got : server.pduidPdu id = some pdu)
    (mem : pdu.roomId = r) (env : Env) (reason : Pdu) (k : Nat) :
    Others r server (server.redactPdu env eventId reason k).2 := by
  have retires := retired loc got mem env k
  rcases server.redactPdu_of_stored env loc got reason k with ⟨error, result, -⟩ | ⟨rules, result, -⟩
  · rw [result]
    exact retires
  have rewrites : Others r server (server.rewritten env eventId id pdu k rules reason) := by
    refine retires.trans ((deleteTypedRelation _ id pdu).trans (replacePdu ?_ mem))
    rw [deleteTypedRelation_eq, retired_eq]
    exact got
  rw [result]
  cases pdu.unsigned.positions with
  | none => exact rewrites
  | some positions =>
    refine rewrites.trans ?_
    -- The holders moved are named by the target's room.
    rw [mem]
    exact moveMedia _ positions _

theorem retired_elsewhere {env : Env} {k : Nat} (ok : server.Consistent)
    (got : server.pduidPdu id = some pdu) (away : pdu.roomId ≠ r)
    (own : server.roomidShortroomid r = some k) (unsaved : (server.saveOriginalPdu env eventId pdu).2 = server) :
    Others r server (server.retired env eventId id pdu k) := by
  rw [Server.retired, unsaved, Server.deindexBody]
  cases pdu.content.body.asStr with
  | none => exact refl r server
  | some body =>
    have eq : (server.deindexPdu env k id body).tokenids = server.tokenids := by
      funext token
      refine ite_eq_right_iff.mpr ?_
      rintro ⟨rfl, rfl, -⟩
      -- such a row would put the target in this room
      by_contra differs
      have hit : server.tokenids token := by simpa using Ne.symm differs
      have shared := ok.indexed token hit
      exact away (ok.shorts _ _ _ (ok.placed _ _ got) (shared ▸ own))
    exact of_tables rfl rfl rfl rfl eq rfl

end Others

/-! ## Both ways in -/

def Server.MayRedact (server : Server) (env : Env) (pdu : Pdu) (federation : Bool) : Prop :=
  ∃ rules, server.roomVersionRules env pdu.roomId = .ok rules ∧ ∀ eventId, pdu.redactsId rules = some eventId →
    server.userCanRedact eventId pdu.sender pdu.roomId federation = .ok true

def Server.Accepts (server : Server) (env : Env) (arrival : Arrival) : Prop :=
  arrival.passes ∧ match arrival.origin with
  | .build => arrival.pdu.kind = .roomRedaction → server.MayRedact env arrival.pdu false
  | .incoming => server.eventidPduid arrival.pdu.eventId = none ∧ server.MayRedact env arrival.pdu true

theorem mayRedact_iff (server : Server) (env : Env) (pdu : Pdu) (federation : Bool) {rules : RoomRules}
    (ofRoom : server.roomVersionRules env pdu.roomId = .ok rules) : server.MayRedact env pdu federation ↔
      ((pdu.redactsId rules).elim (.ok true) fun id =>
        server.userCanRedact id pdu.sender pdu.roomId federation) = .ok true := by
  simp only [Server.MayRedact, ofRoom, Except.ok.injEq, exists_eq_left']
  cases pdu.redactsId rules <;> simp

theorem arrive_of_accepts {env : Env} (accepts : server.Accepts env arrival) :
    server.arrive env arrival = server.appendPdu env arrival := by
  obtain ⟨ok, enters⟩ := accepts
  unfold arrive
  cases origin : arrival.origin with
  | build =>
    simp only [origin] at enters
    simp only [buildAndAppendPdu, ok, Bool.not_true, Bool.false_eq_true, if_false]
    split
    · obtain ⟨rules, ofRoom, permits⟩ := enters ‹_›
      have permitted := (mayRedact_iff server env arrival.pdu false ofRoom).mp ⟨rules, ofRoom, permits⟩
      simp only [ofRoom, permitted]
    · rfl
  | incoming =>
    simp only [origin] at enters
    obtain ⟨unplaced, rules, ofRoom, permits⟩ := enters
    have permitted := (mayRedact_iff server env arrival.pdu true ofRoom).mp ⟨rules, ofRoom, permits⟩
    simp [upgradeOutlierToTimelinePdu, unplaced, ofRoom, permitted, ok]

theorem arrive_of_not_accepts {env : Env} (refused : ¬server.Accepts env arrival) :
    (server.arrive env arrival).2 = server := by
  unfold arrive
  cases origin : arrival.origin with
  | build =>
    simp only [buildAndAppendPdu]
    split
    · rfl
    rename_i passes
    split
    next kind =>
      split
      · rfl
      rename_i rules ofRoom
      split
      · rfl
      · rfl
      rename_i permitted
      have may := (mayRedact_iff server env arrival.pdu false ofRoom).mpr permitted
      exact absurd ⟨by simpa using passes, by simpa [origin] using fun _ => may⟩ refused
    next kind =>
      exact absurd ⟨by simpa using passes, by simp [origin, kind]⟩ refused
  | incoming =>
    simp only [upgradeOutlierToTimelinePdu]
    split
    · rfl
    rename_i unplaced
    split
    · rfl
    rename_i rules ofRoom
    split
    · rfl
    rename_i permitted result
    split
    next both =>
      obtain ⟨rfl, passes⟩ : permitted ∧ arrival.passes := by simpa using both
      have may := (mayRedact_iff server env arrival.pdu true ofRoom).mpr result
      exact absurd ⟨passes, by simpa [origin] using ⟨unplaced, may⟩⟩ refused
    · rfl

end Wbfuwunel.Rooms
