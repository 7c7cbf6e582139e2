import Wbfuwunel.Rooms.Effects

/-! A rewritten row keeps its place: what follows an event strips the event it redacts and counts a reply in its root,
and neither moves a row or takes a number. -/

set_option autoImplicit false

namespace Wbfuwunel.Rooms

/-! ## One row -/

theorem saturateInt_of_safe {v : Int} (safe : -maxSafeInt ≤ v ∧ v ≤ maxSafeInt) : saturateInt v = v := by
  unfold saturateInt
  omega

theorem saturateInt_safe (v : Int) : -maxSafeInt ≤ saturateInt v ∧ saturateInt v ≤ maxSafeInt := by
  unfold saturateInt maxSafeInt
  omega

theorem Positions.saturated_saturated (positions : Positions) : positions.saturated.saturated = positions.saturated := by
  have whole : (Int64.ofInt (saturateInt positions.gSeq.toInt)).toInt = saturateInt positions.gSeq.toInt := by
    have safe := saturateInt_safe positions.gSeq.toInt
    unfold maxSafeInt at safe
    exact Int64.toInt_ofInt_of_le (by omega) (by omega)
  simp only [saturated, whole, saturateInt_of_safe (saturateInt_safe _)]

structure Pdu.Rewrites (pdu later : Pdu) : Prop where
  roomId : later.roomId = pdu.roomId
  positions : ∀ positions : Positions, pdu.unsigned.positions = some positions.saturated →
    later.unsigned.positions = some positions.saturated

namespace Pdu.Rewrites

theorem refl (pdu : Pdu) : pdu.Rewrites pdu := ⟨rfl, fun _ => id⟩

theorem trans {pdu next last : Pdu} (old : pdu.Rewrites next) (after : next.Rewrites last) : pdu.Rewrites last where
  roomId := after.roomId.trans old.roomId
  positions positions got := after.positions positions (old.positions positions got)

theorem stripped (pdu : Pdu) (rules : RoomRules) (reason : Pdu) : pdu.Rewrites (Server.stripped pdu rules reason) where
  roomId := by
    unfold Server.stripped
    cases pdu.unsigned.positions <;> rfl
  positions positions got := by
    simp [Server.stripped, got, Pdu.setPositions, positions.saturated_saturated]

theorem bundleReply (root e : Pdu) : root.Rewrites (Server.bundleReply root e) := ⟨rfl, fun _ => id⟩

end Pdu.Rewrites

/-! ## All rows -/

structure Server.Rewriting (server next : Server) : Prop where
  count : server.count ≤ next.count
  bounds : next.roomidSeqbounds = server.roomidSeqbounds
  present : ∀ pduId, (next.pduidPdu pduId).isSome = (server.pduidPdu pduId).isSome
  rows : ∀ pduId later, next.pduidPdu pduId = some later → ∃ pdu, server.pduidPdu pduId = some pdu ∧ pdu.Rewrites later

namespace Server.Rewriting

variable {v next last : Server}

theorem of_rows (count : v.count ≤ next.count) (bounds : next.roomidSeqbounds = v.roomidSeqbounds)
    (rows : next.pduidPdu = v.pduidPdu) : v.Rewriting next where
  count := count
  bounds := bounds
  present id := by rw [rows]
  rows id later got := ⟨later, rows ▸ got, .refl later⟩

theorem of_update (count : v.count ≤ next.count) (bounds : next.roomidSeqbounds = v.roomidSeqbounds)
    {t : PduId} {pdu later : Pdu} (got : v.pduidPdu t = some pdu) (rewrites : pdu.Rewrites later)
    (rows : next.pduidPdu = Function.update v.pduidPdu t (some later)) : v.Rewriting next where
  count := count
  bounds := bounds
  present id := by
    rw [rows]
    by_cases here : id = t
    · subst here
      simp [got]
    · simp [here]
  rows id after present := by
    rw [rows] at present
    by_cases here : id = t
    · subst here
      obtain rfl : later = after := by simpa using present
      exact ⟨pdu, got, rewrites⟩
    · exact ⟨after, by simpa [here] using present, .refl after⟩

theorem trans (old : v.Rewriting next) (after : next.Rewriting last) : v.Rewriting last where
  count := old.count.trans after.count
  bounds := after.bounds.trans old.bounds
  present id := (after.present id).trans (old.present id)
  rows id later got := by
    obtain ⟨between, got, second⟩ := after.rows id later got
    obtain ⟨pdu, got, first⟩ := old.rows id between got
    exact ⟨pdu, got, first.trans second⟩

end Server.Rewriting

namespace Server

variable (v : Server) (env : Env) (id : PduId)

theorem kindEffects_rewriting (a : Arrival) (k : Nat) : v.Rewriting (v.kindEffects env id a k).2 := by
  have n := (Effects.kindEffects v env id a k).count.ge
  have bounds : (v.kindEffects env id a k).2.roomidSeqbounds = v.roomidSeqbounds := by
    rw [kindEffects_eq]
    rfl
  rcases v.kindEffects_rows env id a k with eq | ⟨_, _, pdu, rules, -, -, got, stripped⟩
  · exact .of_rows n bounds eq
  · exact .of_update n bounds got (.stripped pdu rules a.pdu) stripped

theorem relationEffects_rewriting (pdu : Pdu) (k : Nat) : v.Rewriting (v.relationEffects id pdu k).2 := by
  rw [relationEffects_eq]
  rcases v.threadRows_cases pdu with eq | ⟨_, _, root, -, -, got, bundled⟩
  · exact .of_rows le_rfl rfl eq
  · exact .of_update le_rfl rfl got (.bundleReply root pdu) bundled

theorem appendPduEffects_rewriting (a : Arrival) (k : Nat) : v.Rewriting (v.appendPduEffects env id a k).2 := by
  have ofKind := v.kindEffects_rewriting env id a k
  unfold appendPduEffects
  split
  next result =>
    simpa only [result] using ofKind
  next next result =>
    rw [result] at ofKind
    exact ofKind.trans (next.relationEffects_rewriting id a.pdu k)

theorem indexBackfilled_rewriting (pdu : Pdu) (k : Nat) : v.Rewriting (v.indexBackfilled env k id pdu) := by
  rcases v.indexBackfilled_cases env k id pdu with eq | ⟨body, indexed⟩
  · rw [eq]
    exact .of_rows le_rfl rfl rfl
  · rw [indexed]
    exact .of_rows le_rfl rfl rfl

end Server

end Wbfuwunel.Rooms
