import Wbfuwunel.Rooms.Inserts
import Wbfuwunel.Rooms.Ledger
import Wbfuwunel.Rooms.Rewriting

/-! How the events of a room are numbered, whatever runs beside.

A number is read and stored under the room's lock and in one transaction, so the calls of a room number its events one
after the other: each step either leaves the ledger of a room as it is, or enters one event.
-/

set_option autoImplicit false

namespace Wbfuwunel.Rooms

open Foundation Function Option Call Ledger

/-! ## What holds between the steps -/

theorem Call.isLocked_of_count {c : Call} {count : Nat} (taken : c.count? = some count) : c.isLocked := by
  unfold count? at taken
  unfold isLocked
  cases phase : c.phase <;> simp_all

theorem Call.isLocked_of_bounds {call : Call} {bounds : SeqBounds} (read : call.bounds? = some bounds) :
    call.isLocked := by
  unfold bounds? at read
  unfold isLocked
  cases phase : call.phase <;> simp_all

namespace Inserting

variable (state : Inserting)

def Version (pduId : PduId) (pdu : Pdu) : Prop :=
  state.server.pduidPdu pduId = some pdu ∨ ∃ id call, state.calls id = some call ∧ call.copy? = some (pduId, pdu)

def placeOf (pduId : PduId) (rSeq : Int) : Positions :=
  Positions.saturated ⟨clampSigned64 rSeq, pduId.count.intoSigned⟩

structure Reflects (room : RoomId) (ledger : Ledger) : Prop where
  listed : ∀ pduId, ledger.Lists pduId → (state.server.pduidPdu pduId).isSome
  present : ∀ pduId pdu, state.Version pduId pdu → (state.server.pduidPdu pduId).isSome
  within : ∀ pduId pdu, state.Version pduId pdu → pdu.roomId = room → ledger.Lists pduId
  places : ∀ pduId pdu rSeq, state.Version pduId pdu → ledger.Numbers pduId rSeq →
    pdu.roomId = room ∧ pdu.unsigned.positions = some (placeOf pduId rSeq)
  bounds : state.server.roomidSeqbounds room = ledger.bounds

structure Fits (room : RoomId) (ledger : Ledger) (id : Nat) (call : Call) : Prop where
  holds : call.isLocked → state.mutexInsert call.work.room = some id
  taken : ∀ count, call.count? = some count → 0 < count ∧ count ≤ state.server.count
  unused : ∀ pduId, (state.server.pduidPdu pduId).isSome → call.count? ≠ some pduId.count.size
  apart : ∀ count, call.count? = some count → ∀ other between, state.calls other = some between →
    between.count? = some count → other = id
  ahead : call.work.room = room → ∀ count, call.count? = some count → ledger.Ahead count
  current : call.work.room = room → ∀ bounds, call.bounds? = some bounds → bounds = ledger.bounds

structure Sound (room : RoomId) (ledger : Ledger) : Prop where
  reflects : state.Reflects room ledger
  fits : ∀ id call, state.calls id = some call → state.Fits room ledger id call
  counted : ∀ pduId, (state.server.pduidPdu pduId).isSome → pduId.count.size ≤ state.server.count

/-- A step of one call, as the others see it. -/
structure Advances (state next : Inserting) (id : Nat) : Prop where
  others : ∀ other, other ≠ id → next.calls other = state.calls other
  locks : ∀ other room, other ≠ id → state.mutexInsert room = some other → next.mutexInsert room = some other
  count : state.server.count ≤ next.server.count
  rows : ∀ pduId, (next.server.pduidPdu pduId).isSome →
    (state.server.pduidPdu pduId).isSome ∨ ∃ call, state.calls id = some call ∧ call.count? = some pduId.count.size
  taken : ∀ call count, next.calls id = some call → call.count? = some count →
    state.server.count < count ∨ ∃ before, state.calls id = some before ∧ before.count? = some count

variable {state next : Inserting} {room : RoomId} {l l' : Ledger} {id other : Nat} {call : Call}

theorem Fits.of_not_locked (free : call.isLocked = false) : state.Fits room l id call := by
  have untaken : call.count? = none := by
    by_contra taken
    obtain ⟨n, taken⟩ := ne_none_iff_exists'.mp taken
    simp [isLocked_of_count taken] at free
  have unread : call.bounds? = none := by
    by_contra read
    obtain ⟨bounds, read⟩ := ne_none_iff_exists'.mp read
    simp [isLocked_of_bounds read] at free
  constructor <;> simp [free, untaken, unread]

theorem Sound.fits_of_advances (h : state.Sound room l) (advances : state.Advances next id)
    (numbers : l' = l ∨ state.mutexInsert room = some id) (away : other ≠ id)
    (hit : state.calls other = some call) : next.Fits room l' other call := by
  have fits := h.fits other call hit
  have eq : call.work.room = room → call.isLocked → l' = l := by
    rintro here locked
    refine numbers.resolve_right fun held => away ?_
    exact some.inj ((here ▸ fits.holds locked).symm.trans held)
  refine ⟨fun locked => advances.locks other _ away (fits.holds locked), ?_, ?_, ?_, ?_, ?_⟩
  · intro n taken
    exact ⟨(fits.taken n taken).1, (fits.taken n taken).2.trans advances.count⟩
  · intro pduId got taken
    rcases advances.rows pduId got with old | ⟨own, hit', taken'⟩
    · exact fits.unused pduId old taken
    · exact away (fits.apart _ taken id own hit' taken').symm
  · intro n taken third between hit' taken'
    by_cases here : third = id
    · subst here
      rcases advances.taken between n hit' taken' with later | ⟨old, hit'', taken''⟩
      · have earlier := (fits.taken n taken).2
        omega
      · exact fits.apart n taken third old hit'' taken''
    · exact fits.apart n taken third between (advances.others third here ▸ hit') taken'
  · intro here n taken
    rw [eq here (isLocked_of_count taken)]
    exact fits.ahead here n taken
  · intro here bounds read
    rw [eq here (isLocked_of_bounds read)]
    exact fits.current here bounds read

theorem Sound.of_advances (h : state.Sound room l) (advances : state.Advances next id)
    (numbers : l' = l ∨ state.mutexInsert room = some id) (reflects : next.Reflects room l')
    (own : ∀ call, next.calls id = some call → next.Fits room l' id call) : next.Sound room l' where
  reflects := reflects
  fits other call hit := by
    by_cases here : other = id
    · subst here
      exact own call hit
    · exact h.fits_of_advances advances numbers here (advances.others other here ▸ hit)
  counted pduId got := by
    rcases advances.rows pduId got with old | ⟨call, hit, taken⟩
    · exact (h.counted pduId old).trans advances.count
    · exact ((h.fits id call hit).taken _ taken).2.trans advances.count

/-! ## Steps that store no event -/

theorem Reflects.of_versions (ok : state.Reflects room l)
    (versions : ∀ pduId later, next.Version pduId later → ∃ pdu, state.Version pduId pdu ∧ pdu.Rewrites later)
    (present : ∀ pduId, (next.server.pduidPdu pduId).isSome = (state.server.pduidPdu pduId).isSome)
    (bounds : next.server.roomidSeqbounds = state.server.roomidSeqbounds) : next.Reflects room l where
  listed pduId listed := by
    rw [present]
    exact ok.listed pduId listed
  present pduId later v := by
    obtain ⟨pdu, v, -⟩ := versions pduId later v
    rw [present]
    exact ok.present pduId pdu v
  within pduId later v here := by
    obtain ⟨pdu, v, rewrites⟩ := versions pduId later v
    exact ok.within pduId pdu v (rewrites.roomId ▸ here)
  places pduId later rSeq v numbers := by
    obtain ⟨pdu, v, rewrites⟩ := versions pduId later v
    obtain ⟨here, placed⟩ := ok.places pduId pdu rSeq v numbers
    exact ⟨rewrites.roomId.trans here, rewrites.positions _ placed⟩
  bounds := by
    rw [bounds]
    exact ok.bounds

structure Renews (state : Inserting) (server : Server) : Prop where
  count : state.server.count ≤ server.count
  bounds : server.roomidSeqbounds = state.server.roomidSeqbounds
  present : ∀ pduId, (server.pduidPdu pduId).isSome = (state.server.pduidPdu pduId).isSome
  rows : ∀ pduId later, server.pduidPdu pduId = some later → ∃ pdu, state.Version pduId pdu ∧ pdu.Rewrites later

variable {server : Server} {new : Option Call} {count : Nat}

theorem Renews.of_rewriting (rewriting : state.server.Rewriting server) : state.Renews server where
  count := rewriting.count
  bounds := rewriting.bounds
  present := rewriting.present
  rows pduId later got := by
    obtain ⟨pdu, got, rewrites⟩ := rewriting.rows pduId later got
    exact ⟨pdu, .inl got, rewrites⟩

theorem Renews.refl (state : Inserting) : state.Renews state.server := .of_rewriting (.of_rows le_rfl rfl rfl)

theorem Renews.tick (state : Inserting) : state.Renews state.tick.server :=
  .of_rewriting (.of_rows (Nat.le_succ _) rfl rfl)

theorem version_become {pduId : PduId} {pdu : Pdu} {other : Nat} {call : Call}
    (hit : (state.become id new).calls other = some call) (copied : call.copy? = some (pduId, pdu)) :
    state.Version pduId pdu ∨ new = some call := by
  by_cases here : other = id
  · subst here
    exact .inr (by simpa [become] using hit)
  · exact .inl (.inr ⟨other, call, by simpa [become, here] using hit, copied⟩)

section Renewal

variable (renews : state.Renews next.server) (calls : next.calls = (state.become id new).calls)
  (copies : ∀ call pduId pdu, new = some call → call.copy? = some (pduId, pdu) → state.Version pduId pdu)
  (locks : ∀ other room, other ≠ id → state.mutexInsert room = some other → next.mutexInsert room = some other)
  (taken : ∀ call count, new = some call → call.count? = some count →
    state.server.count < count ∨ ∃ old, state.calls id = some old ∧ old.count? = some count)
include renews calls

include copies in
theorem Reflects.of_renews (ok : state.Reflects room l) : next.Reflects room l := by
  refine ok.of_versions ?_ renews.present renews.bounds
  rintro pduId later (got | ⟨other, call, hit, copied⟩)
  · exact renews.rows pduId later got
  · refine ⟨later, ?_, .refl later⟩
    rcases version_become (calls ▸ hit) copied with v | own
    · exact v
    · exact copies call pduId later own copied

include locks taken in
theorem Advances.of_renews : state.Advances next id where
  others other away := by simp [calls, become, away]
  locks := locks
  count := renews.count
  rows pduId got := .inl (renews.present pduId ▸ got)
  taken call count hit := taken call count (by simpa [calls, become] using hit)

variable (new) in
include copies locks taken in
theorem Sound.of_renews (h : state.Sound room l)
    (own : ∀ call, new = some call → next.Fits room l id call) : next.Sound room l :=
  h.of_advances (.of_renews renews calls locks taken) (.inl rfl) (.of_renews renews calls copies h.reflects)
    fun call hit => own call (by simpa [calls, become] using hit)

end Renewal

section

variable (h : state.Sound room l)
include h

theorem Sound.become (renews : state.Renews server) (free : ∀ call, new = some call → call.isLocked = false)
    (copies : ∀ call pduId pdu, new = some call → call.copy? = some (pduId, pdu) → state.Version pduId pdu) :
    ({ state with server }.become id new).Sound room l := by
  refine h.of_renews new renews rfl copies (fun _ _ _ held => held) ?_ fun call eq =>
    .of_not_locked (free call eq)
  intro call count eq taken
  have locked := isLocked_of_count taken
  simp [free call eq] at locked

theorem Sound.start (id : Nat) (work : Work) : (state.start id work).Sound room l := by
  have joined : ∀ k, (state.become id (some { work, shortroomid := k })).Sound room l := by
    intro k
    exact h.become (.refl state) (by rintro _ ⟨⟩; rfl) (by rintro _ _ _ ⟨⟩ ⟨⟩)
  unfold Inserting.start
  repeat' split
  all_goals first | exact joined _ | exact h

theorem Sound.lock (id : Nat) (call : Call) : (state.lock id call).Sound room l := by
  unfold Inserting.lock
  split
  next phase free =>
    refine h.of_renews (some { call with phase := .locked none none }) (.refl state) rfl (by rintro _ _ _ ⟨⟩ ⟨⟩) ?_
      (by rintro _ _ ⟨⟩ ⟨⟩) ?_
    · intro other room' away held
      -- The lock was free, so it is not one that another call has.
      have another : room' ≠ call.work.room := by
        rintro rfl
        simp [free] at held
      simpa [Inserting.become, another] using held
    · rintro _ ⟨⟩
      constructor <;> simp [count?, bounds?, Inserting.become]
  · exact h

section

variable (hit : state.calls id = some call)
include hit

theorem Sound.locks_unlock (locked : call.isLocked) {other : Nat} {room' : RoomId} (away : other ≠ id)
    (held : state.mutexInsert room' = some other) : (state.unlock call.work.room).mutexInsert room' = some other := by
  have another : room' ≠ call.work.room := by
    rintro rfl
    have own := (h.fits id call hit).holds locked
    exact away (some.inj (held.symm.trans own))
  simpa [unlock, another] using held

theorem Sound.drop : (state.drop id call).Sound room l := by
  unfold Inserting.drop
  split
  next locked =>
    exact h.of_renews none (.refl state) rfl (by simp) (fun _ _ => h.locks_unlock hit locked) (by simp) (by simp)
  · exact h.become (.refl state) (by simp) (by simp)

omit hit in
theorem Sound.of_server (renews : state.Renews server) : { state with server }.Sound room l := by
  have advances : ∀ id, state.Advances { state with server } id := fun id =>
    { others := fun _ _ => rfl
      locks := fun _ _ _ held => held
      count := renews.count
      rows := fun pduId got => .inl (renews.present pduId ▸ got)
      taken := fun call count hit taken => .inr ⟨call, hit, taken⟩ }
  -- Every call is other than the one after it.
  have fits : ∀ id call, state.calls id = some call → { state with server }.Fits room l id call :=
    fun id call hit => h.fits_of_advances (advances (id + 1)) (.inl rfl) (by omega) hit
  refine h.of_advances (advances 0) (.inl rfl) ?_ (fits 0)
  refine h.reflects.of_versions ?_ renews.present renews.bounds
  rintro pduId later (got | copied)
  · exact renews.rows pduId later got
  · exact ⟨later, .inr copied, .refl later⟩

omit hit in
theorem Sound.tick : state.tick.Sound room l :=
  h.of_server (.tick state)

theorem Sound.taken (locked : call.isLocked) : (dispatch.taken state id call).Sound room l := by
  have fits := h.fits id call hit
  unfold dispatch.taken
  simp only
  split
  · refine h.of_renews (some { call with phase := .locked (some (state.server.count + 1)) call.bounds? })
      (.tick state) rfl (by rintro _ _ _ ⟨⟩ ⟨⟩) (fun _ _ _ held => held) ?_ ?_
    · rintro _ count ⟨⟩ ⟨⟩
      exact .inl (Nat.lt_succ_self _)
    rintro _ ⟨⟩
    refine ⟨fun _ => fits.holds locked, ?_, ?_, ?_, ?_, fun here bounds read => fits.current here bounds read⟩
    · rintro count ⟨⟩
      exact ⟨Nat.succ_pos _, le_rfl⟩
    · intro pduId got taken
      have ok := h.counted pduId got
      have eq := some.inj taken
      omega
    · rintro count ⟨⟩ other between hit' taken'
      by_contra away
      have old : state.calls other = some between := by
        simpa [Inserting.tick, Inserting.become, away] using hit'
      have ok := ((h.fits other between old).taken _ taken').2
      omega
    · rintro - count ⟨⟩
      refine ⟨Nat.succ_pos _, fun pduId ls => ?_⟩
      exact Nat.lt_succ_of_le (h.counted pduId (h.reflects.listed pduId ls))
  · exact h.tick.drop hit

theorem Sound.dispatch : (state.dispatch id call).Sound room l := by
  unfold Inserting.dispatch
  split
  next phase _ =>
    exact h.taken hit (by simp [isLocked, phase])
  next phase _ =>
    exact h.taken hit (by simp [isLocked, phase])
  · exact h

theorem Sound.read (locked : call.isLocked) : (readBounds.read state id call).Sound room l := by
  have fits := h.fits id call hit
  refine h.of_renews
    (some { call with phase := .locked call.count? (some (state.server.roomidSeqbounds call.work.room)) })
    (.refl state) rfl (by rintro _ _ _ ⟨⟩ ⟨⟩) (fun _ _ _ held => held) ?_ ?_
  · rintro _ count ⟨⟩ taken
    exact .inr ⟨call, hit, taken⟩
  rintro _ ⟨⟩
  refine ⟨fun _ => fits.holds locked, fits.taken, fits.unused, ?_, fits.ahead, ?_⟩
  · intro count taken other between hit' taken'
    by_contra away
    have old : state.calls other = some between := by
      simpa [readBounds.read, Inserting.become, away] using hit'
    exact away (fits.apart count taken other between old taken')
  · rintro rfl bounds ⟨⟩
    exact h.reflects.bounds

theorem Sound.readBounds : (state.readBounds id call).Sound room l := by
  unfold Inserting.readBounds
  split
  next phase _ =>
    exact h.read hit (by simp [isLocked, phase])
  next phase _ =>
    exact h.read hit (by simp [isLocked, phase])
  · exact h

theorem Sound.fail : (state.fail id call).Sound room l := by
  unfold Inserting.fail
  split
  · exact h
  · exact h.drop hit

end

theorem Sound.effects (env : Env) (id : Nat) (call : Call) : (state.effects env id call).Sound room l := by
  unfold Inserting.effects
  split
  · exact h.become (.of_rewriting (state.server.appendPduEffects_rewriting env _ _ _)) (by simp) (by simp)
  · exact h.become (.of_rewriting (state.server.indexBackfilled_rewriting env _ _ _)) (by simp) (by simp)
  · exact h

theorem Sound.copyRow (id : Nat) (call : Call) (t : PduId) : (state.copyRow id call t).Sound room l := by
  unfold Inserting.copyRow
  split
  · refine h.become (.refl state) (by rintro _ ⟨⟩; rfl) ?_
    rintro _ pduId pdu ⟨⟩ copied
    simp only [copy?, map_eq_some_iff] at copied
    obtain ⟨_, got, rfl, rfl⟩ := copied
    exact .inl got
  · exact h

omit h in
theorem Renews.of_version {t : PduId} {copy pdu row : Pdu} (v : state.Version t copy)
    (rewrites : copy.Rewrites pdu) (got : state.server.pduidPdu t = some row) :
    state.Renews { state.server with pduidPdu := update state.server.pduidPdu t (some pdu) } where
  count := le_rfl
  bounds := rfl
  present other := by
    by_cases here : other = t
    · subst here
      simp [got]
    · simp [here]
  rows other later present := by
    by_cases here : other = t
    · subst here
      obtain rfl : pdu = later := by simpa using present
      exact ⟨copy, v, rewrites⟩
    · exact ⟨later, .inl (by simpa [here] using present), .refl later⟩

theorem Sound.rewriteRow (hit : state.calls id = some call) (redacted : Option RoomRules) :
    (state.rewriteRow id call redacted).Sound room l := by
  unfold Inserting.rewriteRow
  split
  next pduId t copy phase =>
    have version : state.Version t copy := .inr ⟨id, call, hit, by simp [copy?, phase]⟩
    obtain ⟨row, stored⟩ := isSome_iff_exists.mp (h.reflects.present t copy version)
    simp only [Server.replacePdu, stored]
    refine h.become (.of_version version ?_ stored) (by rintro _ ⟨⟩; rfl) (by rintro _ _ _ ⟨⟩ ⟨⟩)
    cases redacted with
    | none => exact .bundleReply copy call.work.pdu
    | some rules => exact .stripped copy rules call.work.pdu
  · exact h

end

/-! ## Storing an event -/

theorem size_pduCount (work : Work) (count : Nat) : (work.pduCount count).size = count := by
  cases work <;> rfl

theorem insert_pduidPdu (state : Inserting) (call : Call) (pduId : PduId) (positions : Positions) (bounds : SeqBounds) :
    (state.insert call pduId positions bounds).pduidPdu =
      update state.server.pduidPdu pduId (some (call.work.pdu.setPositions positions)) := by
  unfold Inserting.insert
  cases call.work <;> rfl

theorem insert_bounds (state : Inserting) (call : Call) (pduId : PduId) (positions : Positions) (bounds : SeqBounds) :
    (state.insert call pduId positions bounds).roomidSeqbounds =
      update state.server.roomidSeqbounds call.work.room bounds := by
  unfold Inserting.insert Work.room
  cases call.work <;> rfl

theorem exists_entered (work : Work) (k : Nat) (ahead : l.Ahead count) : ∃ (entered : Ledger) (rSeq : Int),
      (∀ pduId, entered.Lists pduId ↔ l.Lists pduId ∨ pduId = ⟨k, work.pduCount count⟩) ∧
      (∀ pduId n, entered.Numbers pduId n → l.Numbers pduId n ∨ pduId = ⟨k, work.pduCount count⟩ ∧ n = rSeq) ∧
      work.take l.bounds = (clampSigned64 rSeq, entered.bounds) := by
  cases work with
  | append a =>
    exact ⟨l.append k count ahead, l.appended.length + 1, fun _ => lists_append ahead,
      fun _ _ => numbers_append ahead, takeForward_bounds ahead⟩
  | backfill pdu mediaRefs =>
    exact ⟨l.backfill k count ahead, -l.backfilled.length, fun _ => lists_backfill ahead,
      fun _ _ => numbers_backfill ahead, takeBackfilled_bounds ahead⟩

section Commit

variable {pduId : PduId} {positions : Positions} {bounds : SeqBounds}

structure Stores (state next : Inserting) (pduId : PduId) (pdu : Pdu) (room : RoomId) (bounds : SeqBounds) : Prop where
  unused : state.server.pduidPdu pduId = none
  rows : next.server.pduidPdu = update state.server.pduidPdu pduId (some pdu)
  bounds : next.server.roomidSeqbounds = update state.server.roomidSeqbounds room bounds
  copies : ∀ other later, (∃ id call, next.calls id = some call ∧ call.copy? = some (other, later)) →
    state.Version other later

variable {pdu : Pdu} {own : RoomId}

theorem Stores.version (stores : state.Stores next pduId pdu own bounds) (ok : state.Reflects room l)
    {other : PduId} {later : Pdu} (v : next.Version other later) :
    other = pduId ∧ later = pdu ∨ other ≠ pduId ∧ state.Version other later := by
  have fresh : ∀ later, ¬state.Version pduId later := fun later v => by
    simpa [stores.unused] using ok.present pduId later v
  rcases v with got | copied
  · rw [stores.rows] at got
    by_cases here : other = pduId
    · subst here
      exact .inl ⟨rfl, by simpa using got.symm⟩
    · exact .inr ⟨here, .inl (by simpa [here] using got)⟩
  · have old := stores.copies other later copied
    refine .inr ⟨?_, old⟩
    rintro rfl
    exact fresh later old

theorem Stores.isSome (stores : state.Stores next pduId pdu own bounds) (other : PduId) :
    (next.server.pduidPdu other).isSome ↔ other = pduId ∨ (state.server.pduidPdu other).isSome := by
  rw [stores.rows]
  by_cases here : other = pduId
  · subst here
    simp
  · simp [here]

variable (ok : state.Reflects room l)
include ok

theorem Reflects.present_of_stores (stores : state.Stores next pduId pdu own bounds) (other : PduId) (later : Pdu)
    (v : next.Version other later) : (next.server.pduidPdu other).isSome := by
  rw [stores.isSome]
  rcases stores.version ok v with ⟨eq, -⟩ | ⟨-, old⟩
  · exact .inl eq
  · exact .inr (ok.present other later old)

theorem Reflects.of_elsewhere (stores : state.Stores next pduId pdu own bounds) (ofOwn : pdu.roomId = own)
    (away : own ≠ room) : next.Reflects room l where
  listed other listed := (stores.isSome other).mpr (.inr (ok.listed other listed))
  present := ok.present_of_stores stores
  within other later v here := by
    rcases stores.version ok v with ⟨rfl, rfl⟩ | ⟨-, old⟩
    · exact absurd (ofOwn.symm.trans here) away
    · exact ok.within other later old here
  places other later rSeq v numbers := by
    rcases stores.version ok v with ⟨rfl, rfl⟩ | ⟨-, old⟩
    · have got := ok.listed other (lists_iff.mpr ⟨rSeq, numbers⟩)
      simp [stores.unused] at got
    · exact ok.places other later rSeq old numbers
  bounds := by
    rw [stores.bounds, update_of_ne away.symm]
    exact ok.bounds

theorem Reflects.of_entered {entered : Ledger} {rSeq : Int} (stores : state.Stores next pduId pdu room entered.bounds)
    (ofRoom : pdu.roomId = room) (placed : pdu.unsigned.positions = some (placeOf pduId rSeq))
    (lists : ∀ other, entered.Lists other ↔ l.Lists other ∨ other = pduId)
    (numbers : ∀ other n, entered.Numbers other n →
      l.Numbers other n ∨ other = pduId ∧ n = rSeq) : next.Reflects room entered where
  listed other listed := by
    rw [stores.isSome]
    rcases (lists other).mp listed with old | eq
    · exact .inr (ok.listed other old)
    · exact .inl eq
  present := ok.present_of_stores stores
  within other later v here := by
    rw [lists]
    rcases stores.version ok v with ⟨eq, -⟩ | ⟨-, before⟩
    · exact .inr eq
    · exact .inl (ok.within other later before here)
  places other later n v numbered := by
    -- The new row has the new number, and every other row the number it had.
    rcases stores.version ok v with ⟨rfl, rfl⟩ | ⟨another, before⟩
    · rcases numbers other n numbered with old | ⟨-, rfl⟩
      · have got := ok.listed other (lists_iff.mpr ⟨n, old⟩)
        simp [stores.unused] at got
      · exact ⟨ofRoom, placed⟩
    · rcases numbers other n numbered with old | ⟨eq, -⟩
      · exact ok.places other later n before old
      · exact absurd eq another
  bounds := by rw [stores.bounds, update_self]

end Commit

theorem calls_store (state : Inserting) (id : Nat) (call : Call) (count : Nat) (bounds : SeqBounds) :
    (state.store id call count bounds).calls =
      (state.become id (some { call with phase := .stored (call.pduId count) none })).calls :=
  rfl

variable (h : state.Sound room l)
include h

section

variable (hit : state.calls id = some call)
include hit

theorem Sound.stores (taken : call.count? = some count) (bounds : SeqBounds) :
    state.Stores (state.store id call count bounds) (call.pduId count)
      (call.work.pdu.setPositions (call.positions count bounds)) call.work.room (call.work.take bounds).2 where
  unused := by
    by_contra got
    refine (h.fits id call hit).unused (call.pduId count) (isSome_iff_ne_none.mpr got) ?_
    rw [taken, pduId, size_pduCount]
  rows := state.insert_pduidPdu call _ _ _
  bounds := state.insert_bounds call _ _ _
  copies := by
    rintro other later ⟨third, between, hit', copied⟩
    rw [calls_store] at hit'
    rcases version_become hit' copied with v | own
    · exact v
    · cases own
      simp [copy?] at copied

theorem Sound.advances_store (taken : call.count? = some count) (bounds : SeqBounds) :
    state.Advances (state.store id call count bounds) id where
  others other away := by simp [calls_store, Inserting.become, away]
  locks _ _ := h.locks_unlock hit (isLocked_of_count taken)
  count := le_rfl
  rows other got := by
    rcases ((h.stores hit taken bounds).isSome other).mp got with rfl | old
    · refine .inr ⟨call, hit, ?_⟩
      rw [taken, pduId, size_pduCount]
    · exact .inl old
  taken between count' hit' taken' := by
    simp only [calls_store, Inserting.become, update_self, some.injEq] at hit'
    subst hit'
    simp [count?] at taken'

theorem Sound.store {bounds : SeqBounds} (taken : call.count? = some count) (read : call.bounds? = some bounds) :
    ∃ entered, (state.store id call count bounds).Sound room entered := by
  have fits := h.fits id call hit
  have stores := h.stores hit taken bounds
  have advances := h.advances_store hit taken bounds
  have own : ∀ entered between, (state.store id call count bounds).calls id = some between →
      (state.store id call count bounds).Fits room entered id between := by
    intro entered between hit'
    simp only [calls_store, Inserting.become, update_self, some.injEq] at hit'
    subst hit'
    exact .of_not_locked rfl
  by_cases here : call.work.room = room
  · have held := fits.holds (isLocked_of_count taken)
    obtain ⟨entered, rSeq, lists, numbers, take⟩ := exists_entered call.work call.shortroomid (fits.ahead here count taken)
    rw [← fits.current here bounds read] at take
    rw [here, take] at stores
    have placed : (call.work.pdu.setPositions (call.positions count bounds)).unsigned.positions =
        some (placeOf (call.pduId count) rSeq) := by
      simp [Pdu.setPositions, placeOf, positions, take]
    exact ⟨entered, h.of_advances advances (.inr (here ▸ held))
      (h.reflects.of_entered stores here placed lists numbers) (own entered)⟩
  · exact ⟨l, h.of_advances advances (.inl rfl) (h.reflects.of_elsewhere stores rfl here) (own l)⟩

theorem Sound.commit : ∃ entered, (state.commit id call).Sound room entered := by
  unfold Inserting.commit
  split
  next count bounds phase =>
    exact h.store hit (by simp [count?, phase]) (by simp [bounds?, phase])
  · exact ⟨l, h⟩

end

theorem Sound.step (env : Env) (insertion : Insertion) : ∃ entered, (state.step env insertion).Sound room entered := by
  -- A step of no call is none.
  have ofCall : ∀ id (next : Call → Inserting), (∀ call, state.calls id = some call → (next call).Sound room l) →
      ((state.calls id).elim state next).Sound room l := by
    intro id next moves
    cases hit : state.calls id with
    | none => exact h
    | some call => exact moves call hit
  cases insertion with
  | start id work => exact ⟨l, h.start id work⟩
  | lock id => exact ⟨l, ofCall id _ fun call _ => h.lock id call⟩
  | dispatch id => exact ⟨l, ofCall id _ fun _ hit => h.dispatch hit⟩
  | readBounds id => exact ⟨l, ofCall id _ fun _ hit => h.readBounds hit⟩
  | commit id =>
    cases hit : state.calls id with
    | none =>
      simp only [Inserting.step, hit]
      exact ⟨l, h⟩
    | some call =>
      simp only [Inserting.step, hit]
      exact h.commit hit
  | fail id => exact ⟨l, ofCall id _ fun _ hit => h.fail hit⟩
  | effects id => exact ⟨l, ofCall id _ fun call _ => h.effects env id call⟩
  | copyRow id t => exact ⟨l, ofCall id _ fun call _ => h.copyRow id call t⟩
  | rewriteRow id redacted => exact ⟨l, ofCall id _ fun _ hit => h.rewriteRow hit redacted⟩
  | tick => exact ⟨l, h.tick⟩
  | settle rooms shorts => exact ⟨l, h.of_server (.of_rewriting (.of_rows le_rfl rfl rfl))⟩

end Inserting

end Wbfuwunel.Rooms
