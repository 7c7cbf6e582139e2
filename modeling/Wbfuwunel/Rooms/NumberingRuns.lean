import Wbfuwunel.Rooms.Numbering

/-! The numbers of a room in every run of appends and backfills.

JSON holds integers up to a bound of its own, and a position beyond it is stored as the bound. Until the server's counter
gets there, an event's number says where it stands in its room, and its count says the same.
-/

set_option autoImplicit false

namespace Wbfuwunel.Rooms

open Foundation Option Ledger

/-! ## The numbers of a room -/

namespace Server

variable (server : Server)

variable (room : RoomId)

structure Opens : Prop where
  rows : ∀ pduId pdu, server.pduidPdu pduId = some pdu → pdu.roomId ≠ room ∧ pduId.count.size ≤ server.count
  bounds : server.roomidSeqbounds room = {}

def Places (pduId : PduId) (positions : Positions) : Prop :=
  ∃ pdu, server.pduidPdu pduId = some pdu ∧ pdu.roomId = room ∧ pdu.unsigned.positions = some positions

/-- The events of the room are those of the ledger. Each has its number there and its own count for positions, and the
counters stand at the last number forward and at the next one for history. -/
structure Follows (ledger : Ledger) : Prop where
  lists : ∀ pduId, (∃ pdu, server.pduidPdu pduId = some pdu ∧ pdu.roomId = room) ↔ ledger.Lists pduId
  places : ∀ pduId rSeq, ledger.Numbers pduId rSeq →
    ∃ gSeq, server.Places room pduId ⟨rSeq, gSeq⟩ ∧ gSeq.toInt = pduId.count.signed
  bounds : server.roomidSeqbounds room = ⟨ledger.appended.length, -ledger.backfilled.length⟩

structure Numbered : Prop where
  follows : ∃ ledger, server.Follows room ledger
  unique : ∀ first second place place', server.Places room first place → server.Places room second place' →
    place.rSeq = place'.rSeq → first = second
  agree : ∀ first second place place', server.Places room first place → server.Places room second place' →
    (place.rSeq < place'.rSeq ↔ place.gSeq.toInt < place'.gSeq.toInt)

variable {v : Server} {r : RoomId} {l : Ledger}

theorem Follows.numbers (follows : v.Follows r l) {id : PduId} {positions : Positions}
    (places : v.Places r id positions) :
    l.Numbers id positions.rSeq ∧ positions.gSeq.toInt = id.count.signed := by
  obtain ⟨pdu, got, here, placed⟩ := places
  obtain ⟨rSeq, numbers⟩ := lists_iff.mp ((follows.lists id).mp ⟨pdu, got, here⟩)
  obtain ⟨gSeq, ⟨eq, got', -, placed'⟩, counts⟩ := follows.places id rSeq numbers
  obtain rfl : pdu = eq := some.inj (got.symm.trans got')
  obtain rfl : positions = ⟨rSeq, gSeq⟩ := some.inj (placed.symm.trans placed')
  exact ⟨numbers, counts⟩

theorem Follows.numbered (follows : v.Follows r l) : v.Numbered r where
  follows := ⟨l, follows⟩
  unique a b place place' ofFirst ofSecond eq := by
    obtain ⟨numbers, -⟩ := follows.numbers ofFirst
    obtain ⟨numbers', -⟩ := follows.numbers ofSecond
    exact numbers.unique (eq ▸ numbers')
  agree a b place place' ofFirst ofSecond := by
    obtain ⟨numbers, counts⟩ := follows.numbers ofFirst
    obtain ⟨numbers', counts'⟩ := follows.numbers ofSecond
    rw [counts, counts']
    exact numbers.lt_iff numbers'

end Server

namespace Inserting

variable {state : Inserting} {room : RoomId} {l : Ledger}

theorem sound_of_opens {start : Server} (opens : start.Opens room) : Sound { server := start } room {} where
  reflects := by
    have unlisted : ∀ id, ¬Ledger.Lists {} id := by simp [Ledger.Lists]
    have stored : ∀ id pdu, Version { server := start } id pdu → start.pduidPdu id = some pdu := by
      rintro id pdu (stored | ⟨_, _, ⟨⟩, _⟩)
      exact stored
    refine ⟨fun id ls => absurd ls (unlisted id), fun id pdu v => ?_,
      fun id pdu v here => absurd here (opens.rows id pdu (stored id pdu v)).1,
      fun id pdu rSeq _ numbers => absurd (lists_iff.mpr ⟨rSeq, numbers⟩) (unlisted id), opens.bounds⟩
    simp [stored id pdu v]
  fits _ _ hit := by cases hit
  counted id hit := by
    obtain ⟨pdu, stored⟩ := isSome_iff_exists.mp hit
    exact (opens.rows id pdu stored).2

theorem placeOf_of_safe {pduId : PduId} {rSeq : Int} (numbers : l.Numbers pduId rSeq)
    (safe : (pduId.count.size : Int) ≤ maxSafeInt) :
    placeOf pduId rSeq = ⟨rSeq, pduId.count.intoSigned⟩ ∧ pduId.count.intoSigned.toInt = pduId.count.signed := by
  have signed := numbers.signed
  have within := numbers.within
  have whole : pduId.count.intoSigned.toInt = pduId.count.signed := by
    unfold maxSafeInt at safe
    exact Int64.toInt_ofInt_of_le (by omega) (by omega)
  have clamped : clampSigned64 rSeq = rSeq := by
    unfold maxSafeInt at safe
    unfold clampSigned64
    omega
  refine ⟨?_, whole⟩
  simp only [placeOf, Positions.saturated, whole, clamped]
  rw [saturateInt_of_safe (by omega), saturateInt_of_safe (by omega)]
  rfl

theorem Sound.follows (h : state.Sound room l) (safe : (state.server.count : Int) ≤ maxSafeInt) :
    state.server.Follows room l where
  lists id := by
    constructor
    · rintro ⟨pdu, stored, here⟩
      exact h.reflects.within id pdu (.inl stored) here
    · intro ls
      obtain ⟨pdu, stored⟩ := isSome_iff_exists.mp (h.reflects.listed id ls)
      obtain ⟨rSeq, numbers⟩ := lists_iff.mp ls
      exact ⟨pdu, stored, (h.reflects.places id pdu rSeq (.inl stored) numbers).1⟩
  places id rSeq numbers := by
    have hit := h.reflects.listed id (lists_iff.mpr ⟨rSeq, numbers⟩)
    have ok := h.counted id hit
    obtain ⟨pdu, stored⟩ := isSome_iff_exists.mp hit
    obtain ⟨here, placed⟩ := h.reflects.places id pdu rSeq (.inl stored) numbers
    obtain ⟨plain, whole⟩ := placeOf_of_safe numbers (by omega)
    exact ⟨_, ⟨pdu, stored, here, plain ▸ placed⟩, whole⟩
  bounds := by
    have ok : ∀ id, l.Lists id → id.count.size ≤ state.server.count := fun id ls =>
      h.counted id (h.reflects.listed id ls)
    have forward := length_le l.ascending (fun id mem => l.positive id (.inl mem)) fun id mem => ok id (.inl mem)
    have history := length_le l.descending (fun id mem => l.positive id (.inr mem)) fun id mem => ok id (.inr mem)
    unfold maxSafeInt at safe
    rw [h.reflects.bounds, bounds, SeqBounds.mk.injEq]
    unfold clampSigned64
    omega

theorem step_bounds (state : Inserting) (env : Env) (insertion : Insertion) (all : ∀ id, insertion ≠ .commit id) :
    (state.step env insertion).server.roomidSeqbounds = state.server.roomidSeqbounds := by
  have ofCall : ∀ (id : Nat) (next : Call → Inserting),
      (∀ c, (next c).server.roomidSeqbounds = state.server.roomidSeqbounds) →
      ((state.calls id).elim state next).server.roomidSeqbounds = state.server.roomidSeqbounds := by
    intro id next eq
    cases state.calls id with
    | none => rfl
    | some c => exact eq c
  cases insertion with
  | start id work =>
    simp only [step, start]
    repeat' split
    all_goals rfl
  | lock id =>
    refine ofCall id _ fun c => ?_
    unfold lock
    split <;> rfl
  | dispatch id =>
    refine ofCall id _ fun c => ?_
    simp only [dispatch, dispatch.taken, drop]
    repeat' split
    all_goals rfl
  | readBounds id =>
    refine ofCall id _ fun c => ?_
    unfold readBounds
    split <;> rfl
  | commit id => exact absurd rfl (all id)
  | fail id =>
    refine ofCall id _ fun c => ?_
    simp only [fail, drop]
    repeat' split
    all_goals rfl
  | effects id =>
    refine ofCall id _ fun c => ?_
    unfold effects
    split
    · exact (state.server.appendPduEffects_rewriting env _ _ _).bounds
    · exact (state.server.indexBackfilled_rewriting env _ _ _).bounds
    · rfl
  | copyRow id t =>
    refine ofCall id _ fun c => ?_
    unfold copyRow
    split <;> rfl
  | rewriteRow id redacted =>
    refine ofCall id _ fun c => ?_
    simp only [rewriteRow, Server.replacePdu]
    repeat' split
    all_goals rfl
  | tick | settle rooms shorts => rfl

/-- Whatever runs beside, the events of a room are numbered one after the other as long as the counter stays within the
integers of JSON, and only an event that is stored takes a number. -/
theorem room_numbered (env : Env) (room : RoomId) {start : Server} (opens : start.Opens room)
    (insertions : List Insertion) :
    Along (step env) (fun state => (state.server.count : Int) ≤ maxSafeInt → state.server.Numbered room)
      { server := start } insertions ∧
    ∀ state insertion, (∀ id, insertion ≠ .commit id) →
      (step env state insertion).server.roomidSeqbounds = state.server.roomidSeqbounds := by
  constructor
  · have always : Admits (step env) (fun _ _ => True) { server := start } insertions := admits_of_forall fun _ _ _ => trivial
    have along : Along (step env) (fun state => ∃ l, state.Sound room l) { server := start } insertions :=
      along_of_keeps (fun _ insertion ⟨_, h⟩ _ => h.step env insertion) ⟨{}, sound_of_opens opens⟩ always
    exact along.imp fun state ⟨l, h⟩ safe => (h.follows safe).numbered
  · exact fun state insertion => state.step_bounds env insertion

def plainEnv : Env := ⟨false, fun _ => none, fun _ => []⟩

def lobby (count : Nat) : Server := { Server.empty with
  count
  roomidShortroomid := fun _ => some 1 }

def greeting (eventId : EventId) : Arrival where
  origin := .build
  pdu := { eventId, roomId := "!r:s", sender := "@a:s", kind := .other "m.greeting" }

theorem lobby_opens (n : Nat) : (lobby n).Opens "!r:s" := ⟨by rintro _ _ ⟨⟩, rfl⟩

/-- Two appends run into one another, the first of them fails after it took a count, and history comes last. -/
def talk : List Insertion :=
  [.start 0 (.append (greeting "$0")), .start 1 (.append (greeting "$1")), .lock 0, .dispatch 0, .lock 1, .fail 0, .lock 1,
    .tick, .dispatch 1, .readBounds 1, .commit 1] ++ backfillSteps 2 (greeting "$2").pdu []

theorem room_numbered_talk : let server := (run (step plainEnv) { server := lobby 0 } talk).server
    server.count = 4 ∧ server.Places "!r:s" ⟨1, .normal 3⟩ ⟨1, 3⟩ ∧ server.Places "!r:s" ⟨1, .backfilled 4⟩ ⟨0, -4⟩ ∧
      server.Numbered "!r:s" :=
  ⟨by decide, ⟨_, rfl, rfl, rfl⟩, ⟨_, rfl, rfl, rfl⟩,
    (room_numbered plainEnv "!r:s" (lobby_opens 0) talk).1.last (by decide)⟩

/-- Beyond the integers of JSON a count is stored as the greatest of them, and two events of the room have it. -/
theorem count_saturated : let server := (run (step plainEnv) { server := lobby (2 ^ 53 - 2) }
      (appendSteps 0 (greeting "$0") ++ appendSteps 1 (greeting "$1"))).server
    (lobby (2 ^ 53 - 2)).Opens "!r:s" ∧ server.Places "!r:s" ⟨1, .normal (2 ^ 53 - 1)⟩ ⟨1, 2 ^ 53 - 1⟩ ∧
      server.Places "!r:s" ⟨1, .normal (2 ^ 53)⟩ ⟨2, 2 ^ 53 - 1⟩ ∧ ¬server.Numbered "!r:s" := by
  intro server
  have a : server.Places "!r:s" ⟨1, .normal (2 ^ 53 - 1)⟩ ⟨1, 2 ^ 53 - 1⟩ := ⟨_, rfl, rfl, rfl⟩
  have b : server.Places "!r:s" ⟨1, .normal (2 ^ 53)⟩ ⟨2, 2 ^ 53 - 1⟩ := ⟨_, rfl, rfl, rfl⟩
  refine ⟨lobby_opens _, a, b, fun ok => ?_⟩
  have rises := (ok.agree _ _ _ _ a b).mp (by decide)
  exact absurd rises (by decide)

end Inserting

end Wbfuwunel.Rooms
