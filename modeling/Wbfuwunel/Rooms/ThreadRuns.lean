import Wbfuwunel.Rooms.Threads

/-! Threads over whole histories of several rooms.

Beside the server goes a ledger of what happened: for each root, the count of the last event appended as a reply to it.
While replies name roots of their own room, the three thread tables say what the ledger says.
-/

set_option autoImplicit false

namespace Wbfuwunel.Rooms

open Foundation Function Option Store Server PduCount

inductive Step where
  | arrive (arrival : Arrival)
  | backfill (pdu : Pdu) (mediaRefs : List String)
  | outlier (pdu : Pdu)
  | createShortroomid (room : RoomId)
  | setRoomState (room : RoomId) (state : RoomState)
  | reap (key : Nat ×ₗ Nat)

structure Tracked where
  server : Server
  replied : EventId → Option Nat

namespace Tracked

def fresh : Tracked := ⟨.empty, fun _ => none⟩

def reply (replied : EventId → Option Nat) (pdu : Pdu) (count : Nat) : EventId → Option Nat :=
  match pdu.content.thread? with
  | none => replied
  | some root => update replied root (some count)

def step (env : Env) (tracked : Tracked) : Step → Tracked
  | .arrive arrival =>
    let next := (tracked.server.arrive env arrival).2
    ⟨next, if next.count = tracked.server.count then tracked.replied else reply tracked.replied arrival.pdu next.count⟩
  | .backfill pdu mediaRefs => { tracked with server := tracked.server.backfillPdu env pdu mediaRefs }
  | .outlier pdu => { tracked with server := { tracked.server with
      eventidOutlierpdu := update tracked.server.eventidOutlierpdu pdu.eventId (some pdu) } }
  | .createShortroomid room =>
    if (tracked.server.roomidShortroomid room).isSome then tracked
    else { tracked with server := { tracked.server with
      count := tracked.server.count + 1
      roomidShortroomid := update tracked.server.roomidShortroomid room (some (tracked.server.count + 1)) } }
  | .setRoomState room state => { tracked with server := { tracked.server with
      rooms := update tracked.server.rooms room state } }
  | .reap key => { tracked with server := tracked.server.reap key }

/-- An accepted event is new, reaches only events of its own room, and a root it names is in the timeline and gets its
turn. -/
def Threadable (env : Env) (tracked : Tracked) : Step → Prop
  | .arrive arrival => tracked.server.Accepts env arrival → ∀ short,
      tracked.server.roomidShortroomid arrival.pdu.roomId = some short →
      tracked.server.eventidPduid arrival.pdu.eventId = none ∧
      (∀ pdu, (tracked.server.store short arrival).Reaches env arrival pdu → pdu.roomId = arrival.pdu.roomId) ∧
      ∀ root, arrival.pdu.content.thread? = some root → (tracked.server.store short arrival).Carries env arrival ∧
        ∃ rootId, (tracked.server.store short arrival).eventidPduid root = some rootId
  | _ => True

/-! ## What the tables say -/

structure Agrees (tracked : Tracked) : Prop where
  consistent : tracked.server.Consistent
  named : ∀ eventId pduId pdu, tracked.server.eventidPduid eventId = some pduId →
    tracked.server.pduidPdu pduId = some pdu → pdu.eventId = eventId
  places : ∀ pduId pdu, tracked.server.pduidPdu pduId = some pdu → tracked.server.eventidPduid pdu.eventId = some pduId
  pointer : ∀ eventId pduId, tracked.server.eventidPduid eventId = some pduId →
    tracked.server.threadrootidLatestcount pduId = tracked.replied eventId
  unplaced : ∀ eventId, tracked.server.eventidPduid eventId = none → tracked.replied eventId = none
  rooted : ∀ rootId count, tracked.server.threadrootidLatestcount rootId = some count →
    (∃ root, tracked.server.pduidPdu rootId = some root) ∧ 0 < count ∧ count ≤ tracked.server.count ∧
      tracked.server.threadactivityidRootid.find (toLex (rootId.shortroomid, count)) = some rootId
  rows : ∀ key rootId, tracked.server.threadactivityidRootid.find key = some rootId → (ofLex key).1 = rootId.shortroomid ∧
      ∃ latest, tracked.server.threadrootidLatestcount rootId = some latest ∧ (ofLex key).2 ≤ latest

def ListsThreads (tracked : Tracked) : Prop :=
  ∀ user room bound, (tracked.server.roomidShortroomid room).isSome →
    ∃ listed, tracked.server.threadsUntil user room bound false = .ok listed ∧
      listed.Pairwise (fun first second => second.1.signed < first.1.signed) ∧
      ∀ count pdu, (count, pdu) ∈ listed ↔ count.signed < bound.signed ∧ pdu.roomId = room ∧
        ∃ pduId reply, tracked.server.pduidPdu pduId = some pdu ∧ tracked.replied pdu.eventId = some reply ∧
          count = .normal reply

theorem le_scanCount_iff {n : Nat} (positive : 0 < n) (le : PduCount) :
    n ≤ scanCount (le.saturatingSub 1) ↔ (normal n).signed < le.signed := by
  cases le <;> simp only [scanCount, saturatingSub, signed] <;> omega

theorem Agrees.listsThreads {tracked : Tracked} (ok : tracked.Agrees) : tracked.ListsThreads := by
  intro u r le known
  obtain ⟨k, own⟩ := isSome_iff_exists.mp known
  refine ⟨_, by simp only [threadsUntil, own]; rfl, ?_, ?_⟩
  · refine List.Pairwise.filterMap _ ?_ (tracked.server.activityUntil_descending k _)
    intro first second larger one ofFirst two ofSecond
    obtain ⟨-, -, first'⟩ := liveThread_all.mp ofFirst
    obtain ⟨-, -, second'⟩ := liveThread_all.mp ofSecond
    rw [first', second']
    simpa [signed] using larger
  · intro n pdu
    rw [List.mem_filterMap]
    constructor
    -- A live row: its root is in the room whose short id the key begins with.
    · rintro ⟨⟨key, rootId⟩, mem, live⟩
      obtain ⟨hit, ofRoom, within⟩ := mem_activityUntil.mp mem
      obtain ⟨latest, got, rfl⟩ := liveThread_all.mp live
      obtain ⟨-, positive, -, -⟩ := ok.rooted rootId _ latest
      have placed := ok.consistent.placed rootId pdu got
      rw [← (ok.rows key rootId hit).1, ofRoom] at placed
      have named := ok.pointer pdu.eventId rootId (ok.places rootId pdu got)
      exact ⟨(le_scanCount_iff positive le).mp within, ok.consistent.shorts _ _ k placed own, rootId, _,
        got, named.symm.trans latest, rfl⟩
    -- A root with a reply: its pointer leads to a row within the scan.
    · rintro ⟨lt, rfl, rootId, reply, got, replied, rfl⟩
      have latest : tracked.server.threadrootidLatestcount rootId = some reply :=
        (ok.pointer pdu.eventId rootId (ok.places rootId pdu got)).trans replied
      obtain ⟨-, positive, -, hit⟩ := ok.rooted rootId reply latest
      have eq : rootId.shortroomid = k :=
        some.inj ((ok.consistent.placed rootId pdu got).symm.trans own)
      refine ⟨(toLex (rootId.shortroomid, reply), rootId), mem_activityUntil.mpr ⟨hit, eq, ?_⟩,
        liveThread_all.mpr ⟨latest, got, rfl⟩⟩
      exact (le_scanCount_iff positive le).mpr lt

/-! ## Every step keeps the agreement -/

theorem Agrees.fresh : fresh.Agrees where
  consistent := ⟨by simp [Tracked.fresh, Server.empty], by simp [Tracked.fresh, Server.empty],
    by simp [Tracked.fresh, Server.empty], by simp [Tracked.fresh, Server.empty], by simp [Tracked.fresh, Server.empty],
    by simp [Tracked.fresh, Server.empty]⟩
  named := by simp [Tracked.fresh, Server.empty]
  places := by simp [Tracked.fresh, Server.empty]
  pointer := by simp [Tracked.fresh, Server.empty]
  unplaced := by simp [Tracked.fresh]
  rooted := by simp [Tracked.fresh, Server.empty]
  rows := by simp [Tracked.fresh, Server.empty]

variable {tracked : Tracked} {id : PduId} {env : Env}

theorem Agrees.insertPdu {pdu : Pdu} (ok : tracked.Agrees)
    (own : tracked.server.roomidShortroomid pdu.roomId = some id.shortroomid)
    (counts : id.count.size = tracked.server.count + 1) (unplaced : tracked.server.eventidPduid pdu.eventId = none)
    (positions : Positions) (bounds : SeqBounds) (mediaRefs : List String) :
    Agrees ⟨tracked.server.insertPdu id positions bounds pdu mediaRefs, tracked.replied⟩ := by
  have free : ∀ got, tracked.server.pduidPdu id ≠ some got := by
    intro got hit
    have le := (ok.consistent.counted id got hit).2
    omega
  have pointsNowhere : tracked.server.threadrootidLatestcount id = none := by
    refine eq_none_iff_forall_ne_some.mpr fun n hit => ?_
    obtain ⟨⟨root, got⟩, -⟩ := ok.rooted id n hit
    exact free root got
  have ids : ∀ eventId, eventId ≠ pdu.eventId →
      (tracked.server.insertPdu id positions bounds pdu mediaRefs).eventidPduid eventId =
        tracked.server.eventidPduid eventId := fun eventId o => update_of_ne o _ _
  have rows : ∀ o, o ≠ id →
      (tracked.server.insertPdu id positions bounds pdu mediaRefs).pduidPdu o = tracked.server.pduidPdu o :=
    fun o ne => update_of_ne ne _ _
  have ownId : (tracked.server.insertPdu id positions bounds pdu mediaRefs).eventidPduid pdu.eventId = some id :=
    update_self _ _ _
  have ownRow : (tracked.server.insertPdu id positions bounds pdu mediaRefs).pduidPdu id =
      some (pdu.setPositions positions) := update_self _ _ _
  refine ⟨ok.consistent.insertPdu own counts positions bounds mediaRefs, ?_, ?_, ?_, ?_, ?_, ok.rows⟩
  · intro eventId o got place hit
    by_cases new : eventId = pdu.eventId
    · subst new
      obtain rfl : id = o := some.inj (ownId.symm.trans place)
      obtain rfl := some.inj (ownRow.symm.trans hit)
      rfl
    · have known := (ids eventId new).symm.trans place
      obtain ⟨row, before⟩ := ok.consistent.located eventId o known
      have ne : o ≠ id := by
        rintro rfl
        exact free row before
      exact ok.named eventId o got known ((rows o ne).symm.trans hit)
  · intro o got hit
    by_cases here : o = id
    · subst here
      obtain rfl := some.inj (ownRow.symm.trans hit)
      exact ownId
    · have known := ok.places o got ((rows o here).symm.trans hit)
      refine (ids got.eventId ?_).trans known
      intro eq
      simp [eq, unplaced] at known
  · intro eventId o place
    by_cases new : eventId = pdu.eventId
    · subst new
      obtain rfl : id = o := some.inj (ownId.symm.trans place)
      exact pointsNowhere.trans (ok.unplaced _ unplaced).symm
    · exact ok.pointer eventId o ((ids eventId new).symm.trans place)
  · intro eventId absent
    have o : eventId ≠ pdu.eventId := by
      rintro rfl
      exact absurd (ownId.symm.trans absent) (by simp)
    exact ok.unplaced eventId ((ids eventId o).symm.trans absent)
  · intro rootId n latest
    obtain ⟨⟨root, got⟩, positive, lt, hit⟩ := ok.rooted rootId n latest
    have ne : rootId ≠ id := by
      rintro rfl
      exact free root got
    exact ⟨⟨root, (rows rootId ne).trans got⟩, positive, lt.trans (Nat.le_succ _), hit⟩

section Rewriting

variable {next : Server} (agrees : tracked.Agrees) (effects : Effects tracked.server next)

include agrees effects

variable {id : PduId} {pdu : Pdu}

theorem Agrees.named_after {eventId : EventId} (place : next.eventidPduid eventId = some id)
    (hit : next.pduidPdu id = some pdu) : pdu.eventId = eventId := by
  obtain ⟨old, got, identity⟩ := effects.row hit
  rw [← Effects.eventId_eq identity]
  exact agrees.named eventId id old (effects.ids ▸ place) got

theorem Agrees.places_after (hit : next.pduidPdu id = some pdu) : next.eventidPduid pdu.eventId = some id := by
  obtain ⟨old, got, identity⟩ := effects.row hit
  rw [effects.ids, ← Effects.eventId_eq identity]
  exact agrees.places id old got

theorem Agrees.rooted_after {rootId : PduId} {count : Nat}
    (pointer : tracked.server.threadrootidLatestcount rootId = some count) :
    (∃ root, next.pduidPdu rootId = some root) ∧ 0 < count ∧ count ≤ next.count ∧
      tracked.server.threadactivityidRootid.find (toLex (rootId.shortroomid, count)) = some rootId := by
  obtain ⟨⟨root, got⟩, positive, lt, row⟩ := agrees.rooted rootId count pointer
  obtain ⟨after, later, -⟩ := effects.row_after got
  exact ⟨⟨after, later⟩, positive, effects.count ▸ lt, row⟩

theorem Agrees.rewritten (ok : next.Consistent) (threads : Server.SameThreads tracked.server next) :
    Agrees ⟨next, tracked.replied⟩ := by
  obtain ⟨-, activity, latest⟩ := threads
  refine ⟨ok, fun _ _ _ => agrees.named_after effects, fun _ _ => agrees.places_after effects, ?_, ?_, ?_, ?_⟩
  · intro eventId id place
    rw [latest]
    exact agrees.pointer eventId id (effects.ids ▸ place)
  · exact fun eventId absent => agrees.unplaced eventId (effects.ids ▸ absent)
  · intro rootId n hit
    rw [activity]
    exact agrees.rooted_after effects (latest ▸ hit)
  · intro k rootId hit
    rw [activity] at hit
    rw [latest]
    exact agrees.rows k rootId hit

end Rewriting

section Reply

variable {next : Server} {rootEvent : EventId} {rootId : PduId} {root : Pdu}

structure Replies (tracked : Tracked) (next : Server) (rootId : PduId) : Prop where
  positive : 0 < tracked.server.count
  newest : ∀ other count, tracked.server.threadrootidLatestcount other = some count → count < tracked.server.count
  activity : next.threadactivityidRootid =
    tracked.server.threadactivityidRootid.put (toLex (rootId.shortroomid, tracked.server.count)) rootId
  latest : next.threadrootidLatestcount = update tracked.server.threadrootidLatestcount rootId (some tracked.server.count)

theorem Replies.pointer (replies : Replies tracked next rootId) (ok : tracked.Agrees)
    (loc : tracked.server.eventidPduid rootEvent = some rootId) (got : tracked.server.pduidPdu rootId = some root)
    {eventId : EventId} {id : PduId} (place : tracked.server.eventidPduid eventId = some id) :
    next.threadrootidLatestcount id = update tracked.replied rootEvent (some tracked.server.count) eventId := by
  rw [replies.latest]
  by_cases here : eventId = rootEvent
  · subst here
    obtain rfl : rootId = id := some.inj (loc.symm.trans place)
    simp
  · have ne : id ≠ rootId := by
      rintro rfl
      exact here ((ok.named eventId _ root place got).symm.trans (ok.named rootEvent _ root loc got))
    rw [update_of_ne ne]
    exact (ok.pointer eventId id place).trans (update_of_ne here _ _).symm

variable {o : PduId}

theorem Replies.rooted (replies : Replies tracked next rootId) (ok : tracked.Agrees)
    (effects : Effects tracked.server next) (got : tracked.server.pduidPdu rootId = some root) {count : Nat}
    (hit : next.threadrootidLatestcount o = some count) :
    (∃ root, next.pduidPdu o = some root) ∧ 0 < count ∧ count ≤ next.count ∧
      next.threadactivityidRootid.find (toLex (o.shortroomid, count)) = some o := by
  rw [replies.latest] at hit
  rw [replies.activity]
  by_cases here : o = rootId
  · subst here
    obtain rfl : tracked.server.count = count := by simpa using hit
    obtain ⟨after, later, -⟩ := effects.row_after got
    exact ⟨⟨after, later⟩, replies.positive, effects.count.ge, find_put_self _ _ _⟩
  · rw [update_of_ne here] at hit
    obtain ⟨e, gt, lt, found⟩ := ok.rooted_after effects hit
    refine ⟨e, gt, lt, ?_⟩
    -- The new row is filed under the newest count, which no earlier pointer has.
    rw [find_put_of_ne _ _ ?_]
    · exact found
    · intro eq
      exact (replies.newest o count hit).ne (congrArg (fun k => (ofLex k).2) eq)

theorem Replies.rows (replies : Replies tracked next rootId) (ok : tracked.Agrees) {k : Nat ×ₗ Nat}
    (hit : next.threadactivityidRootid.find k = some o) : (ofLex k).1 = o.shortroomid ∧
      ∃ latest, next.threadrootidLatestcount o = some latest ∧ (ofLex k).2 ≤ latest := by
  rw [replies.activity, find_put] at hit
  rw [replies.latest]
  split at hit
  next eq =>
    obtain rfl := some.inj hit
    subst eq
    exact ⟨rfl, _, update_self _ _ _, le_rfl⟩
  · obtain ⟨ofRoom, old, pointer, within⟩ := ok.rows k o hit
    refine ⟨ofRoom, ?_⟩
    by_cases here : o = rootId
    · subst here
      exact ⟨_, update_self _ _ _, within.trans (replies.newest _ _ pointer).le⟩
    · exact ⟨old, (update_of_ne here _ _).trans pointer, within⟩

theorem Agrees.reply (agrees : tracked.Agrees) (effects : Effects tracked.server next) (ok : next.Consistent)
    (loc : tracked.server.eventidPduid rootEvent = some rootId) (got : tracked.server.pduidPdu rootId = some root)
    (replies : Replies tracked next rootId) :
    Agrees ⟨next, update tracked.replied rootEvent (some tracked.server.count)⟩ := by
  refine ⟨ok, fun _ _ _ => agrees.named_after effects, fun _ _ => agrees.places_after effects, ?_, ?_,
    fun _ _ => replies.rooted agrees effects got, fun _ _ => replies.rows agrees⟩
  · intro eventId id place
    exact replies.pointer agrees loc got (effects.ids ▸ place)
  · intro eventId absent
    replace absent : tracked.server.eventidPduid eventId = none := effects.ids ▸ absent
    have o : eventId ≠ rootEvent := by
      rintro rfl
      exact absurd (loc.symm.trans absent) (by simp)
    exact (update_of_ne o _ _).trans (agrees.unplaced eventId absent)

end Reply

/-! ## Appending -/

section Append

variable {env : Env} {a : Arrival} {k : Nat}

theorem appended_reply {rootEvent : EventId} {rootId : PduId} {root : Pdu}
    (got : (tracked.server.store k a).Carries env a)
    (names : a.pdu.content.thread? = some rootEvent)
    (loc : (tracked.server.store k a).eventidPduid rootEvent = some rootId)
    (stored : (tracked.server.store k a).pduidPdu rootId = some root) :
    (∃ users, (tracked.server.appended env a k).threadidUserids = update tracked.server.threadidUserids rootId users) ∧
      (tracked.server.appended env a k).threadactivityidRootid =
        tracked.server.threadactivityidRootid.put (toLex (k, tracked.server.count + 1)) rootId ∧
      (tracked.server.appended env a k).threadrootidLatestcount =
        update tracked.server.threadrootidLatestcount rootId (some (tracked.server.count + 1)) := by
  have effects := Effects.kindEffects (tracked.server.store k a) env (tracked.server.nextId k) a k
  obtain ⟨users, activity, latest⟩ :=
    (tracked.server.store k a).kindEffects_threads env (tracked.server.nextId k) a k
  obtain ⟨after, row, -⟩ := effects.row_after stored
  have replied := relationEffects_reply _ k (tracked.server.count + 1) a.pdu names (effects.ids ▸ loc) row
  rw [appended, appendPduEffects_of_carries got]
  obtain ⟨users', activity', latest'⟩ := replied
  exact ⟨⟨_, users'.trans (by rw [users]; rfl)⟩, activity'.trans (by rw [activity]; rfl), latest'.trans (by rw [latest]; rfl)⟩

theorem appended_threads (unthreaded : a.pdu.content.thread? = none) :
    Server.SameThreads tracked.server (tracked.server.appended env a k) := by
  obtain ⟨users, activity, latest⟩ :=
    (tracked.server.store k a).kindEffects_threads env (tracked.server.nextId k) a k
  unfold appended appendPduEffects
  split
  next result =>
    rw [result] at users activity latest
    exact ⟨users, activity, latest⟩
  next next result =>
    rw [result] at users activity latest
    obtain ⟨users', activity', latest'⟩ :=
      next.relationEffects_threads (tracked.server.nextId k) a.pdu k unthreaded
    exact ⟨users'.trans users, activity'.trans activity, latest'.trans latest⟩

structure ThreadsElsewhere (room : RoomId) (server next : Server) : Prop where
  roots : ∀ rootId root, server.pduidPdu rootId = some root → root.roomId ≠ room → next.pduidPdu rootId = some root
  participants : ∀ rootId root, server.pduidPdu rootId = some root → root.roomId ≠ room →
    next.threadidUserids rootId = server.threadidUserids rootId
  latest : ∀ rootId root, server.pduidPdu rootId = some root → root.roomId ≠ room →
    next.threadrootidLatestcount rootId = server.threadrootidLatestcount rootId
  activity : ∀ rootId root, server.pduidPdu rootId = some root → root.roomId ≠ room → ∀ key,
    next.threadactivityidRootid.find key = some rootId ↔ server.threadactivityidRootid.find key = some rootId

variable (agrees : tracked.Agrees) (own : tracked.server.roomidShortroomid a.pdu.roomId = some k)
  (unplaced : tracked.server.eventidPduid a.pdu.eventId = none)
  (mem : ∀ pdu, (tracked.server.store k a).Reaches env a pdu → pdu.roomId = a.pdu.roomId)
  (threaded : ∀ root, a.pdu.content.thread? = some root → (tracked.server.store k a).Carries env a ∧
      ∃ rootId, (tracked.server.store k a).eventidPduid root = some rootId)

include agrees own mem threaded

theorem appended_elsewhere : ThreadsElsewhere a.pdu.roomId tracked.server (tracked.server.appended env a k) := by
  have kept : ∀ id pdu, tracked.server.pduidPdu id = some pdu →
      (tracked.server.store k a).pduidPdu id = some pdu := fun id pdu => store_kept agrees.consistent
  have roots : ∀ rootId root, tracked.server.pduidPdu rootId = some root → root.roomId ≠ a.pdu.roomId →
      (tracked.server.appended env a k).pduidPdu rootId = some root := fun rootId root stored away =>
    (Others.appendPduEffects agrees.consistent own mem).events rootId root (kept rootId root stored) away
  cases names : a.pdu.content.thread? with
  | none =>
    have eq : Server.SameThreads tracked.server (tracked.server.appended env a k) := appended_threads names
    obtain ⟨users, activity, latest⟩ := eq
    exact ⟨roots, fun _ _ _ _ => by rw [users], fun _ _ _ _ => by rw [latest], fun _ _ _ _ _ => by rw [activity]⟩
  | some rootEvent =>
    obtain ⟨carried, rootId, located⟩ := threaded rootEvent names
    obtain ⟨root, stored⟩ := (agrees.consistent.store own).located rootEvent rootId located
    have here := mem root (.root carried names located stored)
    obtain ⟨⟨users, ofUsers⟩, activity, latest⟩ := appended_reply carried names located stored
    have o : ∀ otherId pdu, tracked.server.pduidPdu otherId = some pdu → pdu.roomId ≠ a.pdu.roomId →
        otherId ≠ rootId := by
      rintro otherId pdu hit away rfl
      obtain rfl : pdu = root := some.inj ((kept otherId pdu hit).symm.trans stored)
      exact away here
    refine ⟨roots, ?_, ?_, ?_⟩
    · intro otherId pdu hit away
      rw [ofUsers, update_of_ne (o otherId pdu hit away)]
    · intro otherId pdu hit away
      rw [latest, update_of_ne (o otherId pdu hit away)]
    · intro otherId pdu hit away key
      rw [activity, find_put]
      split
      · -- the new row's count is beyond every count in use
        rename_i eq
        subst eq
        refine ⟨fun got => absurd (some.inj got).symm (o otherId pdu hit away), fun got => ?_⟩
        obtain ⟨-, old, pointer, within⟩ := agrees.rows _ _ got
        have le := (agrees.rooted _ _ pointer).2.2.1
        simp only [ofLex_toLex] at within
        omega
      · rfl

include unplaced

theorem appended_agrees : Agrees ⟨tracked.server.appended env a k,
    reply tracked.replied a.pdu (tracked.server.count + 1)⟩ := by
  have placed : (tracked.server.nextId k).shortroomid = k := rfl
  have stores : Agrees ⟨tracked.server.store k a, tracked.replied⟩ := agrees.insertPdu own rfl unplaced _ _ _
  have effects := Effects.appendPduEffects (tracked.server.store k a) env (tracked.server.nextId k) a k
  have ok := stores.consistent.appendPduEffects env a placed
  unfold reply
  cases names : a.pdu.content.thread? with
  | none => exact stores.rewritten effects ok (appended_threads names)
  | some rootEvent =>
    obtain ⟨got, rootId, located⟩ := threaded rootEvent names
    obtain ⟨root, stored⟩ := stores.consistent.located rootEvent rootId located
    have here := mem root (.root got names located stored)
    obtain ⟨-, activity, latest⟩ := appended_reply got names located stored
    -- The activity row is filed under the reply's room, which is the root's.
    have sameRoom : rootId.shortroomid = k := by
      have ofRoot := stores.consistent.placed rootId root stored
      rw [here] at ofRoot
      exact some.inj (ofRoot.symm.trans own)
    refine stores.reply effects ok located stored ⟨Nat.succ_pos _, ?_, sameRoom ▸ activity, latest⟩
    intro o n pointer
    exact Nat.lt_succ_of_le (agrees.rooted o n pointer).2.2.1

end Append

/-! ## Whole runs -/

theorem Agrees.arrive {a : Arrival} (ok : tracked.Agrees)
    (threadable : tracked.Threadable env (.arrive a)) : (tracked.step env (.arrive a)).Agrees := by
  simp only [step]
  by_cases accepts : tracked.server.Accepts env a
  · rw [arrive_of_accepts accepts]
    cases own : tracked.server.roomidShortroomid a.pdu.roomId with
    | none => simpa [appendPdu, own] using ok
    | some k =>
      obtain ⟨unplaced, mem, threaded⟩ := threadable accepts k own
      have counts : (tracked.server.appended env a k).count = tracked.server.count + 1 :=
        (Effects.appendPduEffects (tracked.server.store k a) env _ a k).count
      rw [appendPdu_server own, counts, if_neg (Nat.succ_ne_self _)]
      exact appended_agrees ok own unplaced mem threaded
  · rw [arrive_of_not_accepts accepts]
    simpa using ok

theorem Agrees.indexBackfilled {k : Nat} (ok : tracked.Agrees) (env : Env) (placed : id.shortroomid = k)
    (pdu : Pdu) : Agrees ⟨tracked.server.indexBackfilled env k id pdu, tracked.replied⟩ := by
  rcases tracked.server.indexBackfilled_cases env k id pdu with eq | ⟨body, indexed⟩
  · rwa [eq]
  rw [indexed]
  have effects := Effects.indexPdu tracked.server env k id body
  refine ok.rewritten effects (ok.consistent.effects effects fun token hit => ?_) ⟨rfl, rfl, rfl⟩
  rcases tracked.server.indexPdu_tokens env k id body hit with known | ⟨rfl, rfl⟩
  · exact ok.consistent.indexed token known
  · exact placed.symm

theorem Agrees.backfill (ok : tracked.Agrees) (env : Env) (pdu : Pdu) (mediaRefs : List String) :
    (tracked.step env (.backfill pdu mediaRefs)).Agrees := by
  simp only [step, backfillPdu]
  split
  next k unplaced own =>
    let id : PduId := ⟨k, .backfilled (tracked.server.count + 1)⟩
    let bounds := (tracked.server.roomidSeqbounds pdu.roomId).takeBackfilled
    have placed : id.shortroomid = k := rfl
    have stores := ok.insertPdu (placed ▸ own) rfl unplaced ⟨bounds.1, id.count.intoSigned⟩ bounds.2 mediaRefs
    exact stores.indexBackfilled env placed pdu
  · exact ok

theorem Agrees.createShortroomid (agrees : tracked.Agrees) (env : Env) (r : RoomId) :
    (tracked.step env (.createShortroomid r)).Agrees := by
  simp only [step]
  split
  · exact agrees
  rename_i unknown
  have absent : tracked.server.roomidShortroomid r = none := by simpa using unknown
  have o : ∀ r' k, tracked.server.roomidShortroomid r' = some k → r' ≠ r := by
    rintro r' k place rfl
    simp [absent] at place
  -- the number is the counter's next, so no room has it yet
  have unused : ∀ r', tracked.server.roomidShortroomid r' ≠ some (tracked.server.count + 1) := by
    intro r' place
    have le := agrees.consistent.numbered r' _ place
    omega
  refine { agrees with
    consistent := { agrees.consistent with shorts := ?_, placed := ?_, numbered := ?_, counted := ?_ }
    rooted := ?_ }
  · intro a b k ofFirst ofSecond
    simp only [update_apply] at ofFirst ofSecond
    split at ofFirst <;> split at ofSecond
    · simp_all
    · obtain rfl := some.inj ofFirst
      exact absurd ofSecond (unused b)
    · obtain rfl := some.inj ofSecond
      exact absurd ofFirst (unused a)
    · exact agrees.consistent.shorts a b k ofFirst ofSecond
  · intro id pdu got
    have place := agrees.consistent.placed id pdu got
    exact (update_of_ne (o _ _ place) _ _).trans place
  · intro r' k place
    simp only [update_apply] at place
    split at place
    · exact (some.inj place).ge
    · exact (agrees.consistent.numbered r' k place).trans (Nat.le_succ _)
  · intro id pdu got
    obtain ⟨positive, below⟩ := agrees.consistent.counted id pdu got
    exact ⟨positive, below.trans (Nat.le_succ _)⟩
  · intro rootId n pointer
    obtain ⟨root, positive, below, row⟩ := agrees.rooted rootId n pointer
    exact ⟨root, positive, below.trans (Nat.le_succ _), row⟩

theorem Agrees.reap (agrees : tracked.Agrees) (env : Env) (k : Nat ×ₗ Nat) : (tracked.step env (.reap k)).Agrees := by
  simp only [step, Server.reap]
  split
  · exact agrees
  rename_i pointer leads
  split
  next behind =>
    obtain ⟨dead, hit, latest⟩ := bind_eq_some_iff.mp leads
    refine { agrees with consistent := { agrees.consistent with }, rooted := ?_, rows := ?_ }
    · intro rootId n points
      obtain ⟨root, positive, lt, row⟩ := agrees.rooted rootId n points
      refine ⟨root, positive, lt, (find_del_of_ne _ ?_).trans row⟩
      rintro rfl
      obtain rfl : dead = rootId := some.inj (hit.symm.trans row)
      obtain rfl : pointer = n := some.inj (latest.symm.trans points)
      exact lt_irrefl _ behind
    · intro o rootId got
      rw [find_del] at got
      split at got
      · cases got
      · exact agrees.rows o rootId got
  · exact agrees

theorem Agrees.step {e : Step} (agrees : tracked.Agrees) (threadable : tracked.Threadable env e) :
    (tracked.step env e).Agrees := by
  cases e with
  | arrive a => exact agrees.arrive threadable
  | backfill pdu mediaRefs => exact agrees.backfill env pdu mediaRefs
  | outlier pdu => exact { agrees with consistent := { agrees.consistent with } }
  | createShortroomid r => exact agrees.createShortroomid env r
  | setRoomState r s => exact { agrees with consistent := { agrees.consistent with } }
  | reap k => exact agrees.reap env k

structure ThreadsHold (env : Env) (tracked : Tracked) : Prop where
  lists : tracked.ListsThreads
  elsewhere : ∀ arrival, tracked.Threadable env (.arrive arrival) →
    ThreadsElsewhere arrival.pdu.roomId tracked.server (tracked.server.arrive env arrival).2

theorem Agrees.threadsHold (ok : tracked.Agrees) (env : Env) : tracked.ThreadsHold env := by
  refine ⟨ok.listsThreads, fun a threadable => ?_⟩
  have unchanged : ThreadsElsewhere a.pdu.roomId tracked.server tracked.server :=
    ⟨fun _ _ got _ => got, fun _ _ _ _ => rfl, fun _ _ _ _ => rfl, fun _ _ _ _ _ => Iff.rfl⟩
  by_cases accepts : tracked.server.Accepts env a
  · rw [arrive_of_accepts accepts]
    cases own : tracked.server.roomidShortroomid a.pdu.roomId with
    | none => simpa [appendPdu, own] using unchanged
    | some k =>
      obtain ⟨-, mem, threaded⟩ := threadable accepts k own
      rw [appendPdu_server own]
      exact appended_elsewhere ok own mem threaded
  · rwa [arrive_of_not_accepts accepts]

/-- In every run whose events keep to their rooms, threads do. -/
theorem threads_hold_along (env : Env) (steps : List Step)
    (admits : Admits (step env) (Threadable env) fresh steps) : Along (step env) (ThreadsHold env) fresh steps := by
  have agreed := along_of_keeps (fun tracked e ok threadable => Agrees.step ok threadable) Agrees.fresh admits
  exact agreed.imp fun tracked ok => ok.threadsHold env

/-! ## A reply across rooms -/

def aside (room : RoomId) : Pdu where
  eventId := "$aside"
  roomId := room
  sender := mallory
  kind := .roomMessage
  content := { body := .text "aside", relatesTo := some (.thread "$minutes"), relatesToEventId := some "$minutes" }

/-- The cabinet's message is rewritten and becomes one of the lobby's threads. -/
theorem lobby_lists_cabinet : let server := (meeting.arrive plainEnv ⟨.build, aside lobby, [], true, .ok ()⟩).2
    ((server.threadsUntil mallory lobby (.normal 100) false).toOption.map fun ls =>
        ls.map fun x => (x.2.eventId, x.2.roomId, x.2.content.body)) =
      some [("$minutes", cabinet, .text "minutes")] ∧
    (meeting.getPdu "$minutes").bind (fun root => root.unsigned.thread) = none ∧
    (server.getPdu "$minutes").bind (fun root => root.unsigned.thread) = some ⟨"$aside", 1⟩ := by
  decide

def cabinetThread : List Step := [.createShortroomid cabinet, .setRoomState cabinet (roomOf alice),
  .arrive ⟨.build, minutes, [], true, .ok ()⟩,
  .arrive ⟨.build, aside cabinet, [], true, .ok ()⟩]

theorem cabinetThread_holds : Along (step plainEnv) (ThreadsHold plainEnv) fresh cabinetThread := by
  refine threads_hold_along plainEnv cabinetThread ⟨trivial, trivial, ?_, ?_, trivial⟩
  · intro accepts k own
    refine ⟨by decide, fun pdu => reaches_inside fun id got hit => ?_, by simp [minutes, Content.thread?]⟩
    have absent : (none : Option Pdu) = some got := hit
    cases absent
  · intro accepts k own
    refine ⟨by decide, fun pdu => reaches_inside fun id got hit => ?_, fun root names => ?_⟩
    · have rows : (update (fun _ => none) ⟨1, .normal 2⟩ (some (minutes.setPositions ⟨1, 2⟩)) :
          PduId → Option Pdu) id = some got := hit
      rw [update_apply] at rows
      split at rows
      · obtain rfl := some.inj rows
        rfl
      · cases rows
    · obtain rfl : "$minutes" = root := some.inj names
      exact ⟨⟨by decide, fun _ _ => rfl⟩, ⟨1, .normal 2⟩, by decide +revert⟩

end Tracked

end Wbfuwunel.Rooms
