import Wbfuwunel.Api.CatchUp
import Wbfuwunel.Streams.Underway

/-! What the run of a catch-up rests on: rows without a position twice, a window that has whatever is due or was cut
short, the entry of the subscription, and the flag that is owed to it. -/

set_option autoImplicit false

namespace Wbfuwunel.Api
open Foundation Core Wire Streams Database Rooms List Function Option Registry Pushing

variable {Queue Pdu Pack PackError : Type}

/-! ## The rows -/

/-- Each room newest first, and no position twice. -/
structure Numbered (rows : RoomId → List (Count × Pdu)) (used : List Int64) : Prop where
  descending : ∀ room, Descending (rows room)
  used : ∀ room, ∀ item ∈ rows room, item.1.intoSigned ∈ used
  apart : ∀ room other, room ≠ other → ∀ item ∈ rows room, ∀ item' ∈ rows other, signed item.1 ≠ signed item'.1

variable {item : Count × Pdu} {streams : RoomId → List (Count × Pdu)}

theorem descending_orderedInsert {items : List (Count × Pdu)} (descending : Descending items)
    (fresh : ∀ o ∈ items, signed o.1 ≠ signed item.1) :
    Descending (items.orderedInsert (fun a b => signed b.1 ≤ signed a.1) item) := by
  have apart : (item :: items).Pairwise fun a b => signed a.1 ≠ signed b.1 :=
    pairwise_cons.mpr ⟨fun o mem => (fresh o mem).symm, descending.imp fun lt => (ne_of_lt lt).symm⟩
  exact descending_of_perm ((descending.imp le_of_lt).orderedInsert item items) (perm_orderedInsert _ item items) apart

variable {rows : RoomId → List (Count × Pdu)} {used : List Int64}

theorem Numbered.insert (ok : Numbered rows used) {n : Count} (fresh : n.intoSigned ∉ used) (r : RoomId)
    (pdu : Pdu) : Numbered (update rows r ((rows r).orderedInsert (fun a b => signed b.1 ≤ signed a.1) (n, pdu)))
      (n.intoSigned :: used) := by
  have new {o : RoomId} {item : Count × Pdu} (inside : item ∈ rows o) : signed item.1 ≠ signed n :=
    fun eq => fresh (Int64.toInt_inj.mp eq ▸ ok.used o item inside)
  have mem {o : RoomId} {item : Count × Pdu} (inside : item ∈ update rows r
      ((rows r).orderedInsert (fun a b => signed b.1 ≤ signed a.1) (n, pdu)) o) :
      o = r ∧ item = (n, pdu) ∨ item ∈ rows o := by
    by_cases eq : o = r
    · subst eq
      rw [update_self, mem_orderedInsert] at inside
      exact inside.imp_left fun eq => ⟨rfl, eq⟩
    · rw [update_of_ne eq] at inside
      exact .inr inside
  refine ⟨fun o => ?_, fun o item inside => ?_, fun a b differ item inside item' inside' => ?_⟩
  · by_cases eq : o = r
    · subst eq
      rw [update_self]
      exact descending_orderedInsert (ok.descending o) fun _ inside => new inside
    · rw [update_of_ne eq]
      exact ok.descending o
  · rcases mem inside with ⟨-, rfl⟩ | inside
    · exact mem_cons_self
    · exact mem_cons_of_mem _ (ok.used o item inside)
  · rcases mem inside with ⟨here, rfl⟩ | old <;> rcases mem inside' with ⟨here', rfl⟩ | old'
    · exact absurd (here.trans here'.symm) differ
    · exact (new old').symm
    · exact new old
    · exact ok.apart a b differ item old item' old'

/-! ## What the window holds -/

theorem holds_iff {es : List WindowEvent} {gSeq : Int64} : CatchUp.holds es gSeq ↔ ∃ event ∈ es, event.gSeq = gSeq := by
  simp [CatchUp.holds]

theorem goodItems_map_ok (items : List (Count × Pdu)) :
    goodItems (items.map (Except.ok : _ → Except Empty (Count × Pdu))) = items := by
  induction items with
  | nil => rfl
  | cons item items ih => exact congrArg (item :: ·) ih

/-- An event that is due: newer than what the client has, in a form that fits a pack on either way, and the user sees it
and does not ignore its sender. -/
structure Due (serving : Serving Pdu Pack PackError) (request : Subscribing Queue) (cgSeq : Int64)
    (item : Count × Pdu) : Prop where
  newer : cgSeq.toInt < signed item.1
  served : ((serving.reader fun _ => []).serves item).isSome
  fits : framedLen (serving.toFormat item.2).length ≤ serving.dataMax
  heard : serving.userIsIgnored (serving.sender item.2) request.user = false

variable {serving : Serving Pdu Pack PackError} {request : Subscribing Queue} {cgSeq : Int64}

theorem Serving.reader_steady (ok : Numbered rows used) (opened : ∀ r, (streams r).Sublist (rows r))
    (rooms : List RoomId) : (serving.reader streams).Steady rooms streams where
  yields _ _ _ := goodItems_map_ok _
  descending r _ := (ok.descending r).sublist (opened r)
  apart r _ o _ differ item mem item' mem' :=
    ok.apart r o differ item ((opened r).subset mem) item' ((opened o).subset mem')

theorem Due.windowAfter (ok : Numbered rows used) (opened : ∀ r, (streams r).Sublist (rows r))
    (asked : 0 < serving.recentMaxLimit) {rooms : List RoomId} {r : RoomId} (among : r ∈ rooms)
    (mem : item ∈ streams r) (due : Due serving request cgSeq item) :
    CatchUp.holds (serving.windowAfter streams rooms cgSeq).events item.1.intoSigned ∨
      (serving.windowAfter streams rooms cgSeq).isCutShort := by
  obtain ⟨e, served⟩ := isSome_iff_exists.mp due.served
  have newer : isNewerThanAfter item.1 (some (.fromSigned cgSeq)) := by
    simpa [isNewerThanAfter, Reader.signed_fromSigned] using due.newer
  have wait : e ∈ (serving.reader streams).due rooms streams (some (.fromSigned cgSeq)) none :=
    Reader.mem_due.mpr ⟨r, among, item, mem, newer, rfl, served⟩
  obtain ⟨n, eq, whole, -⟩ := (serving.reader_steady ok opened rooms).collectWindow_continues asked
    (some (.fromSigned cgSeq)) none
  cases cut : (serving.windowAfter streams rooms cgSeq).isCutShort with
  | true => exact .inr rfl
  | false =>
    refine .inl (holds_iff.mpr ⟨e, ?_, Int64.toInt_inj.mp (Reader.gSeq_of_serves served)⟩)
    rw [Serving.windowAfter, eq, whole cut]
    exact wait

/-! ## The subscription -/

def Listed (request : Subscribing Queue) (registry : RoomChannels Queue) : Prop :=
  ∃ subscriber, registry.subscribers request.connection = some subscriber ∧ subscriber.id = request.id ∧
    subscriber.user = request.user

section Listed

variable {g : RoomChannels Queue}

section

variable (ls : Listed request g)
include ls

theorem Listed.isSubscribed : g.isSubscribed request.connection := by
  obtain ⟨s, x, -⟩ := ls
  simp [Registry.isSubscribed, x]

theorem Listed.userOf : Registry.userOf g request.connection = some request.user := by
  obtain ⟨s, x, -, user⟩ := ls
  simp [Registry.userOf, x, user]

theorem Listed.markGap (cs : List ConnectionId) : Listed request (g.markGap cs) := by
  obtain ⟨s, got, id, user⟩ := ls
  simp only [Listed, subscribers_markGap, got]
  split
  · exact ⟨_, rfl, id, user⟩
  · exact ⟨_, rfl, id, user⟩

theorem Listed.takeTarget (conn : ConnectionId) : Listed request (takeTarget (g, []) conn).1 := by
  obtain ⟨s, got, id, user⟩ := ls
  by_cases eq : request.connection = conn
  · subst eq
    exact ⟨_, (takeTarget_self got).2, id, user⟩
  · exact ⟨s, (subscribers_takeTarget_other eq []).trans got, id, user⟩

end

theorem Listed.gapOf_markGap {cs : List ConnectionId} (ls : Listed request (g.markGap cs))
    (mem : request.connection ∈ cs) : (g.markGap cs).gapOf request.connection := by
  obtain ⟨s, got, -⟩ := ls
  rw [gapOf, got]
  rw [subscribers_markGap, if_pos mem] at got
  obtain ⟨existing, -, rfl⟩ := map_eq_some_iff.mp got
  rfl

theorem gapOf_markGap {conn : ConnectionId} (flag : g.gapOf conn)
    (cs : List ConnectionId) : (g.markGap cs).gapOf conn := by
  unfold gapOf at flag ⊢
  rw [subscribers_markGap]
  cases got : g.subscribers conn with
  | none => simp [got] at flag
  | some s => split <;> simp_all

end Listed

section Subscribing

variable {g : RoomChannels Queue}

theorem subscribers_enterTopics (conn : ConnectionId) (topics : List RoomTopic)
    (s : RoomChannels Queue × Entered RoomTopic Queue) :
    (topics.foldl (enterTopic .many conn) s).1.subscribers = s.1.subscribers := by
  induction topics generalizing s with
  | nil => rfl
  | cons t rest ih => exact (ih _).trans rfl

theorem subscribers_unsubscribe (conn : ConnectionId) (topics : List RoomTopic) :
    (unsubscribe g conn topics).subscribers = g.subscribers := by
  induction topics generalizing g with
  | nil => rfl
  | cons t rest ih => exact ih.trans rfl

theorem listed_register (owned : ∀ owner ∈ g.userOf request.connection, owner = request.user) :
    Listed request (g.register request.connection request.user request.queue request.id) := by
  cases hit : g.subscribers request.connection with
  | none =>
    exact ⟨.opened request.user request.queue request.id, by simp [register, hit], rfl, rfl⟩
  | some existing =>
    refine ⟨existing.refresh request.queue request.id, by simp [register, hit], ?_, ?_⟩
    · unfold Subscriber.refresh
      split
      · rfl
      next eq =>
        exact not_not.mp eq
    · rw [Subscriber.refresh_user]
      exact owned existing.user (by simp [userOf, hit])

theorem listed_subscribe {channels : RoomChannels Queue} {joined : Nat}
    (entered : g.subscribe request.connection request.user request.queue request.id request.rooms
      request.accountWide = (channels, some joined)) :
    Listed request channels ∧ ∀ r ∈ request.rooms, request.connection ∈ channels.topics.members (.room r) := by
  simp only [RoomChannels.subscribe] at entered
  obtain ⟨rfl, done⟩ := Prod.mk.inj entered
  have alive : request.connection ∉ g.ended := by
    intro finished
    simp [subscribe, finished] at done
  constructor
  · obtain ⟨s, x, same⟩ := @listed_register _ request (g.startOver request.connection request.user) userOf_startOver
    refine ⟨s, ?_, same⟩
    simp only [subscribe, if_neg alive, subscribers_enterTopics]
    exact x
  · intro r among
    exact ((subscribe_moves alive).mem_iff _ _).mpr (.inl ⟨mem_append_left _ (mem_map_of_mem among), rfl⟩)

end Subscribing

/-! ## What is owed -/

def Owing (request : Subscribing Queue) (push : Push Queue Pack PackError) : Prop :=
  (∃ pair ∈ push.targets, pair.1.connection = request.connection ∧ pair.1.id = request.id ∧ pair.1.gap) ∨
    ∃ pair ∈ push.dropped, pair.1 = request.connection

def Owes (request : Subscribing Queue) (pushing : Pushing RoomTopic UserId Queue Pack PackError) : Prop :=
  pushing.registry.gapOf request.connection ∨ Somewhere pushing.pushes fun _ push => Owing request push

section Pushes

variable {pushing : Pushing RoomTopic UserId Queue Pack PackError} {name : Nat} {push : Push Queue Pack PackError}

theorem Owes.take (owes : Owes request pushing) (ls : Listed request pushing.registry)
    (here : pushing.pushes name = some push) (conn : ConnectionId) (rest : List ConnectionId) :
    Owes request (pushing.take name push conn rest) := by
  simp only [Owes, pushes_take, registry_take]
  rcases owes with flag | got
  · by_cases eq : request.connection = conn
    · -- The flag goes with the pack.
      subst eq
      obtain ⟨s, x, id, -⟩ := ls
      have gap : s.gap := by simpa [gapOf, x] using flag
      refine .inr (Somewhere.here (.inl ?_))
      rw [(takeTarget_self x).1]
      exact ⟨_, mem_append_right _ mem_cons_self, rfl, id, gap⟩
    · refine .inl ?_
      rw [gapOf, subscribers_takeTarget_other eq]
      exact flag
  · rcases got.update name _ with ⟨push', hit, owing⟩ | away
    · obtain rfl := some.inj (here.symm.trans hit)
      refine .inr (Somewhere.here (owing.imp_left ?_))
      rintro ⟨pair, mem, own⟩
      exact ⟨pair, mem_append_left _ mem, own⟩
    · exact .inr away

variable {t : Target Queue} {turn : Nat} {rest : List (Target Queue × Nat)}

theorem Owes.send (owes : Owes request pushing) (here : pushing.pushes name = some push)
    (wait : push.targets = (t, turn) :: rest) (answer : Except QueueError Unit) :
    t.connection = request.connection ∧ t.id = request.id ∧ t.gap ∨
      Owes request (pushing.send name push t turn rest answer) := by
  simp only [Owes, registry_send, pushes_send]
  rcases owes with flag | got
  · exact .inr (.inl flag)
  · rcases got.update name _ with ⟨push', hit, owing⟩ | away
    · obtain rfl := some.inj (here.symm.trans hit)
      rcases owing with ⟨pair, mem, own⟩ | ⟨pair, mem, own⟩
      · rw [wait] at mem
        rcases mem_cons.mp mem with rfl | behind
        · exact .inl own
        · exact .inr (.inr (Somewhere.here (.inl ⟨pair, behind, own⟩)))
      · exact .inr (.inr (Somewhere.here (.inr ⟨pair, mem_append_left _ mem, own⟩)))
    · exact .inr (.inr away)

theorem Owes.of_dropped (own : t.connection = request.connection) {answer : Except QueueError Unit}
    (lost : push.makePack.tried t answer = .dropped) :
    Owes request (pushing.send name push t turn rest answer) := by
  refine .inr ?_
  rw [pushes_send, if_pos lost]
  exact Somewhere.here (.inr ⟨_, mem_append_right _ mem_cons_self, own⟩)

theorem Owes.mark (owes : Owes request pushing) (ls : Listed request pushing.registry)
    (here : pushing.pushes name = some push) (sent : push.targets = []) : Owes request (pushing.mark name push) := by
  rcases owes with flag | got
  · exact .inl (gapOf_markGap flag _)
  · rcases got.update name none with ⟨push', hit, owing⟩ | away
    · obtain rfl := some.inj (here.symm.trans hit)
      rcases owing with ⟨pair, mem, -⟩ | ⟨pair, mem, own⟩
      · simp [sent] at mem
      · exact .inl ((ls.markGap _).gapOf_markGap (mem_map.mpr ⟨pair, mem, own⟩))
    · exact .inr away

end Pushes

end Wbfuwunel.Api
