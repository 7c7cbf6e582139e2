import Wbfuwunel.Api.InviteOrder
import Wbfuwunel.Streams.SubscriberRuns

/-! What a client holds against what is stored, in every order of updates, pushes and passes.

A pack about a room is still to come, or was lost, or the newest one heard says what the tables say; or no pack about
the room came and the pass has read it. Along every run that meets the conditions this holds of each room.
-/

set_option autoImplicit false

namespace Wbfuwunel.Api
open Foundation Core Streams Database Rooms List Function Inviting Registry Pushing Pass StateCache Notice

variable {Queue Pack PackError : Type}

/-! ## The pass -/

namespace Pass

variable {cache : StateCache} {user : UserId} {pass : Pass} {room : RoomId} {row : Option Nat}

def IsAhead (pass : Pass) (room : RoomId) : Prop :=
  match pass.stage with
  | .asked => True
  | .counting unread _ => room ∈ unread
  | .reading .. | .finished _ => False

structure Sees (pass : Pass) (row : Option Nat) (room : RoomId) : Prop where
  sound : ∀ notice ∈ pass.found, notice.room = room → notice.isPending ∧ row = some notice.is
  complete : ∀ count, row = some count → count ≤ pass.upperBound ∧ (pass.IsAhead room ∨ ⟨room, count, true⟩ ∈ pass.found)

/-- A loss that the result does not make up for: one after the packs that are laid on top began, or after the pass was
asked for. -/
def Loses (pass : Pass) (count : Nat) : Prop := pass.since < count ∨ pass.asked ≤ count

def rowOf (cache : StateCache) (user : UserId) (room : RoomId) : Option Nat :=
  (cache.getInviteCount user room).map UInt64.toNat

variable {notice : Notice}

theorem mem_listPending {pending : List Notice} : notice ∈ pass.listPending cache user room pending ↔ notice ∈ pending ∨
      notice.is ≤ pass.upperBound ∧ notice = ⟨room, notice.is, true⟩ ∧ rowOf cache user room = some notice.is := by
  unfold listPending rowOf
  cases cache.getInviteCount user room with
  | none => simp
  | some n =>
    simp only [Option.map_some, Option.some.injEq]
    split
    case isTrue beyond =>
      refine ⟨.inl, fun either => either.resolve_right ?_⟩
      rintro ⟨within, -, eq⟩
      omega
    case isFalse within =>
      rw [mem_append, mem_singleton]
      refine or_congr_right ⟨?_, ?_⟩
      · rintro rfl
        exact ⟨Nat.le_of_not_lt within, rfl, rfl⟩
      · rintro ⟨-, eq, number⟩
        rw [eq, number]

theorem mem_found_advance (mem : notice ∈ (pass.advance cache user).found) :
    notice ∈ pass.found ∨ notice.isPending ∧ rowOf cache user notice.room = some notice.is := by
  obtain ⟨since, asked, upperBound, stage⟩ := pass
  match stage with
  | .asked => cases mem
  | .counting [] pending =>
    simp only [advance, found, append_nil, mem_insertionSort] at mem
    exact .inl mem
  | .counting (room :: unread) pending =>
    rcases mem_listPending.mp mem with old | ⟨-, eq, row⟩
    · exact .inl old
    · rw [eq]
      exact .inr ⟨rfl, row⟩
  | .reading [] entries => exact .inl mem
  | .reading (invite :: left) entries =>
    refine .inl ?_
    simp only [advance, found, readEntry, mem_append] at mem ⊢
    split at mem
    · simp only [mem_append, mem_singleton] at mem
      simp only [mem_cons]
      tauto
    · tauto
  | .finished entries => exact .inl mem

theorem Sees.advance (ord : cache.Sorted) (sees : pass.Sees (rowOf cache user room) room) :
    (pass.advance cache user).Sees (rowOf cache user room) room := by
  have invited {count : Nat} (hit : rowOf cache user room = some count) : cache.isInvited user room := by
    rw [← ord.isSome_getInviteCount, ← Option.isSome_map, show (cache.getInviteCount user room).map _ = _ from hit]
    rfl
  refine ⟨fun notice mem own => ?_, fun count hit => ⟨(sees.complete count hit).1, ?_⟩⟩
  · rcases mem_found_advance mem with old | ⟨pending, row⟩
    · exact sees.sound notice old own
    · exact ⟨pending, own ▸ row⟩
  · obtain ⟨within, either⟩ := sees.complete count hit
    obtain ⟨since, asked, upperBound, stage⟩ := pass
    match stage with
    | .asked => exact .inl (mem_roomsInvited (invited hit))
    | .counting [] pending =>
      refine .inr ?_
      simp only [advance, found, append_nil, mem_insertionSort]
      exact either.resolve_left (by simp [IsAhead])
    | .counting (next :: unread) pending =>
      rcases either with ahead | old
      · rcases mem_cons.mp ahead with rfl | later
        · exact .inr (mem_listPending.mpr (.inr ⟨within, rfl, hit⟩))
        · exact .inl later
      · exact .inr (mem_listPending.mpr (.inl old))
    | .reading [] entries => exact .inr (either.resolve_left id)
    | .reading (invite :: left) entries =>
      refine .inr ?_
      have mem := either.resolve_left id
      simp only [found, cons_append, mem_cons, mem_append] at mem
      simp only [advance, found, readEntry, mem_append]
      rcases mem with rfl | later | read
      · rw [if_pos (invited hit)]
        exact .inr (by simp)
      · exact .inl later
      · refine .inr ?_
        split
        · exact mem_append_left _ read
        · exact read
    | .finished entries => exact .inr (either.resolve_left id)

end Pass

namespace Inviting

/-! ## What the client will have of a room -/

section Rooms

variable (setting : InviteSetting Queue) (world : Inviting Queue Pack PackError)

def Coming (room : RoomId) : Prop :=
  (∃ (name : Nat) (updating : Updating),
    world.updates[name]? = some updating ∧ updating.room = room ∧ updating.announces) ∨
  Somewhere world.pushing.pushes fun name push =>
    (world.carries name).room = room ∧ Bears setting.connection push

def later (since : Nat) : List Notice := (world.inbox.drop since).map Prod.fst

def Untouched (since : Nat) (room : RoomId) : Prop := ∀ notice ∈ world.later since, notice.room ≠ room

/-- The newest notice of the room that is heard of is among the later packs, and tells the row as it is. -/
def Newest (since : Nat) (room : RoomId) : Prop :=
  ∃ notice ∈ world.later since, notice.room = room ∧ world.row setting room = notice.row ∧
    ∀ other ∈ world.heard, other.room = room → other.Precedes notice

def Settles (loses : Nat → Prop) (since : Nat) (room : RoomId) : Prop :=
  world.Coming setting room ∨ (∃ count, (room, count) ∈ world.losses ∧ loses count) ∨ world.Newest setting since room

/-- Along a run that meets these conditions the client converges: the updates of a room do not overlap, a room is deleted
while the user is not invited to it, and a pass is asked for when no invite is newer than its bound without a pack about
it to be laid on top. -/
def Allowed : InviteEvent Pack PackError → Prop
  | .draw update => ∀ updating ∈ world.updates, updating.room = update.roomId → updating.isActive = false
  | .deleteRoom room _ => world.cache.isInvited setting.user room = false
  | .ask since => ∀ room ∈ world.cache.roomsInvited setting.user, ∀ count ∈ world.row setting room,
    count ≤ world.globals.counter.current ∨ world.Coming setting room ∨ ¬world.Untouched since room
  | _ => True

structure Caught : Prop where
  listens : world.isRegistered → setting.connection ∈ world.pushing.registry.topics.members setting.user ∧
    world.pushing.registry.isSubscribed setting.connection
  settled : world.isRegistered → world.isOpen → ∀ since room,
    world.Settles setting (since < ·) since room ∨ world.Untouched since room
  bounded : ∀ pass, world.pass = some pass →
    world.isRegistered ∧ pass.since ≤ pass.asked ∧ pass.asked ≤ world.inbox.length
  passed : ∀ pass, world.pass = some pass → world.isOpen → ∀ room, world.Settles setting pass.Loses pass.since room ∨
      world.Untouched pass.since room ∧ pass.Sees (world.row setting room) room

end Rooms

variable {setting : InviteSetting Queue} {world next : Inviting Queue Pack PackError} {room : RoomId}
  {since name : Nat} {updating : Updating}

theorem Settles.mono {loses : Nat → Prop} (settles : world.Settles setting loses since room)
    (row : next.row setting room = world.row setting room) (later : world.later since ⊆ next.later since)
    (losses : world.losses ⊆ next.losses) (coming : world.Coming setting room → next.Coming setting room)
    (heard : ∀ notice ∈ next.heard, notice.room = room →
      notice ∈ world.heard ∨ notice.isPending ∧ world.row setting room = some notice.is) :
    next.Settles setting loses since room := by
  rcases settles with comes | ⟨count, mem, lost⟩ | ⟨notice, mem, own, tells, newest⟩
  · exact .inl (coming comes)
  · exact .inr (.inl ⟨count, losses mem, lost⟩)
  · refine .inr (.inr ⟨notice, later mem, own, row.trans tells, fun o among eq => ?_⟩)
    rcases heard o among eq with old | ⟨pending, hit⟩
    · exact newest o old eq
    · -- A row that is found now is the one the newest notice tells of.
      obtain ⟨isPending, is⟩ := row_eq_some (tells.symm.trans hit)
      exact .inr ⟨is.symm, pending.trans isPending.symm⟩

section

variable (caught : world.Caught setting)
include caught

/-- A step that leaves what the client has, the pass and each row alone, and every pack that is to come; or one after
which a pack about the room is to come. -/
theorem Caught.of_same (reg : next.isRegistered = world.isRegistered) (isOpen : next.isOpen = world.isOpen)
    (pass : next.pass = world.pass) (inbox : next.inbox = world.inbox) (losses : next.losses = world.losses)
    (still : Registry.Still world.pushing.registry next.pushing.registry)
    (goes : world.isRegistered → ∀ room, next.Coming setting room ∨
      next.row setting room = world.row setting room ∧ (world.Coming setting room → next.Coming setting room)) :
    next.Caught setting := by
  have heard : next.heard = world.heard := by simp only [heard, found, pass, inbox]
  have later (since : Nat) : next.later since = world.later since := by rw [later, inbox, later]
  have settles {loses : Nat → Prop} {since : Nat} {room : RoomId} (row : next.row setting room = world.row setting room)
      (coming : world.Coming setting room → next.Coming setting room)
      (old : world.Settles setting loses since room) : next.Settles setting loses since room :=
    old.mono row (by simp [later]) (by simp [losses]) coming fun notice mem _ => .inl (heard ▸ mem)
  have untouched {since : Nat} {room : RoomId} (old : world.Untouched since room) : next.Untouched since room := by
    rwa [Untouched, later]
  refine ⟨fun isRegistered => ?_, fun isRegistered open' since room => ?_, fun found hit => ?_,
    fun found hit open' room => ?_⟩
  · obtain ⟨mem, subscribed⟩ := caught.listens (reg ▸ isRegistered)
    refine ⟨(still.mem_iff _ _).mpr (.inr ⟨mem, id⟩), ?_⟩
    rw [isSubscribed_eq, still.same.userOf, ← isSubscribed_eq]
    exact subscribed
  · rcases goes (reg ▸ isRegistered) room with comes | ⟨row, coming⟩
    · exact .inl (.inl comes)
    · exact (caught.settled (reg ▸ isRegistered) (isOpen ▸ open') since room).imp (settles row coming) untouched
  · rw [reg, inbox]
    exact caught.bounded found (pass ▸ hit)
  · rw [pass] at hit
    rcases goes (caught.bounded found hit).1 room with comes | ⟨row, coming⟩
    · exact .inl (.inl comes)
    · rw [row]
      exact (caught.passed found hit (isOpen ▸ open') room).imp (settles row coming) (And.imp_left untouched)

/-! ## The updates -/

omit caught in
theorem Coming.setStage (coming : world.Coming setting room) (here : world.updates[name]? = some updating)
    (stage : UpdateStage) :
    updating.room = room ∧ updating.announces ∨ (world.setStage name updating stage).Coming setting room := by
  rcases coming with ⟨o, teller, there, own, announces⟩ | pushed
  · by_cases eq : o = name
    · subst eq
      obtain rfl := Option.some.inj (here.symm.trans there)
      exact .inl ⟨own, announces⟩
    · exact .inr (.inl ⟨o, teller, (getElem?_set_ne (Ne.symm eq)).trans there, own, announces⟩)
  · exact .inr (.inr pushed)

omit caught in
theorem coming_of_announces (here : world.updates[name]? = some updating) {stage : UpdateStage}
    (announces : { updating with stage }.announces) :
    (world.setStage name updating stage).Coming setting updating.room :=
  .inl ⟨name, _, getElem?_set_here here _, rfl, announces⟩

theorem Caught.setStage (here : world.updates[name]? = some updating) (stage : UpdateStage)
    (tells : world.isRegistered → updating.announces → { updating with stage }.announces) :
    (world.setStage name updating stage).Caught setting := by
  refine caught.of_same rfl rfl rfl rfl rfl (.still ⟨rfl, rfl, rfl⟩ rfl) fun reg room => .inr ⟨rfl, fun coming => ?_⟩
  rcases coming.setStage here stage with ⟨rfl, announces⟩ | still
  · exact coming_of_announces here (tells reg announces)
  · exact still

theorem Caught.of_rows (cache : StateCache) (globals : Globals)
    (rows : ∀ room, row setting { world with cache, globals } room = world.row setting room) :
    Caught setting { world with cache, globals } :=
  caught.of_same rfl rfl rfl rfl rfl (.still ⟨rfl, rfl, rfl⟩ rfl) fun _ room => .inr ⟨rows room, id⟩

theorem Caught.draw (update : MembershipUpdate) : (world.draw setting update).Caught setting := by
  unfold Inviting.draw
  simp only
  split
  case isFalse => exact caught
  case isTrue =>
    refine caught.of_same rfl rfl rfl rfl rfl (.still ⟨rfl, rfl, rfl⟩ rfl) fun _ room => .inr ⟨rfl, Or.imp_left ?_⟩
    rintro ⟨name, updating, here, rest⟩
    obtain ⟨mem, -⟩ := List.getElem?_eq_some_iff.mp here
    exact ⟨name, updating, (getElem?_append_left mem).trans here, rest⟩

variable {update : MembershipUpdate} {wasInvited : Bool}

theorem Caught.enter (orderly : world.Orderly setting) (here : world.updates[name]? = some ⟨update, .begun wasInvited⟩) :
    (world.enter setting name ⟨update, .begun wasInvited⟩ wasInvited).Caught setting := by
  have user : update.userId = setting.user := (orderly.numbered.drawn name _ here).1
  have was : wasInvited = (world.row setting update.roomId).isSome := orderly.stages name _ here
  have returned := caught.setStage here .returned fun _ announces => by cases announces
  unfold Inviting.enter
  cases ensured : setting.services.ensureRemoteUser setting.user with
  | error error => exact returned
  | ok done =>
    rw [← user] at ensured
    have early := @StateCache.getInviteCount_of_endsEarly world.cache setting.user
    simp only
    split
    case h_1 cache entered =>
      have rows := @row_enterMembership _ _ _ setting world ⟨update, .begun wasInvited⟩ user ensured (by rw [entered])
      rw [entered] at rows
      refine caught.of_same rfl rfl rfl rfl rfl (.still ⟨rfl, rfl, rfl⟩ rfl) fun _ room => ?_
      by_cases own : room = update.roomId
      · subst own
        by_cases announces : Updating.announces ⟨update, .entered wasInvited⟩
        · exact .inl (coming_of_announces here announces)
        · -- What ends no invite leaves the row: there was none.
          have nothing : ¬update.membership = .invite ∧ ¬(wasInvited ∧ isInviteEndedBy update.membership) := by
            simpa [Updating.announces] using announces
          refine .inr ⟨(rows update.roomId).trans ?_, fun coming => ?_⟩
          · refine (if_pos rfl).trans ?_
            rw [if_neg nothing.1]
            split
            next ends =>
              have absent : (world.row setting update.roomId).isSome = false := by
                rw [← was]
                simpa [ends] using nothing.2
              exact (Option.isNone_iff_eq_none.mp (by simpa using absent)).symm
            · rfl
          · exact (coming.setStage here (.entered wasInvited)).resolve_left (by simp [Updating.announces])
      · refine .inr ⟨(rows room).trans (if_neg own), fun coming => ?_⟩
        exact (coming.setStage here (.entered wasInvited)).resolve_left (by simp [Updating.announces])
    all_goals
      rename_i entered
      refine returned.of_rows _ _ fun room => ?_
      have eq := @early room setting.services update ensured (by rw [entered]; simp)
      rw [entered] at eq
      simp only [Inviting.row, Inviting.setStage, eq]

theorem Caught.mem_listeners (reg : world.isRegistered) : setting.connection ∈ world.listeners setting := by
  obtain ⟨mem, subscribed⟩ := caught.listens reg
  rw [isSubscribed_eq] at subscribed
  obtain ⟨owner, entry⟩ := Option.isSome_iff_exists.mp subscribed
  exact mem_map.mpr ⟨_, Registry.mem_listeners entry mem, rfl⟩

theorem Caught.announce {push : Nat} (here : world.updates[name]? = some updating) (ended : world.isOver push)
    (makePack : MakePack Pack PackError) : (world.announce setting name push updating makePack).Caught setting := by
  have fresh : world.pushing.pushes push = none := Option.isNone_iff_eq_none.mp ended
  unfold Inviting.announce
  simp only
  split
  case isTrue nobody =>
    refine caught.setStage here .announced fun reg => absurd ?_ (ne_nil_of_mem (caught.mem_listeners reg))
    exact isEmpty_iff.mp nobody
  case isFalse =>
    refine caught.of_same rfl rfl rfl rfl rfl ?_ fun reg room => ?_
    · rw [step_start fresh]
      exact .still ⟨rfl, rfl, rfl⟩ rfl
    · by_cases own : updating.room = room
      · -- The connection is among those the push will take.
        subst own
        refine .inl (.inr ?_)
        simp only [step_start fresh]
        refine Somewhere.here ⟨by rw [update_self]; rfl, .inl (mem_filter.mpr ⟨?_, ?_⟩)⟩
        · exact caught.mem_listeners reg
        · exact isStillInTopic_of_mem (caught.listens reg).1
      · refine .inr ⟨rfl, fun coming => ?_⟩
        rcases (coming.setStage here (.pushing push)).resolve_left fun mine => own mine.1 with told | pushed
        · exact .inl told
        · refine .inr ?_
          simp only [step_start fresh]
          obtain ⟨o, got, there, about, bears⟩ := pushed
          have differ : o ≠ push := by
            rintro rfl
            exact absurd (there.symm.trans fresh) (by simp)
          exact ⟨o, got, (update_of_ne differ ..).trans there,
            (congrArg Notice.room (update_of_ne differ ..)).trans about, bears⟩

theorem Caught.look (here : world.updates[name]? = some ⟨update, .entered wasInvited⟩) :
    (world.setStage name ⟨update, .entered wasInvited⟩
      (if (world.listeners setting).isEmpty then .announced else .listened)).Caught setting := by
  refine caught.setStage here _ fun reg _ => ?_
  rw [if_neg]
  · rfl
  · rw [List.isEmpty_iff]
    exact ne_nil_of_mem (caught.mem_listeners reg)

/-! ## The pass and the subscription -/

theorem Caught.ask (ok : world.Orderly setting) (reg : world.isRegistered)
    (within : since ≤ world.inbox.length) (allowed : world.Allowed setting (.ask since)) :
    (world.ask since).Caught setting := by
  have settles {loses : Nat → Prop} {from' : Nat} {room : RoomId} (old : world.Settles setting loses from' room) :
      (world.ask since).Settles setting loses from' room := by
    refine old.mono rfl (fun _ => id) (fun _ => id) id fun notice mem _ => .inl ?_
    exact mem_append_left _ ((mem_append.mp mem).resolve_right (by simp [found, Inviting.ask, Pass.found]))
  refine ⟨caught.listens, fun reg open' from' room => ?_, fun pass hit => ?_, fun pass hit open' room => ?_⟩
  · exact (caught.settled reg open' from' room).imp_left settles
  · obtain rfl := Option.some.inj hit
    exact ⟨reg, within, le_rfl⟩
  · obtain rfl := Option.some.inj hit
    rcases caught.settled reg open' since room with old | untouched
    · refine .inl (settles (old.imp_right (Or.imp_left ?_)))
      rintro ⟨count, mem, later⟩
      exact ⟨count, mem, .inl later⟩
    · by_cases coming : world.Coming setting room
      · exact .inl (settles (.inl coming))
      · refine .inr ⟨untouched, ⟨fun notice mem => (not_mem_nil mem).elim, fun count hit => ⟨?_, .inl trivial⟩⟩⟩
        have invited : world.cache.isInvited setting.user room := by
          rw [← ok.isSome_row, show world.row setting room = some count from hit]
          rfl
        rcases allowed room (mem_roomsInvited invited) count hit with bounded | comes | touched
        · exact bounded
        · exact absurd comes coming
        · exact absurd untouched touched

theorem Caught.advance (ok : world.Orderly setting) :
    Caught setting { world with pass := world.pass.map (advance world.cache setting.user) } := by
  have settles {loses : Nat → Prop} {since : Nat} {room : RoomId} (before : world.Settles setting loses since room) :
      Settles setting { world with pass := world.pass.map (Pass.advance world.cache setting.user) } loses since room := by
    refine before.mono rfl (fun _ => id) (fun _ => id) id fun notice mem own => ?_
    simp only [heard, found, mem_append, mem_flatMap, Option.mem_toList] at mem ⊢
    rcases mem with got | ⟨pass, mapped, mem⟩
    · exact .inl (.inl got)
    · obtain ⟨old, hit, rfl⟩ := Option.map_eq_some_iff.mp mapped
      rcases mem_found_advance mem with before | ⟨pending, row⟩
      · exact .inl (.inr ⟨old, hit, before⟩)
      · exact .inr ⟨pending, own ▸ row⟩
  refine ⟨caught.listens, fun reg open' since room => ?_, fun pass hit => ?_, fun pass hit open' room => ?_⟩
  · exact (caught.settled reg open' since room).imp_left settles
  · obtain ⟨old, there, rfl⟩ := Option.map_eq_some_iff.mp hit
    exact caught.bounded old there
  · obtain ⟨old, there, rfl⟩ := Option.map_eq_some_iff.mp hit
    exact (caught.passed old there open' room).imp settles (And.imp_right (Pass.Sees.advance ok.sorted))

theorem Caught.subscribe (reg : world.isRegistered = false) : (world.subscribe setting).Caught setting := by
  unfold Inviting.subscribe
  rcases done : world.pushing.registry.subscribe .many setting.connection setting.user setting.queue setting.id
    [setting.user] with ⟨g, _ | entered⟩
  · exact caught
  · have alive : setting.connection ∉ world.pushing.registry.ended := by
      intro ended
      simp [Registry.subscribe, ended] at done
    have moves := @Registry.subscribe_moves _ _ _ _ _ world.pushing.registry .many setting.connection setting.user
      setting.queue setting.id [setting.user] alive
    rw [done] at moves
    refine ⟨fun _ => ⟨(moves.mem_iff _ _).mpr (.inl ⟨mem_singleton.mpr rfl, rfl⟩), ?_⟩, fun _ _ since room => .inr ?_,
      fun pass hit => ?_, fun pass hit => ?_⟩
    · rw [isSubscribed_eq, moves.same.userOf, ← isSubscribed_eq]
      simp [isSubscribed, register]
    · simp [Untouched, later]
    all_goals
      have asked := (caught.bounded pass hit).1
      rw [reg] at asked
      cases asked

end

/-! ## The pushes -/

section Send

variable {name : Nat} {push : Push Queue Pack PackError} {t : Target Queue} {turn : Nat}
  {rest : List (Target Queue × Nat)} (answer : Except QueueError Unit)

theorem Coming.send (coming : world.Coming setting room) (here : world.pushing.pushes name = some push)
    (taken : push.candidates = []) (wait : push.targets = (t, turn) :: rest) :
    t.connection = setting.connection ∧ (world.carries name).room = room ∨
      Coming setting { world with pushing := world.pushing.send name push t turn rest answer } room := by
  rcases coming with told | pushed
  · exact .inr (.inl told)
  · exact (bears_send here taken wait answer pushed).imp_right .inr

theorem mem_heard_deliver {notice carried : Notice} (mem : notice ∈ (world.deliver t carried .queued).heard) :
    notice ∈ world.heard ∨ notice = carried := by
  simp only [heard, found, deliver, map_append, map_cons, map_nil, mem_append, mem_singleton] at mem ⊢
  tauto

theorem later_deliver (since : Nat) (carried : Notice) : (world.deliver t carried .queued).later since =
    world.later since ++ [carried].drop (since - world.inbox.length) := by
  simp [later, deliver, drop_append, map_drop]

theorem Settles.deliver {loses : Nat → Prop} (outcome : Outcome) {carried : Notice} (differ : carried.room ≠ room)
    (settles : world.Settles setting loses since room) : (world.deliver t carried outcome).Settles setting loses since room := by
  cases outcome with
  | queued =>
    refine settles.mono rfl ?_ (fun _ => id) id fun notice mem eq => ?_
    · rw [later_deliver]
      exact subset_append_left ..
    · exact .inl ((mem_heard_deliver mem).resolve_right fun same => differ (same ▸ eq))
  | dropped => exact settles.mono rfl (fun _ => id) (subset_append_left ..) id fun _ mem _ => .inl mem
  | gone => exact settles

theorem Untouched.deliver {carried : Notice} (differ : carried.room ≠ room) (untouched : world.Untouched since room) :
    (world.deliver t carried .queued).Untouched since room := by
  intro notice mem
  rw [later_deliver, mem_append] at mem
  rcases mem with before | new
  · exact untouched notice before
  · rwa [mem_singleton.mp (mem_of_mem_drop new)]

/-- The pack of a push tells the row as it is, and nothing newer was heard. -/
theorem Orderly.carries (ok : world.Orderly setting) (here : world.pushing.pushes name = some push) :
    world.row setting (world.carries name).room = (world.carries name).row ∧ world.Tells (world.carries name) ∧
      ∀ o ∈ world.heard, o.room = (world.carries name).room → o.Precedes (world.carries name) := by
  obtain ⟨owner, updating, there, pushes, carried⟩ := ok.owned name (by simp [isOver, here])
  have active : updating.isActive := by simp [Updating.isActive, pushes]
  have stage := ok.stages owner updating there
  rw [carried]
  simp only [StageHolds, pushes] at stage
  refine ⟨stage, ⟨owner, updating, there, active, rfl⟩, fun o mem own => ?_⟩
  exact ok.numbered.older owner updating there active o (.inl mem) own

theorem Orderly.send (ok : world.Orderly setting) (here : world.pushing.pushes name = some push) :
    (world.send setting name push t turn rest answer).Orderly setting := by
  have ended (o : Nat) (none : world.isOver o) : ((world.pushing.send name push t turn rest answer).pushes o).isNone := by
    have differ : o ≠ name := by
      rintro rfl
      simp [isOver, here] at none
    rwa [pushes_send, update_of_ne differ]
  unfold Inviting.send
  split
  case isFalse => exact ok.of_same rfl rfl ended (fun _ => rfl) ok.sorted rfl fun _ mem => .inl (.inl mem)
  case isTrue =>
    cases push.makePack.tried t answer with
    | queued =>
      refine ok.of_same rfl rfl ended (fun _ => rfl) ok.sorted rfl fun notice mem => ?_
      rcases mem_heard_deliver mem with old | rfl
      · exact .inl (.inl old)
      · exact .inr (ok.carries here).2.1
    | dropped | gone =>
      exact ok.of_same rfl rfl ended (fun _ => rfl) ok.sorted rfl fun _ mem => .inl (.inl mem)

theorem untouched_of_length_le (beyond : world.inbox.length ≤ since) : world.Untouched since room := by
  simp [Untouched, later, drop_eq_nil_of_le beyond]

theorem Caught.send (caught : world.Caught setting) (ok : world.Orderly setting)
    (here : world.pushing.pushes name = some push) (taken : push.candidates = [])
    (wait : push.targets = (t, turn) :: rest) :
    (world.send setting name push t turn rest answer).Caught setting := by
  have coming {room : RoomId} (comes : world.Coming setting room) := comes.send answer here taken wait
  have g : (world.pushing.send name push t turn rest answer).registry = world.pushing.registry :=
    registry_send ..
  have listens := g.symm ▸ caught.listens
  obtain ⟨tells, -, newest⟩ := ok.carries here
  let sent : Inviting Queue Pack PackError := { world with pushing := world.pushing.send name push t turn rest answer }
  have settles {loses : Nat → Prop} {since : Nat} {room : RoomId} (differ : (world.carries name).room ≠ room)
      (outcome : Outcome) (old : world.Settles setting loses since room) :
      (sent.deliver t (world.carries name) outcome).Settles setting loses since room := by
    refine .deliver outcome differ (old.mono rfl (fun _ => id) (fun _ => id) (fun comes => ?_) fun _ mem _ => .inl mem)
    exact (coming comes).resolve_left fun mine => differ mine.2
  unfold Inviting.send
  split
  case isFalse o =>
    exact caught.of_same rfl rfl rfl rfl rfl (g ▸ .still ⟨rfl, rfl, rfl⟩ rfl) fun _ room =>
      .inr ⟨rfl, fun comes => (coming comes).resolve_left fun own => o own.1⟩
  case isTrue own =>
    cases push.makePack.tried t answer with
    | queued =>
      -- The pack is the newest notice of its room from now on.
      have about {since : Nat} (within : since ≤ world.inbox.length) :
          (sent.deliver t (world.carries name) .queued).Newest setting since (world.carries name).room := by
        refine ⟨world.carries name, ?_, rfl, tells, fun o among eq => ?_⟩
        · simp [later_deliver, sent, Nat.sub_eq_zero_of_le within]
        · rcases mem_heard_deliver among with old | rfl
          · exact newest o old eq
          · exact .refl _
      refine ⟨listens, fun reg open' since room => ?_, fun pass hit => ?_, fun pass hit open' room => ?_⟩
      · by_cases eq : (world.carries name).room = room
        · subst eq
          rcases Nat.lt_or_ge world.inbox.length since with beyond | within
          · exact .inr (untouched_of_length_le (by simpa [deliver] using beyond))
          · exact .inl (.inr (.inr (about within)))
        · exact (caught.settled reg open' since room).imp (settles eq .queued) (.deliver eq)
      · obtain ⟨reg, since, asked⟩ := caught.bounded pass hit
        exact ⟨reg, since, asked.trans (by simp [deliver])⟩
      · obtain ⟨-, since, asked⟩ := caught.bounded pass hit
        by_cases eq : (world.carries name).room = room
        · subst eq
          exact .inl (.inr (.inr (about (since.trans asked))))
        · exact (caught.passed pass hit open' room).imp (settles eq .queued) (And.imp_left (.deliver eq))
    | dropped =>
      have lost : ((world.carries name).room, world.inbox.length) ∈
          world.losses ++ [((world.carries name).room, world.inbox.length)] := by simp
      refine ⟨listens, fun reg open' since room => ?_, caught.bounded, fun pass hit open' room => ?_⟩
      · by_cases eq : (world.carries name).room = room
        · subst eq
          rcases Nat.lt_or_ge since world.inbox.length with old | beyond
          · exact .inl (.inr (.inl ⟨_, lost, old⟩))
          · exact .inr (untouched_of_length_le beyond)
        · exact (caught.settled reg open' since room).imp_left (settles eq .dropped)
      · by_cases eq : (world.carries name).room = room
        · subst eq
          exact .inl (.inr (.inl ⟨_, lost, .inr (caught.bounded pass hit).2.2⟩))
        · exact (caught.passed pass hit open' room).imp_left (settles eq .dropped)
    | gone =>
      refine ⟨listens, fun _ open' => ?_, caught.bounded, fun _ _ open' => ?_⟩
      · cases open'
      · cases open'

end Send

/-! ## Whole runs -/

theorem caught_start (g : Registry UserId UserId Queue) (n : Nat) :
    (start g n : Inviting Queue Pack PackError).Caught setting := by
  refine ⟨fun reg => ?_, fun reg => ?_, fun pass hit => ?_, fun pass hit => ?_⟩
  · cases reg
  · cases reg
  · cases hit
  · cases hit

structure Kept (setting : InviteSetting Queue) (world : Inviting Queue Pack PackError) : Prop where
  orderly : world.Orderly setting
  caught : world.Caught setting

theorem Kept.publish (kept : world.Kept setting) {push : Nat} (here : world.updates[name]? = some updating)
    (ended : world.isOver push) (makePack : MakePack Pack PackError) :
    (world.publish setting name push updating makePack).Kept setting := by
  have ⟨ok, caught⟩ := kept
  have h := ok.stages name updating here
  unfold Inviting.publish
  cases stage : updating.stage with
  | listened =>
    simp only [StageHolds, stage] at h
    have active : updating.isActive := by simp [Updating.isActive, stage]
    have idle (push : Nat) : updating.stage ≠ .pushing push := by simp [stage]
    have invited : world.cache.isInvited setting.user updating.room := by
      rw [← ok.isSome_row, h.1, isSome_row, h.2]
    simp only [invited]
    exact ⟨ok.announce here active idle h.1 ended makePack, caught.announce here ended makePack⟩
  | entered wasInvited =>
    have active : updating.isActive := by simp [Updating.isActive, stage]
    have idle (push : Nat) : updating.stage ≠ .pushing push := by simp [stage]
    simp only
    split
    · exact kept
    · split
      next announces =>
        simp only [StageHolds, stage] at h
        exact ⟨ok.announce here active idle (h announces) ended makePack, caught.announce here ended makePack⟩
      next silent =>
        refine ⟨ok.setStage here .announced (fun _ => active) trivial fun push pushes => absurd pushes (idle push), ?_⟩
        exact caught.setStage here .announced fun _ announces => absurd announces silent
  | _ => exact kept

theorem Kept.recount (kept : world.Kept setting) (here : world.updates[name]? = some updating)
    (silent : updating.announces = false) (ended : ∀ push, updating.stage = .pushing push → world.isOver push) :
    (world.recount name updating).Kept setting := by
  have ok := kept.orderly.setStage here .returned (fun active => by cases active) trivial ended
  have caught := kept.caught.setStage here .returned fun _ announces => by rw [silent] at announces; cases announces
  have rows (room : RoomId) : (world.recount name updating).row setting room = world.row setting room := by
    simp only [Inviting.recount]
    split <;> rfl
  refine ⟨ok.of_same rfl rfl (fun _ => id) rows ?_ rfl fun notice mem => .inl (.inl mem),
    caught.of_rows _ world.globals rows⟩
  simp only [Inviting.recount]
  split
  · exact ok.sorted.sameTables ⟨rfl, rfl⟩
  · exact ok.sorted

theorem Kept.step (kept : world.Kept setting) (event : InviteEvent Pack PackError) (allowed : world.Allowed setting event) :
    (world.step setting event).Kept setting := by
  have ⟨ok, caught⟩ := kept
  cases event <;> simp only [Inviting.step]
  case draw update =>
    refine ⟨ok.draw update fun name o there active eq => ?_, caught.draw update⟩
    have ended := allowed o (mem_of_getElem? there) eq
    rw [active] at ended
    cases ended
  case check name =>
    split
    case h_1 update here =>
      refine ⟨ok.setStage here _ (fun _ => rfl) (ok.isSome_row _).symm (by simp), caught.setStage here _ ?_⟩
      exact fun _ announces => by cases announces
    case h_2 => exact kept
  case enter name =>
    split
    case h_1 update wasInvited here => exact ⟨ok.enter here, caught.enter ok here⟩
    case h_2 => exact kept
  case look name =>
    split
    case h_1 update wasInvited here =>
      split
      case isTrue invite =>
        refine ⟨ok.setStage here _ (fun _ => rfl) ?_ (by simp), caught.look here⟩
        split
        · trivial
        · have pending : (Updating.notice ⟨update, .entered wasInvited⟩).isPending := by simp [Updating.notice, invite]
          exact ⟨ok.stages name _ here (by simp [Updating.announces, invite]), pending⟩
      case isFalse => exact kept
    case h_2 => exact kept
  case publish name push makePack =>
    split
    case h_1 updating here =>
      split
      case isTrue ended => exact kept.publish here ended makePack
      case isFalse => exact kept
    case h_2 => exact kept
  case recount name =>
    split
    case h_1 update here => exact kept.recount here rfl (by simp)
    case h_2 update push here =>
      split
      case isTrue ended => exact kept.recount here rfl (by rintro _ ⟨rfl⟩; exact ended)
      case isFalse => exact kept
    case h_3 => exact kept
  case release name =>
    split
    case h_1 update here =>
      have released := ok.setStage here .released (fun active => by cases active) trivial (by simp)
      refine ⟨released.of_same rfl rfl (fun _ => id) (fun _ => rfl) released.sorted (dispatched_dropPermit ..)
        fun notice mem => .inl (.inl mem), ?_⟩
      exact (caught.setStage here .released fun _ announces => by cases announces).of_rows _ _ fun _ => rfl
    case h_2 => exact kept
  case deleteRoom t force =>
    have absent : world.cache.getInviteCount setting.user t = none := by
      rw [← Option.not_isSome_iff_eq_none, ok.sorted.isSome_getInviteCount]
      simpa using show world.cache.isInvited setting.user t = false from allowed
    have rows (room : RoomId) : (world.step setting (.deleteRoom t force)).row setting room = world.row setting room := by
      simp only [row, Inviting.step, getInviteCount_deleteRoomJoinCounts _ _ absent]
    exact ⟨ok.of_same rfl rfl (fun _ => id) rows (ok.sorted.deleteRoomJoinCounts ..) rfl
      fun notice mem => .inl (.inl mem), caught.of_rows _ world.globals rows⟩
  case subscribe =>
    split
    case isTrue => exact kept
    case isFalse unregistered =>
      refine ⟨?_, caught.subscribe (by simpa using unregistered)⟩
      unfold Inviting.subscribe
      split
      · exact ok
      · exact ok.of_same rfl rfl (fun _ => id) (fun _ => rfl) ok.sorted rfl fun notice mem =>
          .inl (.inl (mem_append_right _ ((mem_append.mp mem).resolve_left (by simp))))
  case ask since =>
    split
    case isTrue may =>
      simp only [Bool.and_eq_true, decide_eq_true_eq] at may
      refine ⟨ok.of_same rfl rfl (fun _ => id) (fun _ => rfl) ok.sorted rfl fun notice mem => ?_,
        caught.ask ok may.1.1 may.2 allowed⟩
      exact .inl (.inl (mem_append_left _ ((mem_append.mp mem).resolve_right
        (by simp [found, Inviting.ask, Pass.found]))))
    case isFalse => exact kept
  case advance =>
    refine ⟨ok.of_same rfl rfl (fun _ => id) (fun _ => rfl) ok.sorted rfl fun notice mem => ?_, caught.advance ok⟩
    simp only [heard, found, mem_append, mem_flatMap, Option.mem_toList] at mem
    rcases mem with got | ⟨pass, mapped, mem⟩
    · exact .inl (.inl (mem_append_left _ got))
    · obtain ⟨old, hit, rfl⟩ := Option.map_eq_some_iff.mp mapped
      rcases mem_found_advance mem with before | row
      · exact .inl (.inl (mem_append_right _ (mem_flatMap.mpr ⟨old, Option.mem_toList.mpr hit, before⟩)))
      · exact .inl (.inr row)
  case take push =>
    refine ⟨ok.of_same rfl rfl ?_ (fun _ => rfl) ok.sorted rfl fun notice mem => .inl (.inl mem),
      caught.of_same rfl rfl rfl rfl rfl (world.pushing.still_take push) fun reg room => .inr ⟨rfl, Or.imp_right ?_⟩⟩
    · exact fun o ended => isNone_take ended push
    · exact fun pushed => bears_take (caught.listens reg).2 pushed push
  case send name answer =>
    split
    case h_1 push here =>
      split
      case h_1 t turn rest taken wait =>
        exact ⟨ok.send answer here, caught.send answer ok here taken wait⟩
      case h_2 => exact kept
    case h_2 => exact kept
  case mark push =>
    refine ⟨ok.of_same rfl rfl ?_ (fun _ => rfl) ok.sorted rfl fun notice mem => .inl (.inl mem),
      caught.of_same rfl rfl rfl rfl rfl (world.pushing.still_mark push) fun reg room => .inr ⟨rfl, Or.imp_right ?_⟩⟩
    · exact fun o ended => isNone_mark ended push
    · exact fun pushed => bears_mark pushed push

/-! ## What the client holds -/

variable {notices : List Notice} {notice : Notice}

theorem isPendingIn_of_newest (mem : notice ∈ notices)
    (newest : ∀ o ∈ notices, o.room = notice.room → o.Precedes notice) :
    isPendingIn notices notice.room = notice.isPending := by
  have among : notice ∈ notices.filter fun o => o.room = notice.room := by simpa using mem
  unfold isPendingIn
  cases winner : (notices.filter fun o => o.room = notice.room).argmax is with
  | none => simp [argmax_eq_none.mp winner] at among
  | some o =>
    obtain ⟨ls, own⟩ := mem_filter.mp (argmax_mem winner)
    have largest := le_of_mem_argmax among winner
    rcases newest o ls (by simpa using own) with older | ⟨-, eq⟩
    · omega
    · exact eq

theorem isPendingIn_of_none (none : ∀ notice ∈ notices, notice.room ≠ room) : isPendingIn notices room = false := by
  have empty : (notices.filter fun notice => notice.room = room) = [] := by simpa using none
  simp [isPendingIn, empty]

theorem mem_heard_of_later (mem : notice ∈ world.later since) : notice ∈ world.heard := by
  obtain ⟨pack, arrived, rfl⟩ := mem_map.mp mem
  exact mem_append_left _ (mem_map_of_mem (mem_of_mem_drop arrived))

theorem isPendingIn_of_sees {pass : Pass} (finished : pass.isFinished) {row : Option Nat} (sees : pass.Sees row room)
    {later : List Notice} (untouched : ∀ notice ∈ later, notice.room ≠ room) :
    isPendingIn (pass.found ++ later) room = row.isSome := by
  have own {notice : Notice} (mem : notice ∈ pass.found ++ later) (eq : notice.room = room) : notice ∈ pass.found :=
    (mem_append.mp mem).resolve_right fun after => untouched notice after eq
  cases row with
  | none =>
    refine isPendingIn_of_none fun notice mem eq => ?_
    cases (sees.sound notice (own mem eq) eq).2
  | some n =>
    have behind : ¬pass.IsAhead room := by
      unfold isFinished at finished
      unfold Pass.IsAhead
      cases stage : pass.stage with
      | finished entries => exact id
      | _ => simp [stage] at finished
    have mem := ((sees.complete n rfl).2).resolve_left behind
    refine @isPendingIn_of_newest _ ⟨room, n, true⟩ (mem_append_left _ mem) fun o among eq => ?_
    obtain ⟨pending, number⟩ := sees.sound o (own among eq) eq
    exact .inr ⟨(Option.some.inj number).symm, pending⟩

variable (world : Inviting Queue Pack PackError)

/-- A pack before the first so many said that something was lost, for each loss before it. -/
def isToldBefore (bound : Nat) : Bool :=
  world.losses.all fun loss => (List.range bound).any fun index =>
    decide (loss.2 ≤ index) && (world.inbox[index]?).any Prod.snd

/-- Each loss was announced before the last pass was asked for, by the first of the packs laid on top of it or earlier. -/
def isAnnounced : Bool :=
  world.pass.all fun pass => world.isToldBefore (min (pass.since + 1) pass.asked)

/-- Once all is quiet, the client holds exactly the rooms that the user is invited to. -/
theorem invites_converge (setting : InviteSetting Queue) (registry : Registry UserId UserId Queue) (count : Nat)
    (events : List (InviteEvent Pack PackError))
    (admits : Admits (step setting) (Allowed setting) (start registry count) events)
    (isOpen : (run (step setting) (start registry count) events).isOpen)
    (quiet : (run (step setting) (start registry count) events).isQuiet)
    (announced : (run (step setting) (start registry count) events).isAnnounced) (room : RoomId) :
    (run (step setting) (start registry count) events).clientHolds room =
      (run (step setting) (start registry count) events).cache.isInvited setting.user room := by
  have kept : Along (step setting) (Kept setting) (start registry count) events :=
    along_of_keeps (fun _ e kept allowed => kept.step e allowed) ⟨orderly_start registry count, caught_start registry count⟩
      admits
  obtain ⟨ok, caught⟩ := kept.last
  generalize run (step setting) (start registry count) events = world at *
  simp only [isQuiet, Bool.and_eq_true, all_eq_true, Bool.not_eq_true', Option.any_eq_true] at quiet
  obtain ⟨returned, pass, hit, finished⟩ := quiet
  have idle : ¬world.Coming setting room := by
    rintro (⟨name, updating, here, -, announces⟩ | ⟨name, push, here, -⟩)
    · have ended := returned updating (mem_of_getElem? here)
      unfold Updating.isActive at ended
      unfold Updating.announces at announces
      cases stage : updating.stage <;> simp [stage] at ended announces
    · obtain ⟨o, owner, there, pushes, -⟩ := ok.owned name (by simp [isOver, here])
      have ended := returned owner (mem_of_getElem? there)
      simp [Updating.isActive, pushes] at ended
  have whole {lost : Nat} (mem : (room, lost) ∈ world.losses) : ¬pass.Loses lost := by
    simp only [isAnnounced, hit, Option.all_some, isToldBefore, all_eq_true, any_eq_true, mem_range,
      Bool.and_eq_true, decide_eq_true_eq] at announced
    obtain ⟨i, within, after, -⟩ := announced _ mem
    unfold Pass.Loses
    omega
  rw [clientHolds, hit, ← ok.isSome_row]
  rcases caught.passed pass hit isOpen room with (coming | ⟨lost, mem, loses⟩ | newest) | ⟨untouched, sees⟩
  · exact absurd coming idle
  · exact absurd loses (whole mem)
  · obtain ⟨notice, mem, rfl, tells, newest⟩ := newest
    rw [tells, isSome_row]
    refine isPendingIn_of_newest (mem_append_right _ mem) fun o among eq => newest o ?_ eq
    rcases mem_append.mp among with got | after
    · exact mem_append_right _ (mem_flatMap.mpr ⟨pass, Option.mem_toList.mpr hit, got⟩)
    · exact mem_heard_of_later after
  · exact isPendingIn_of_sees finished sees untouched

/-! ## Small runs -/

def smallSetting : InviteSetting Unit where
  connection := 1
  user := "@a:s"
  queue := ()
  id := 7
  services := ⟨fun _ => .ok (), fun _ _ => false, fun _ _ => .ok (), fun _ _ => false⟩
  userIsLocal _ := true

def becomes (room : RoomId) (membership : MembershipState) : InviteEvent Unit Unit :=
  .draw { roomId := room, userId := "@a:s", membership, sender := "@b:s", updateJoinedCount := true, count := 0 }

def goesThrough (name : Nat) (answer : Except QueueError Unit) : List (InviteEvent Unit Unit) :=
  [.check name, .enter name, .look name, .publish name name fun _ _ _ => .ok (), .take name, .send name answer, .mark name,
    .recount name, .release name]

/-- An invite comes, its end is lost, the pack about another invite says so, and a pass is asked for. -/
def lossy (since : Nat) : List (InviteEvent Unit Unit) :=
  [.subscribe, becomes "!x:s" .invite] ++ goesThrough 0 (.ok ()) ++ [becomes "!x:s" .leave] ++
    goesThrough 1 (.error .full) ++ [becomes "!y:s" .invite] ++ goesThrough 2 (.ok ()) ++ [.ask since] ++
    List.replicate 5 .advance

theorem allowed_goesThrough (world : Inviting Unit Unit Unit) (name : Nat) (answer : Except QueueError Unit) :
    Admits (step smallSetting) (Allowed smallSetting) world (goesThrough name answer) :=
  admits_of_forall fun world e mem => by
    simp only [goesThrough, mem_cons, not_mem_nil, or_false] at mem
    rcases mem with rfl | rfl | rfl | rfl | rfl | rfl | rfl | rfl | rfl <;> trivial

theorem invites_converge_lossy : (run (step smallSetting) (start .new 0) (lossy 1)).clientHolds "!x:s" =
      (run (step smallSetting) (start .new 0) (lossy 1)).cache.isInvited "@a:s" "!x:s" := by
  refine invites_converge smallSetting .new 0 (lossy 1) ?_ (by decide +kernel) (by decide +kernel) (by decide +kernel) "!x:s"
  simp only [lossy, admits_append]
  refine ⟨⟨⟨⟨⟨⟨⟨⟨trivial, ?_, trivial⟩, allowed_goesThrough ..⟩, ?_, trivial⟩, allowed_goesThrough ..⟩, ?_, trivial⟩,
    allowed_goesThrough ..⟩, ?_, trivial⟩, ?_⟩
  · unfold Allowed becomes
    decide +kernel
  · unfold Allowed becomes
    decide +kernel
  · unfold Allowed becomes
    decide +kernel
  · intro room mem n hit
    refine .inl ?_
    revert room n
    decide +kernel
  · exact admits_of_forall fun world e mem => by
      rw [eq_of_mem_replicate mem]
      trivial

/-- All is quiet, each loss was announced before the last pass was asked for, all packs since the subscription are laid on
top, and the client is wrong about the room. -/
structure Diverges (world : Inviting Unit Unit Unit) (room : RoomId) : Prop where
  isOpen : world.isOpen
  quiet : world.isQuiet
  told : (world.pass.all fun pass => world.isToldBefore pass.asked)
  whole : (world.pass.any fun pass => pass.since = 0)
  wrong : world.clientHolds room ≠ world.cache.isInvited smallSetting.user room

/-- A room that is deleted, two updates that overlap, an invite whose count is still pending when the pass is asked for,
and an invite that came before its end was lost. -/
theorem invites_diverge :
    Diverges (run (step smallSetting) (start .new 0) ([.subscribe, becomes "!x:s" .invite] ++ goesThrough 0 (.ok ()) ++
      [.ask 0] ++ List.replicate 5 .advance ++ [.deleteRoom "!x:s" true])) "!x:s" ∧
    Diverges (run (step smallSetting) (start .new 0) ([.subscribe, .ask 0, .advance, .advance, .advance,
      becomes "!x:s" .leave, .check 0, becomes "!x:s" .invite] ++ goesThrough 1 (.ok ()) ++
      [.enter 0, .publish 0 0 fun _ _ _ => .ok (), .recount 0, .release 0])) "!x:s" ∧
    Diverges (run (step smallSetting) (start .new 0) ([becomes "!x:s" .invite, .check 0, .enter 0, .look 0, .subscribe,
      .ask 0] ++ List.replicate 4 .advance ++ [.recount 0, .release 0])) "!x:s" ∧
    Diverges (run (step smallSetting) (start .new 0) (lossy 0)) "!x:s" := by
  refine ⟨⟨?_, ?_, ?_, ?_, ?_⟩, ⟨?_, ?_, ?_, ?_, ?_⟩, ⟨?_, ?_, ?_, ?_, ?_⟩, ⟨?_, ?_, ?_, ?_, ?_⟩⟩
  all_goals decide +kernel

end Inviting
end Wbfuwunel.Api
