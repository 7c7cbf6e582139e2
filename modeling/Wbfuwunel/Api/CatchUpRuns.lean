import Wbfuwunel.Api.CatchUpTracks

/-! No event is silently missing from a catch-up: as long as anything is under way, an event that is due is somewhere on
its way, and what is lost stays owed until a pack says so. -/

set_option autoImplicit false

namespace Wbfuwunel.Api
open Foundation Core Wire Streams Database Rooms List Function Option Stage Registry

variable {Queue Pdu Pack PackError : Type}
  {serving : Serving Pdu Pack PackError} {request : Subscribing Queue} {cgSeq : Int64}

namespace CatchUp

variable {world next : CatchUp Queue Pdu Pack PackError}

/-! ## One step -/

structure Kept (serving : Serving Pdu Pack PackError) (request : Subscribing Queue) (cgSeq : Int64)
    (world : CatchUp Queue Pdu Pack PackError) : Prop where
  numbered : Numbered world.rows world.used
  opened : ∀ room, (world.stage.captured room).Sublist (world.rows room)
  caught : world.stage.isRegistered → world.isOpen → Caught serving request cgSeq world

theorem Passes.kept (ok : Passes request world next) (kept : Kept serving request cgSeq world) :
    Kept serving request cgSeq next where
  numbered := by
    rw [ok.rows, ok.used]
    exact kept.numbered
  opened := by
    rw [ok.rows, ok.stage]
    exact kept.opened
  caught reg isOpen := by
    rw [ok.stage] at reg
    exact ok.caught (kept.caught reg (ok.isOpen isOpen)) isOpen

theorem Kept.setStage (kept : Kept serving request cgSeq world) (reg : world.stage.isRegistered)
    {stage : Stage Pdu} (opened : ∀ r, (stage.captured r).Sublist (world.rows r))
    (goesOn : ∀ r item, Hears request world r → item ∈ world.rows r → Due serving request cgSeq item →
      world.stage.Tracks request.rooms r item → stage.Tracks request.rooms r item ∨
        Carries request world item.1.intoSigned ∨ Reached world item.1.intoSigned) :
    Kept serving request cgSeq { world with stage } :=
  ⟨kept.numbered, opened, fun _ isOpen => (kept.caught reg isOpen).setStage goesOn⟩

variable {append push : Nat} {x : Append Pdu} {room : RoomId} {count : Count}

section

variable (kept : Kept serving request cgSeq world)
include kept

theorem Kept.setAppend (here : world.appends append = some x) {next : Option (Append Pdu)}
    (goesOn : Listed request world.registry → GoesOn serving request cgSeq world x next) :
    Kept serving request cgSeq (world.setAppend append next) :=
  ⟨kept.numbered, kept.opened, fun reg isOpen =>
    (kept.caught reg isOpen).setAppend here (goesOn (kept.caught reg isOpen).listed)⟩

omit kept in
theorem kept_start (g : RoomChannels Queue) :
    Kept serving request cgSeq (start g : CatchUp Queue Pdu Pack PackError) where
  numbered := ⟨fun _ => .nil, by simp [start], by simp [start]⟩
  opened _ := .refl _
  caught reg := by cases reg

theorem Kept.register : Kept serving request cgSeq (world.register request) := by
  unfold CatchUp.register
  split
  · exact ⟨kept.numbered, fun _ => nil_sublist _, fun reg => by cases reg⟩
  next channels joined entered =>
    refine ⟨kept.numbered, fun _ => nil_sublist _, fun _ _ => ⟨(listed_subscribe entered).1, ?_, ?_⟩⟩
    · intro gSeq count lost
      cases lost
    · exact fun room item hears _ _ => .inl (.inl (mem_once.mpr hears.1))

theorem Kept.recheck (reg : world.stage = .registered) (asked : request.after = some cgSeq) (left : List RoomId) :
    Kept serving request cgSeq (world.recheck request left) := by
  have eq : (RoomChannels.unsubscribe world.registry request.connection left).subscribers = world.registry.subscribers :=
    subscribers_unsubscribe request.connection (left.map .room)
  have ok : Passes request world
      (world.setRegistry (RoomChannels.unsubscribe world.registry request.connection left)) := by
    refine .of_pushing (fun room hears => ⟨hears.1, ?_⟩) ?_ (fun _ _ => id) fun _ => ?_
    · exact (((unsubscribe_moves world.registry request.connection (left.map .room)).mem_iff _ _).mp
        hears.2 |>.resolve_left id).1
    · rintro ⟨s, x, rest⟩
      exact ⟨s, (congrFun eq _).trans x, rest⟩
    · refine Or.imp_left fun flag => ?_
      simp only [gapOf, eq]
      exact flag
  simp only [CatchUp.recheck, asked]
  refine (ok.kept kept).setStage (by simp [setRegistry, reg, isRegistered])
    (fun _ => nil_sublist _) fun room item hears _ _ _ => .inl (.inl (mem_once.mpr hears.1))

variable {streams : RoomId → List (Count × Pdu)} {current : Option Nat} {pdu : Pdu}

theorem Kept.openStream {unread : List RoomId} (reading : world.stage = .reading streams (room :: unread)) :
    Kept serving request cgSeq { world with stage := .reading (update streams room (world.rows room)) unread } := by
  have opened := kept.opened
  rw [reading] at opened
  refine kept.setStage (by rw [reading]; rfl) (fun o => ?_) fun o item _ mem _ ok => ?_
  · by_cases eq : o = room
    · subst eq
      simp [captured]
    · simpa [captured, eq] using opened o
  · rw [reading] at ok
    by_cases eq : o = room
    · subst eq
      refine .inl (.inr (.inl ?_))
      simpa [captured] using mem
    · refine .inl (ok.imp (fun unread => ?_) (Or.imp_left fun captured => ?_))
      · exact (mem_cons.mp unread).resolve_left eq
      · simpa [Stage.captured, eq] using captured

theorem Kept.collect (limit : 0 < serving.recentMaxLimit) (reading : world.stage = .reading streams [])
    (asked : request.after = some cgSeq) : Kept serving request cgSeq (world.collect serving request streams) := by
  have opened := kept.opened
  rw [reading] at opened
  simp only [CatchUp.collect, asked]
  refine kept.setStage (by rw [reading]; rfl) (fun _ => nil_sublist _) fun room item hears _ due ok => ?_
  rw [reading] at ok
  rcases ok with unread | captured | queued | cut
  · cases unread
  · exact .inl (.inr (.inr (due.windowAfter kept.numbered opened limit hears.1 captured)))
  · cases queued
  · cases cut

theorem Kept.markCut {window : Window} (collected : world.stage = .collected window) :
    Kept serving request cgSeq (world.markCut serving request window) := by
  have whole : (serving.packs window).flatten = window.events := by
    exact flatMap_packAt_listPackRanges ..
  unfold CatchUp.markCut
  split
  case isFalse uncut =>
    refine kept.setStage (by rw [collected]; rfl) (fun _ => nil_sublist _) fun room item _ _ _ tracks => ?_
    rw [collected] at tracks
    rcases tracks with unread | captured | queued | cut
    · cases unread
    · cases captured
    · refine .inl (.inr (.inr (.inl ?_)))
      rw [Stage.queued, whole]
      exact queued
    · exact absurd cut uncut
  case isTrue =>
    have ok := @passes_markGap _ _ _ _ request world [request.connection] fun gSeq =>
      world.used.contains gSeq && !holds window.events gSeq
    refine (ok.kept kept).setStage (by rw [ok.stage, collected]; rfl) (fun _ => nil_sublist _)
      fun room item _ mem _ _ => ?_
    cases held : holds window.events item.1.intoSigned with
    | true =>
      refine .inl (.inr (.inr (.inl ?_)))
      rw [queued, whole]
      exact held
    | false =>
      simp only [CatchUp.markGap, mem_singleton]
      rw [ok.rows] at mem
      exact .inr (.inr (reached_miss (by simp [held, kept.numbered.used room item mem])))

omit kept in
theorem holds_append (a b : List WindowEvent) (gSeq : Int64) : holds (a ++ b) gSeq = (holds a gSeq || holds b gSeq) := by
  simp [holds]

theorem Kept.pushPack {es : List WindowEvent} {packs : List (List WindowEvent)}
    (pushing : world.stage = .pushing current (es :: packs)) (fresh : world.pushing.pushes push = none) :
    Kept serving request cgSeq { world.pushInner serving request push none [request.connection] es with
      stage := .pushing (some push) packs } := by
  have ok := @passes_pushInner _ _ _ _ serving request world push fresh none [request.connection] es
  refine (ok.kept kept).setStage (by rw [ok.stage, pushing]; rfl) (fun _ => nil_sublist _)
    fun room item _ _ _ tracks => ?_
  rw [ok.stage, pushing] at tracks
  rcases tracks with unread | captured | queued | cut
  · cases unread
  · cases captured
  · rw [Stage.queued, flatten_cons, holds_append, Bool.or_eq_true] at queued
    rcases queued with a | later
    · exact .inr (pushInner_bears fresh mem_cons_self rfl a)
    · exact .inl (.inr (.inr (.inl later)))
  · cases cut

theorem Kept.finish (pushing : world.stage = .pushing current []) :
    Kept serving request cgSeq { world with stage := .finished } := by
  refine kept.setStage (by rw [pushing]; rfl) (fun _ => nil_sublist _) fun room item _ _ _ ok => ?_
  rw [pushing] at ok
  rcases ok with unread | captured | queued | cut
  · cases unread
  · cases captured
  · cases queued
  · cases cut

theorem Kept.commit (free : world.appends append = none) (fresh : count.intoSigned ∉ world.used) (room : RoomId)
    (pdu : Pdu) : Kept serving request cgSeq (world.commit append room count pdu) := by
  refine ⟨kept.numbered.insert fresh room pdu, fun o => ?_, fun reg isOpen => ?_⟩
  · by_cases eq : o = room
    · subst eq
      simp only [CatchUp.commit, update_self]
      exact (kept.opened o).trans (sublist_orderedInsert _ _)
    · simp only [CatchUp.commit, update_of_ne eq]
      exact kept.opened o
  · have caught := kept.caught reg isOpen
    refine ⟨caught.listed, fun gSeq count lost => ?_, fun o item hears mem due => ?_⟩
    · exact ⟨(caught.announces gSeq count lost).within, (caught.announces gSeq count lost).said⟩
    · have arrived : o = room ∧ item = (count, pdu) ∨ item ∈ world.rows o := by
        by_cases eq : o = room
        · subst eq
          simp only [CatchUp.commit, update_self, mem_orderedInsert] at mem
          exact mem.imp_left fun eq => ⟨rfl, eq⟩
        · simp only [CatchUp.commit, update_of_ne eq] at mem
          exact .inr mem
      rcases arrived with ⟨rfl, rfl⟩ | old
      · exact .inr (.inl ⟨append, ⟨o, count, pdu, .committed⟩, update_self .., rfl, rfl, trivial⟩)
      · rcases caught.tracked o item hears old due with ok | ⟨name, x, here, rest⟩ | rest
        · exact .inl ok
        · have differ : name ≠ append := by
            rintro rfl
            rw [free] at here
            cases here
          exact .inr (.inl ⟨name, x, (update_of_ne differ ..).trans here, rest⟩)
        · exact .inr (.inr rest)

theorem Kept.askListened (here : world.appends append = some ⟨room, count, pdu, .committed⟩) :
    Kept serving request cgSeq (world.setAppend append
      (if world.registry.isListened (.room room) then some ⟨room, count, pdu, .listened⟩ else none)) := by
  refine kept.setAppend here fun _ hears _ _ _ => .inl ⟨⟨room, count, pdu, .listened⟩, ?_, rfl, rfl, trivial⟩
  rw [if_pos (isListened_of_mem hears.2)]

omit kept in
theorem mem_recipients (due : Due serving request cgSeq (x.count, x.pdu)) (ls : Listed request world.registry)
    (hears : Hears request world x.room) : request.connection ∈ world.recipients serving x :=
  mem_map.mpr ⟨(request.connection, request.user),
    mem_filter.mpr ⟨mem_listeners ls.userOf hears.2, by simp [due.heard]⟩, rfl⟩

theorem Kept.choose (here : world.appends append = some ⟨room, count, pdu, .listened⟩) :
    Kept serving request cgSeq (world.setAppend append
      (if (world.recipients serving ⟨room, count, pdu, .listened⟩).isEmpty then none
        else some ⟨room, count, pdu, .chosen (world.recipients serving ⟨room, count, pdu, .listened⟩)⟩)) := by
  refine kept.setAppend here fun ls hears _ due _ => ?_
  have mem := mem_recipients due ls hears
  refine .inl ⟨_, if_neg ?_, rfl, rfl, mem⟩
  rw [List.isEmpty_iff]
  exact ne_nil_of_mem mem

omit kept in
theorem getPduFromId_eq (numbered : Numbered world.rows world.used) (mem : (count, pdu) ∈ world.rows room) :
    world.getPduFromId room count = some pdu := by
  have apart : (world.rows room).Pairwise fun a b => signed a.1 ≠ signed b.1 :=
    (numbered.descending room).imp fun lt => lt.ne'
  have symm : Std.Symm fun a b : Count × Pdu => signed a.1 ≠ signed b.1 := ⟨fun _ _ => Ne.symm⟩
  have found : ((world.rows room).find? fun item => item.1 = count) = some (count, pdu) := by
    cases search : (world.rows room).find? fun item => item.1 = count with
    | none => exact absurd (decide_eq_true rfl) (find?_eq_none.mp search _ mem)
    | some item =>
      have eq : item.1 = count := by simpa using find?_some search
      by_contra ne
      have differ := apart.forall (mem_of_find?_eq_some search) mem fun same => ne (congrArg some same)
      exact differ (by rw [eq])
  rw [getPduFromId, found]
  rfl

theorem Kept.publish {recipients : List ConnectionId} (here : world.appends append = some x)
    (chosen : x.stage = .chosen recipients) (fresh : world.pushing.pushes push = none) :
    Kept serving request cgSeq (world.publish serving request append push x recipients) := by
  have readBack {pdu : Option Pdu} (read : world.getPduFromId x.room x.count = pdu)
      (mem : (x.count, x.pdu) ∈ world.rows x.room) : pdu = some x.pdu :=
    read.symm.trans (getPduFromId_eq kept.numbered mem)
  unfold CatchUp.publish
  split
  case h_1 absent =>
    exact kept.setAppend here fun _ _ mem _ _ => absurd (readBack absent mem) nofun
  case h_2 pdu read =>
    dsimp only
    split
    case isTrue wide =>
      refine kept.setAppend here fun _ _ mem due _ => absurd due.fits ?_
      obtain rfl := some.inj (readBack read mem)
      exact Nat.not_le.mpr wide
    case isFalse =>
      have ok := @passes_pushInner _ _ _ _ serving request world push fresh (some (.room x.room)) recipients
        [serving.pushed x.count pdu]
      refine (ok.kept kept).setAppend (by rw [ok.appends]; exact here) fun _ hears _ _ reaches => .inr ?_
      rw [Append.Reaches, chosen] at reaches
      exact pushInner_bears fresh reaches (isStillInTopic_of_mem (ok.hears _ hears).2)
        (holds_iff.mpr ⟨_, mem_cons_self, rfl⟩)

end

theorem isOver_some : world.isOver (some push) ↔ world.pushing.pushes push = none := by
  simp [isOver]

theorem Kept.step (kept : Kept serving request cgSeq world) (asked : request.after = some cgSeq)
    (limit : 0 < serving.recentMaxLimit) (e : CatchUpEvent Pdu) :
    Kept serving request cgSeq (world.step serving request e) := by
  cases e <;> simp only [CatchUp.step]
  case register =>
    split
    · exact kept.register
    · exact kept
  case recheck left =>
    split
    · exact kept.recheck ‹_› asked left
    · exact kept
  case openStream =>
    split
    · exact kept.openStream ‹_›
    · exact kept
  case collect =>
    split
    · exact kept.collect limit ‹_› asked
    · exact kept
  case markCut =>
    split
    · exact kept.markCut ‹_›
    · exact kept
  case pushPack push =>
    split
    next pushing =>
      split
      next ended =>
        exact kept.pushPack pushing (isOver_some.mp (Bool.and_eq_true _ _ ▸ ended).2)
      · exact kept
    · exact kept
  case finish =>
    split
    · split
      · exact kept.finish ‹_›
      · exact kept
    · exact kept
  case commit append room count pdu =>
    split
    · exact kept
    · split
      · exact kept
      · exact kept.commit ‹_› ‹_› room pdu
  case askListened append =>
    split
    · exact kept.askListened ‹_›
    · exact kept
  case choose append =>
    split
    · exact kept.choose ‹_›
    · exact kept
  case publish append push =>
    split
    · split
      · exact kept.publish ‹_› rfl (isOver_some.mp ‹_›)
      · exact kept
    · exact kept
  case conclude append =>
    split
    next here =>
      split
      · exact kept.setAppend here fun _ _ _ _ reaches => False.elim reaches
      · exact kept
    · exact kept
  case take push => exact (passes_take push).kept kept
  case send name answer =>
    split
    · split
      · exact (passes_send ‹_› ‹_› ‹_› answer).kept kept
      · exact kept
    · exact kept
  case mark push => exact (passes_mark push).kept kept

/-! ## Whole runs -/

structure Quiet (world : CatchUp Queue Pdu Pack PackError) : Prop where
  stage : world.stage.isFinished
  appends : ∀ append, world.appends append = none
  pushes : ∀ push, world.pushing.pushes push = none

/-- Once all is quiet, whatever is due is delivered or was lost at a time since which the connection is told of a gap, or
will be by its next pack. -/
theorem catch_up_complete (serving : Serving Pdu Pack PackError) (request : Subscribing Queue)
    (registry : RoomChannels Queue) (events : List (CatchUpEvent Pdu)) {cgSeq : Int64}
    (asked : request.cgSeq = some cgSeq) (nonzero : cgSeq ≠ 0) (limit : 0 < serving.recentMaxLimit)
    (isOpen : (run (step serving request) (start registry) events).isOpen)
    (quiet : (run (step serving request) (start registry) events).Quiet) (room : RoomId) (item : Count × Pdu)
    (hears : Hears request (run (step serving request) (start registry) events) room)
    (inside : item ∈ (run (step serving request) (start registry) events).rows room)
    (due : Due serving request cgSeq item) :
    (∃ received ∈ (run (step serving request) (start registry) events).inbox, holds received.events item.1.intoSigned) ∨
    ∃ count, (run (step serving request) (start registry) events).missed item.1.intoSigned = some count ∧
      ((run (step serving request) (start registry) events).registry.gapOf request.connection ∨
        ∃ received ∈ (run (step serving request) (start registry) events).inbox.drop count,
          received.id = request.id ∧ received.gap) := by
  have after : request.after = some cgSeq := by simp [Subscribing.after, asked, nonzero]
  have always : Admits (step serving request) (fun _ _ => True) (start registry) events :=
    admits_of_forall fun _ _ _ => trivial
  have kept : Along (step serving request) (Kept serving request cgSeq) (start registry) events :=
    along_of_keeps (fun _ e kept _ => kept.step after limit e) (kept_start registry) always
  have finished := eq_finished quiet.stage
  have caught := kept.last.caught (by rw [finished]; rfl) isOpen
  have nowhere {isSo : Nat → Push Queue Pack PackError → Prop} :
      ¬Somewhere (run (step serving request) (start registry) events).pushing.pushes isSo := by
    rintro ⟨name, push, here, -⟩
    rw [quiet.pushes] at here
    cases here
  rcases caught.tracked room item hears inside due with ok | ⟨append, x, here, -⟩ | carries | received | lost
  · rw [finished] at ok
    rcases ok with unread | captured | queued | cut
    · cases unread
    · cases captured
    · cases queued
    · cases cut
  · rw [quiet.appends] at here
    cases here
  · exact absurd carries nowhere
  · exact .inl received
  · obtain ⟨count, lost⟩ := isSome_iff_exists.mp lost
    exact .inr ⟨count, lost, (caught.announces _ count lost).said.imp_left fun owes => owes.resolve_right nowhere⟩

/-- All is quiet, the room has the event, and the connection has heard nothing at all. -/
structure Silent (request : Subscribing Queue) (world : CatchUp Queue Pdu Pack PackError) (room : RoomId)
    (item : Count × Pdu) : Prop where
  quiet : world.Quiet
  isOpen : world.isOpen
  hears : Hears request world room
  inside : item ∈ world.rows room
  inbox : world.inbox.length = 0
  flag : world.registry.gapOf request.connection = false

/-- A server on which an event is its sender and its length. Everybody ignores `@b:s`, whose events are state events. -/
def smallServer (recentMaxLimit : Nat) : Serving (UserId × Nat) Unit Unit where
  isIgnored _ := false
  canSee _ := true
  bundleAggregations := id
  toFormat pdu := List.replicate pdu.2 0
  sender := Prod.fst
  userIsIgnored sender _ := sender = "@b:s"
  pushPack _ _ _ _ := .ok ()
  windowMaxBytes := 64
  dataMax := 32
  recentMaxLimit := recentMaxLimit
  pushMaxEventsPerPack := 10

def smallRequest (cgSeq : Int64) : Subscribing Unit := ⟨1, "@a:s", (), 7, ["!r:s"], false, some cgSeq⟩

def unheard : List (CatchUpEvent (UserId × Nat)) := [.commit 0 "!r:s" (.normal 5) ("@c:s", 3), .askListened 0]

def readsWindow : List (CatchUpEvent (UserId × Nat)) := [.register, .recheck [], .openStream, .collect, .markCut]

/-- A window of one event, of two. -/
def cutWindow : List (CatchUpEvent (UserId × Nat)) :=
  unheard ++ [.commit 1 "!r:s" (.normal 6) ("@c:s", 3), .askListened 1] ++ readsWindow ++
    [.pushPack 0, .take 0, .send 0 (.ok ()), .mark 0, .finish]

/-- The pack with the window says that the older event is missing. -/
theorem catch_up_complete_cutWindow :
    (∃ received ∈ (run (step (smallServer 1) (smallRequest 1)) (start .new) cutWindow).inbox, holds received.events 5) ∨
    ∃ count, (run (step (smallServer 1) (smallRequest 1)) (start .new) cutWindow).missed 5 = some count ∧
      ((run (step (smallServer 1) (smallRequest 1)) (start .new) cutWindow).registry.gapOf 1 ∨
        ∃ received ∈ (run (step (smallServer 1) (smallRequest 1)) (start .new) cutWindow).inbox.drop count,
          received.id = 7 ∧ received.gap) := by
  refine catch_up_complete (smallServer 1) (smallRequest 1) .new cutWindow rfl (by decide) (by decide) (by decide +kernel)
    ⟨by decide +kernel, fun append => ?_, fun push => ?_⟩ "!r:s" (.normal 5, "@c:s", 3) ⟨by decide, by decide +kernel⟩
    (by decide +kernel) ⟨by decide, by decide +kernel, by decide, by decide⟩
  · rcases append with _ | _ | append <;> rfl
  · rcases push with _ | push <;> rfl

/-- With no window to be had, with a watermark of zero, and for a sender who is ignored, events go missing unannounced. -/
theorem silently_missing : (Due (smallServer 0) (smallRequest 1) 1 (.normal 5, "@c:s", 3) ∧
      Silent (smallRequest 1) (run (step (smallServer 0) (smallRequest 1)) (start .new)
        (unheard ++ readsWindow ++ [.finish])) "!r:s" (.normal 5, "@c:s", 3)) ∧
    (Due (smallServer 10) (smallRequest 0) 0 (.normal 5, "@c:s", 3) ∧
      Silent (smallRequest 0) (run (step (smallServer 10) (smallRequest 0)) (start .new)
        (unheard ++ [.register, .recheck []])) "!r:s" (.normal 5, "@c:s", 3)) ∧
    ((((smallServer 10).reader fun _ => []).serves (.normal 5, "@b:s", 3)).isSome ∧
      Silent (smallRequest 1) (run (step (smallServer 10) (smallRequest 1)) (start .new)
        (readsWindow ++ [.finish, .commit 0 "!r:s" (.normal 5) ("@b:s", 3), .askListened 0, .choose 0]))
        "!r:s" (.normal 5, "@b:s", 3)) := by
  refine ⟨⟨⟨by decide, by decide +kernel, by decide, by decide⟩, ?_⟩,
    ⟨⟨by decide, by decide +kernel, by decide, by decide⟩, ?_⟩, by decide +kernel, ?_⟩
  all_goals
    refine ⟨⟨by decide +kernel, fun append => ?_, fun _ => rfl⟩, by decide +kernel, ⟨by decide, by decide +kernel⟩, by decide +kernel,
      by decide +kernel, by decide +kernel⟩
    rcases append with _ | append
    · exact isNone_iff_eq_none.mp (by decide +kernel)
    · rfl

end CatchUp
end Wbfuwunel.Api
