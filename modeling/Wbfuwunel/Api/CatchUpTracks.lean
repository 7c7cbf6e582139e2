import Wbfuwunel.Api.CatchUpOwed

/-! Where an event that is due to the connection can be on its way there, and what the steps of the registry and of the
pushes do to it. -/

set_option autoImplicit false

namespace Wbfuwunel.Api
open Foundation Core Wire Streams Database Rooms List Function Pushing

variable {Queue Pdu Pack PackError : Type}
  {serving : Serving Pdu Pack PackError} {request : Subscribing Queue} {cgSeq : Int64}

/-! ## Where an event is -/

namespace Stage

def isFinished : Stage Pdu → Bool
  | .finished => true
  | _ => false

theorem eq_finished {stage : Stage Pdu} (ended : stage.isFinished) : stage = .finished := by
  cases stage with
  | finished => rfl
  | _ => cases ended

def isRegistered : Stage Pdu → Bool
  | .asked | .refused => false
  | _ => true

def unread (rooms : List RoomId) : Stage Pdu → List RoomId
  | .registered => once rooms
  | .reading _ unread => unread
  | _ => []

def captured : Stage Pdu → RoomId → List (Count × Pdu)
  | .reading streams _ => streams
  | _ => fun _ => []

def queued : Stage Pdu → List WindowEvent
  | .collected window => window.events
  | .pushing _ packs => packs.flatten
  | _ => []

def isCut : Stage Pdu → Bool
  | .collected window => window.isCutShort
  | _ => false

def Tracks (stage : Stage Pdu) (rooms : List RoomId) (room : RoomId) (item : Count × Pdu) : Prop :=
  room ∈ stage.unread rooms ∨ item ∈ stage.captured room ∨ CatchUp.holds stage.queued item.1.intoSigned ∨ stage.isCut

end Stage

def Append.Reaches (entry : Append Pdu) (connection : ConnectionId) : Prop :=
  match entry.stage with
  | .committed | .listened => True
  | .chosen recipients => connection ∈ recipients
  | .pushing _ => False

namespace CatchUp

variable {world next : CatchUp Queue Pdu Pack PackError}

section Packs

variable (request : Subscribing Queue) (world : CatchUp Queue Pdu Pack PackError)

def Carries (gSeq : Int64) : Prop :=
  Somewhere world.pushing.pushes fun name push =>
    holds (world.carries name) gSeq ∧ Bears request.connection push

def Reached (gSeq : Int64) : Prop :=
  (∃ received ∈ world.inbox, holds received.events gSeq) ∨ (world.missed gSeq).isSome

def Appends (room : RoomId) (item : Count × Pdu) : Prop :=
  ∃ append entry, world.appends append = some entry ∧ entry.room = room ∧ (entry.count, entry.pdu) = item ∧
    entry.Reaches request.connection

structure Announces (count : Nat) : Prop where
  within : count ≤ world.inbox.length
  said : Owes request world.pushing ∨ ∃ received ∈ world.inbox.drop count, received.id = request.id ∧ received.gap

def Hears (room : RoomId) : Prop :=
  room ∈ request.rooms ∧ request.connection ∈ world.registry.topics.members (.room room)

end Packs

/-- From the registration on: nothing that is due is nowhere, and no loss is forgotten. -/
structure Caught (serving : Serving Pdu Pack PackError) (request : Subscribing Queue) (cgSeq : Int64)
    (world : CatchUp Queue Pdu Pack PackError) : Prop where
  listed : Listed request world.registry
  announces : ∀ gSeq count, world.missed gSeq = some count → Announces request world count
  tracked : ∀ room item, Hears request world room → item ∈ world.rows room → Due serving request cgSeq item →
    world.stage.Tracks request.rooms room item ∨ Appends request world room item ∨
      Carries request world item.1.intoSigned ∨ Reached world item.1.intoSigned

structure Passes (request : Subscribing Queue) (world next : CatchUp Queue Pdu Pack PackError) : Prop where
  rows : next.rows = world.rows
  used : next.used = world.used
  stage : next.stage = world.stage
  appends : next.appends = world.appends
  isOpen : next.isOpen → world.isOpen
  hears : ∀ room, Hears request next room → Hears request world room
  listed : Listed request world.registry → Listed request next.registry
  carried : ∀ gSeq, Listed request world.registry → next.isOpen → Carries request world gSeq →
    Carries request next gSeq ∨ Reached next gSeq
  reached : ∀ gSeq, Reached world gSeq → Reached next gSeq
  announces : ∀ count, Listed request world.registry → next.isOpen → Announces request world count →
    Announces request next count
  missed : ∀ gSeq count, Listed request world.registry → next.isOpen → next.missed gSeq = some count →
    world.missed gSeq = some count ∨ Announces request next count

theorem Passes.trans {third : CatchUp Queue Pdu Pack PackError} (a : Passes request world next)
    (b : Passes request next third) : Passes request world third where
  rows := b.rows.trans a.rows
  used := b.used.trans a.used
  stage := b.stage.trans a.stage
  appends := b.appends.trans a.appends
  isOpen := a.isOpen ∘ b.isOpen
  hears r := a.hears r ∘ b.hears r
  listed := b.listed ∘ a.listed
  carried gSeq listed isOpen carries := by
    rcases a.carried gSeq listed (b.isOpen isOpen) carries with carries | reached
    · exact b.carried gSeq (a.listed listed) isOpen carries
    · exact .inr (b.reached gSeq reached)
  reached gSeq := b.reached gSeq ∘ a.reached gSeq
  announces n listed isOpen announces :=
    b.announces n (a.listed listed) isOpen (a.announces n listed (b.isOpen isOpen) announces)
  missed gSeq n listed isOpen lost := by
    rcases b.missed gSeq n (a.listed listed) isOpen lost with old | announces
    · exact (a.missed gSeq n listed (b.isOpen isOpen) old).imp_right (b.announces n (a.listed listed) isOpen)
    · exact .inr announces

theorem Passes.of_pushing {pushing : Pushing RoomTopic UserId Queue Pack PackError}
    (hears : ∀ r, Hears request { world with pushing } r → Hears request world r)
    (listed : Listed request world.registry → Listed request pushing.registry)
    (carried : ∀ gSeq, Listed request world.registry → Carries request world gSeq → Carries request { world with pushing } gSeq)
    (owes : Listed request world.registry → Owes request world.pushing → Owes request pushing) :
    Passes request world { world with pushing } where
  rows := rfl
  used := rfl
  stage := rfl
  appends := rfl
  isOpen := id
  hears := hears
  listed := listed
  carried gSeq listed _ carries := .inl (carried gSeq listed carries)
  reached _ := id
  announces _ listed _ announces := ⟨announces.within, announces.said.imp_left (owes listed)⟩
  missed _ _ _ _ := .inl

theorem Passes.refl (world : CatchUp Queue Pdu Pack PackError) : Passes request world world :=
  of_pushing (fun _ => id) id (fun _ _ => id) fun _ => id

theorem Passes.caught (ok : Passes request world next) (caught : Caught serving request cgSeq world)
    (isOpen : next.isOpen) : Caught serving request cgSeq next where
  listed := ok.listed caught.listed
  announces gSeq n lost := by
    rcases ok.missed gSeq n caught.listed isOpen lost with old | announces
    · exact ok.announces n caught.listed isOpen (caught.announces gSeq n old)
    · exact announces
  tracked r item hears mem due := by
    rw [ok.rows] at mem
    rw [ok.stage, Appends, ok.appends]
    rcases caught.tracked r item (ok.hears r hears) mem due with tracks | appends | carries | hit
    · exact .inl tracks
    · exact .inr (.inl appends)
    · exact .inr (.inr (ok.carried _ caught.listed isOpen carries))
    · exact .inr (.inr (.inr (ok.reached _ hit)))

theorem Caught.setStage (caught : Caught serving request cgSeq world) {stage : Stage Pdu}
    (goesOn : ∀ r item, Hears request world r → item ∈ world.rows r → Due serving request cgSeq item →
      world.stage.Tracks request.rooms r item → stage.Tracks request.rooms r item ∨
        Carries request world item.1.intoSigned ∨ Reached world item.1.intoSigned) :
    Caught serving request cgSeq { world with stage } := by
  refine ⟨caught.listed, fun gSeq n lost => ?_, fun r item hears mem due => ?_⟩
  · exact ⟨(caught.announces gSeq n lost).within, (caught.announces gSeq n lost).said⟩
  · rcases caught.tracked r item hears mem due with ok | rest
    · exact (goesOn r item hears mem due ok).imp_right .inr
    · exact .inr rest

/-- What is due and would reach the connection still does, or is on its way. -/
def GoesOn (serving : Serving Pdu Pack PackError) (request : Subscribing Queue) (cgSeq : Int64)
    (world : CatchUp Queue Pdu Pack PackError) (x : Append Pdu) (next : Option (Append Pdu)) : Prop :=
  Hears request world x.room → (x.count, x.pdu) ∈ world.rows x.room → Due serving request cgSeq (x.count, x.pdu) →
    x.Reaches request.connection →
      (∃ x', next = some x' ∧ x'.room = x.room ∧ (x'.count, x'.pdu) = (x.count, x.pdu) ∧ x'.Reaches request.connection) ∨
        Carries request world x.count.intoSigned ∨ Reached world x.count.intoSigned

theorem Caught.setAppend (caught : Caught serving request cgSeq world) {append : Nat} {x : Append Pdu}
    (here : world.appends append = some x) {next : Option (Append Pdu)} (goesOn : GoesOn serving request cgSeq world x next) :
    Caught serving request cgSeq (world.setAppend append next) := by
  refine ⟨caught.listed, fun gSeq n lost => ?_, fun r item hears mem due => ?_⟩
  · exact ⟨(caught.announces gSeq n lost).within, (caught.announces gSeq n lost).said⟩
  · rcases caught.tracked r item hears mem due with ok | ⟨o, x', there, rfl, rfl, reaches⟩ | rest
    · exact .inl ok
    · by_cases eq : o = append
      · subst eq
        obtain rfl := Option.some.inj (here.symm.trans there)
        rcases goesOn hears mem due reaches with ⟨x', got, r, item, reaches⟩ | rest
        · exact .inr (.inl ⟨o, x', (update_self ..).trans got, r, item, reaches⟩)
        · exact .inr (.inr rest)
      · exact .inr (.inl ⟨o, x', (update_of_ne eq ..).trans there, rfl, rfl, reaches⟩)
    · exact .inr (.inr rest)

/-! ## The registry and the pushes -/

theorem Hears.of_still {r : RoomId} (hears : Hears request next r)
    (still : Registry.Still world.registry next.registry) : Hears request world r :=
  ⟨hears.1, (((still.mem_iff _ _).mp hears.2).resolve_left id).1⟩

theorem reached_miss {gSeq : Int64} {isLost : Int64 → Bool} (lost : isLost gSeq) : Reached (world.miss isLost) gSeq :=
  .inr (by simp [miss, lost])

/-- What is lost while something is owed will be announced. -/
theorem passes_miss (isLost : Int64 → Bool) (owes : Listed request world.registry → Owes request world.pushing) :
    Passes request world (world.miss isLost) where
  rows := rfl
  used := rfl
  stage := rfl
  appends := rfl
  isOpen := id
  hears _ := id
  listed := id
  carried _ _ _ := .inl
  reached gSeq reached := by
    refine reached.imp_right fun lost => ?_
    simp only [miss]
    split
    · rfl
    · exact lost
  announces _ _ _ announces := ⟨announces.within, announces.said⟩
  missed gSeq n listed _ lost := by
    simp only [miss] at lost
    split at lost
    · obtain rfl := Option.some.inj lost
      exact .inr ⟨le_rfl, .inl (owes listed)⟩
    · exact .inl lost

theorem passes_markGap (cs : List ConnectionId) (isLost : Int64 → Bool) :
    Passes request world (world.markGap request cs isLost) := by
  have marked : Passes request world (world.setRegistry (world.registry.markGap cs)) :=
    .of_pushing (fun _ hears => hears.of_still (Registry.markGap_still _ _)) (fun ls => ls.markGap cs)
      (fun _ _ => id) fun _ owes => owes.imp_left fun flag => gapOf_markGap flag cs
  unfold CatchUp.markGap
  split
  case isTrue mem =>
    exact marked.trans (passes_miss isLost fun ls => .inl (ls.gapOf_markGap mem))
  case isFalse out => exact marked

theorem passes_take (name : Nat) : Passes request world { world with pushing := world.pushing.step (.take name) } := by
  refine .of_pushing (fun _ hears => hears.of_still (world.pushing.still_take name)) (fun ls => ?_)
    (fun gSeq ls carries => bears_take ls.isSubscribed carries name) fun ls owes => ?_
  all_goals rcases world.pushing.step_take name with eq | ⟨push, conn, rest, here, -, taken⟩
  · rwa [eq]
  · rw [taken]
    exact ls.takeTarget conn
  · rwa [eq]
  · rw [taken]
    exact owes.take ls here conn rest

theorem passes_mark (name : Nat) : Passes request world { world with pushing := world.pushing.step (.mark name) } := by
  refine .of_pushing (fun _ hears => hears.of_still (world.pushing.still_mark name)) (fun ls => ?_)
    (fun gSeq _ carries => bears_mark carries name) fun ls owes => ?_
  all_goals rcases world.pushing.step_mark name with eq | ⟨push, here, -, sent, marked⟩
  · rwa [eq]
  · rw [marked]
    exact ls.markGap _
  · rwa [eq]
  · rw [marked]
    exact owes.mark ls here sent

theorem passes_send {name : Nat} {push : Push Queue Pack PackError} (here : world.pushing.pushes name = some push)
    (taken : push.candidates = []) {t : Target Queue} {turn : Nat} {rest : List (Target Queue × Nat)}
    (wait : push.targets = (t, turn) :: rest) (answer : Except QueueError Unit) :
    Passes request world (world.send request name push t turn rest answer) := by
  -- Whatever the push bears, it bears still, but for the pack that is tried.
  have carried {gSeq : Int64} (carries : Carries request world gSeq) :
      t.connection = request.connection ∧ holds (world.carries name) gSeq ∨
        Carries request { world with pushing := world.pushing.send name push t turn rest answer } gSeq :=
    bears_send here taken wait answer carries
  have eq : (world.pushing.send name push t turn rest answer).registry = world.registry :=
    registry_send t turn rest answer
  have listed (x : Listed request world.registry) :
      Listed request (world.pushing.send name push t turn rest answer).registry := by
    rw [eq]
    exact x
  have still : ∀ r, Hears request { world with
      pushing := world.pushing.send name push t turn rest answer } r → Hears request world r :=
    fun r hears => ⟨hears.1, eq ▸ hears.2⟩
  unfold CatchUp.send
  split
  case isFalse o =>
    refine .of_pushing still listed (fun gSeq _ carries => (carried carries).resolve_left ?_)
      fun _ owes => (owes.send here wait answer).resolve_left ?_
    · exact fun own => o own.1
    · exact fun own => o own.1
  case isTrue own =>
    cases tried : push.makePack.tried t answer with
    | queued =>
      exact {
        rows := rfl
        used := rfl
        stage := rfl
        appends := rfl
        isOpen := id
        hears := still
        listed := listed
        carried := fun gSeq _ _ carries => by
          rcases carried carries with ⟨-, held⟩ | carries
          · exact .inr (.inl ⟨_, mem_append_right _ mem_cons_self, held⟩)
          · exact .inl carries
        reached := fun gSeq reached => by
          refine reached.imp_left ?_
          rintro ⟨got, mem, held⟩
          exact ⟨got, mem_append_left _ mem, held⟩
        announces := fun n _ _ announces => by
          refine ⟨announces.within.trans (by simp [deliver]), ?_⟩
          simp only [deliver, drop_append_of_le_length announces.within]
          rcases announces.said with owes | ⟨got, mem, said⟩
          · rcases owes.send here wait answer with ⟨-, said⟩ | owes
            · exact .inr ⟨_, mem_append_right _ mem_cons_self, said⟩
            · exact .inl owes
          · exact .inr ⟨got, mem_append_left _ mem, said⟩
        missed := fun _ _ _ _ => .inl }
    | dropped =>
      have owes : Owes request (world.pushing.send name push t turn rest answer) := .of_dropped own tried
      have lost := @passes_miss _ _ _ _ request
        { world with pushing := world.pushing.send name push t turn rest answer } (holds (world.carries name))
        fun _ => owes
      exact {
        rows := rfl
        used := rfl
        stage := rfl
        appends := rfl
        isOpen := id
        hears := still
        listed := listed
        carried := fun gSeq _ _ carries => by
          rcases carried carries with ⟨-, held⟩ | carries
          · exact .inr (reached_miss held)
          · exact .inl carries
        reached := lost.reached
        announces := fun _ _ _ announces => ⟨announces.within, .inl owes⟩
        missed := fun gSeq n x => lost.missed gSeq n (listed x) }
    | gone =>
      exact {
        rows := rfl
        used := rfl
        stage := rfl
        appends := rfl
        isOpen := fun isOpen => by cases isOpen
        hears := still
        listed := listed
        carried := fun _ _ isOpen => by cases isOpen
        reached := fun _ => id
        announces := fun _ _ isOpen => by cases isOpen
        missed := fun _ _ _ isOpen => by cases isOpen }

theorem passes_pushInner {push : Nat} (fresh : world.pushing.pushes push = none) (t : Option RoomTopic)
    (cs : List ConnectionId) (events : List WindowEvent) :
    Passes request world (world.pushInner serving request push t cs events) := by
  unfold pushInner
  split
  · exact .refl world
  split
  · rw [step_start fresh]
    exact {
      rows := rfl
      used := rfl
      stage := rfl
      appends := rfl
      isOpen := id
      hears := fun _ => id
      listed := id
      carried := fun gSeq _ _ ⟨name, o, here, held, bears⟩ => by
        have differ : name ≠ push := by
          rintro rfl
          rw [fresh] at here
          cases here
        refine .inl ⟨name, o, (update_of_ne differ ..).trans here, ?_, bears⟩
        simpa [differ] using held
      reached := fun _ => id
      announces := fun _ _ _ announces =>
        ⟨announces.within, announces.said.imp_left fun owes => owes.imp_right (·.of_fresh fresh _)⟩
      missed := fun _ _ _ _ => .inl }
  · exact passes_markGap cs (holds events)

/-- A push that starts bears what it carries to everyone who is still to have it; one that cannot is lost. -/
theorem pushInner_bears {push : Nat} (fresh : world.pushing.pushes push = none) {t : Option RoomTopic}
    {cs : List ConnectionId} (mem : request.connection ∈ cs)
    (still : world.registry.isStillInTopic t request.connection) {events : List WindowEvent} {gSeq : Int64}
    (held : holds events gSeq) :
    Carries request (world.pushInner serving request push t cs events) gSeq ∨
      Reached (world.pushInner serving request push t cs events) gSeq := by
  have nonempty : events.isEmpty = false := by
    cases events with
    | nil => cases held
    | cons => rfl
  simp only [pushInner, nonempty, Bool.false_eq_true, if_false]
  split
  · rw [step_start fresh]
    refine .inl (Somewhere.here ⟨?_, .inl (mem_filter.mpr ⟨mem, still⟩)⟩)
    simpa using held
  · simp only [CatchUp.markGap, if_pos mem]
    exact .inr (reached_miss held)

end CatchUp
end Wbfuwunel.Api
