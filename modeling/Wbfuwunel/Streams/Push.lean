import Wbfuwunel.Streams.Conversation
import Wbfuwunel.Streams.Subscribers

/-! `push_with`, split where pushes can overlap: the candidates are taken one by one under a read lock, each pack is
made and tried on its queue without any lock, and what was dropped is marked at the end.

A push of its own knows nothing of turns. They are kept beside each target, with a log of each conversation, to say
what became of which pack.
-/

set_option autoImplicit false

namespace Wbfuwunel.Streams
open Foundation Function

inductive QueueError where
  | gone
  | full
  | tooLargeForBudget
  deriving DecidableEq

inductive Outcome where
  | queued
  | dropped
  | gone
  deriving DecidableEq

/-- Turn the id, the `seq` and the `gap` of a target into the bytes of a pack. -/
abbrev MakePack (Pack PackError : Type) := UInt64 → UInt32 → Bool → Except PackError Pack

variable {Topic User Queue Pack PackError : Type}

def MakePack.tried (makePack : MakePack Pack PackError) (target : Target Queue) (answer : Except QueueError Unit) :
    Outcome :=
  match makePack target.id target.seq target.gap with
  | .error _ => .dropped
  | .ok _ =>
    match answer with
    | .ok () => .queued
    | .error .full | .error .tooLargeForBudget => .dropped
    | .error .gone => .gone

/-- A push on its way: what it has still to take, what it has still to try, and what it has to mark. -/
structure Push (Queue Pack PackError : Type) where
  makePack : MakePack Pack PackError
  candidates : List ConnectionId
  targets : List (Target Queue × Nat)
  dropped : List (ConnectionId × Nat)

inductive Moment (Topic Pack PackError : Type) where
  | start (push : Nat) (topic : Option Topic) (connections : List ConnectionId) (makePack : MakePack Pack PackError)
  | take (push : Nat)
  | send (push : Nat) (answer : Except QueueError Unit)
  | mark (push : Nat)

structure Pushing (Topic User Queue Pack PackError : Type) where
  registry : Registry Topic User Queue
  pushes : Nat → Option (Push Queue Pack PackError)
  log : ConnectionId → List Beat

namespace Pushing

def idle (registry : Registry Topic User Queue) : Pushing Topic User Queue Pack PackError :=
  ⟨registry, fun _ => none, fun _ => []⟩

variable (world : Pushing Topic User Queue Pack PackError)

def take (name : Nat) (push : Push Queue Pack PackError)
    (connection : ConnectionId) (rest : List ConnectionId) : Pushing Topic User Queue Pack PackError :=
  let (registry, taken) := Registry.takeTarget (world.registry, []) connection
  let turn := (Conversation.after (world.log connection)).count
  { registry
    pushes := update world.pushes name
      (some { push with candidates := rest, targets := push.targets ++ taken.map fun target => (target, turn) })
    log := update world.log connection
      (world.log connection ++ taken.map fun target => .take name target.seq target.gap) }

variable (world : Pushing Topic User Queue Pack PackError) (name : Nat) (push : Push Queue Pack PackError)

def settle (connection : ConnectionId) (beat : Beat) : Pushing Topic User Queue Pack PackError :=
  { world with
    pushes := update world.pushes name (some push)
    log := update world.log connection (world.log connection ++ [beat]) }

def send (target : Target Queue) (turn : Nat) (rest : List (Target Queue × Nat)) (answer : Except QueueError Unit) :
    Pushing Topic User Queue Pack PackError :=
  match push.makePack.tried target answer with
  | .queued => world.settle name { push with targets := rest } target.connection (.queue turn target.gap)
  | .dropped =>
    world.settle name { push with targets := rest, dropped := push.dropped ++ [(target.connection, turn)] }
      target.connection (.drop name turn)
  -- The connection's guard cleans the registry: nothing is marked.
  | .gone => world.settle name { push with targets := rest } target.connection (.gone turn)

def mark (name : Nat) (push : Push Queue Pack PackError) : Pushing Topic User Queue Pack PackError :=
  let dropped := push.dropped.map Prod.fst
  { registry := world.registry.markGap dropped
    pushes := update world.pushes name none
    log := fun connection =>
      if connection ∈ dropped then world.log connection ++ [.mark name] else world.log connection }

/-- A push takes all its targets before it sends, and sends to all before it marks. -/
def step : Moment Topic Pack PackError → Pushing Topic User Queue Pack PackError
  | .start name topic connections makePack =>
    match world.pushes name with
    | some _ => world
    | none =>
      let candidates := connections.filter (world.registry.isStillInTopic topic)
      { world with pushes := update world.pushes name (some ⟨makePack, candidates, [], []⟩) }
  | .take name =>
    match world.pushes name with
    | some push =>
      match push.candidates with
      | connection :: rest => world.take name push connection rest
      | [] => world
    | none => world
  | .send name answer =>
    match world.pushes name with
    | some push =>
      match push.candidates, push.targets with
      | [], (target, turn) :: rest => world.send name push target turn rest answer
      | _, _ => world
    | none => world
  | .mark name =>
    match world.pushes name with
    | some push =>
      match push.candidates, push.targets with
      | [], [] => world.mark name push
      | _, _ => world
    | none => world

theorem step_take (name : Nat) : world.step (.take name) = world ∨ ∃ push conn rest, world.pushes name = some push ∧
      push.candidates = conn :: rest ∧ world.step (.take name) = world.take name push conn rest := by
  cases here : world.pushes name with
  | none => exact .inl (by simp [step, here])
  | some push =>
    cases wait : push.candidates with
    | nil => exact .inl (by simp [step, here, wait])
    | cons conn rest => exact .inr ⟨push, conn, rest, rfl, wait, by simp [step, here, wait]⟩

theorem step_mark (name : Nat) :
    world.step (.mark name) = world ∨ ∃ push, world.pushes name = some push ∧ push.candidates = [] ∧ push.targets = [] ∧
      world.step (.mark name) = world.mark name push := by
  cases here : world.pushes name with
  | none => exact .inl (by simp [step, here])
  | some push =>
    cases taken : push.candidates with
    | cons => exact .inl (by simp [step, here, taken])
    | nil =>
      cases sent : push.targets with
      | cons => exact .inl (by simp [step, here, sent])
      | nil => exact .inr ⟨push, rfl, taken, sent, by simp [step, here, taken, sent]⟩

end Pushing
end Wbfuwunel.Streams
