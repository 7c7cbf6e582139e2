import Mathlib.Data.List.Dedup
import Mathlib.Data.String.Basic
import Wbfuwunel.MediaRefs.Holder

/-! Sends, avatar changes, redactions, purges, the collector and the sweep over one set of media: `media_refs`,
`rooms/timeline/append.rs` and the other writers of the holder tables.

Every task moves one moment at a time: a look at the tables, a lock taken, a transaction committed. Between two of its
moments any other task may move.
-/

set_option autoImplicit false

namespace Wbfuwunel.MediaRefs

open Foundation Database Function

structure GcEnv where
  attachmentsMaxPerEvent : Nat
  parses : String → Bool
  isLocal : String → Bool
  unreferencedGrace : Nat
  mediaGcEnabled : Bool

structure Send where
  sender : String
  declared : List String
  contentRefs : List String
  holder : Holder

/-- `list_event_refs_at_store`: in one order for every event, so that no two wait for each other. -/
def listEventRefsAtStore (contentRefs attachments : List String) : List String :=
  ((contentRefs ++ attachments).insertionSort (· ≤ ·)).dedup

inductive Stage where
  | waiting
  | locked
  | decided
  | removed
  deriving DecidableEq

inductive Task where
  | checking (send : Send) (checked todo : List String)
  | locking (send : Send) (checked locked todo : List String)
  | unlocking (locked : List String)
  | lockingAvatar (holder : Holder) (new : String)
  | readingAvatar (holder : Holder) (new : Option String)
  | settingAvatar (holder : Holder) (new : Option String) (held : List String)
  | reading (source : Holder) (target : Option Holder)
  | moving (source : Holder) (target : Option Holder) (held : List String)
  | removing (mxc : String) (stage : Stage) (rest : List String)

namespace Task

def locked : Task → List String
  | locking _ _ locked _ | unlocking locked => locked
  | readingAvatar _ new | settingAvatar _ new _ => new.toList
  | removing _ .waiting _ => []
  | removing mxc _ _ => [mxc]
  | _ => []

def checked : Task → List String
  | checking _ checked _ | locking _ checked _ _ => checked
  | _ => []

end Task

structure World where
  tables : Tables
  stored : String → Bool
  uploaderOf : String → Option String
  mxcManaged : Store String Nat
  mxcLocks : String → Option Nat
  released : List String
  now : Nat
  tasks : Nat → Option Task

namespace World

variable (env : GcEnv)

def resting (tables : Tables) (stored : String → Bool) (uploaderOf : String → Option String)
    (mxcManaged : Store String Nat) (now : Nat) : World where
  tables := tables
  stored := stored
  uploaderOf := uploaderOf
  mxcManaged := mxcManaged
  mxcLocks _ := none
  released := []
  now := now
  tasks _ := none

variable (world : World) (id : Nat)

def become (task : Option Task) : World := { world with
  tasks := update world.tasks id task }

variable (mxc : String)

def take (next : Task) : World :=
  if world.mxcLocks mxc = none then
    { world with mxcLocks := update world.mxcLocks mxc (some id) }.become id (some next)
  else world

def unlock (locked : List String) : World := { world with
  mxcLocks := fun mxc => if mxc ∈ locked then none else world.mxcLocks mxc }

/-! ## Attachments -/

def accepts (sender mxc : String) : Bool :=
  env.parses mxc && env.isLocal mxc && world.stored mxc && world.uploaderOf mxc = some sender

def checkNext (send : Send) (checked : List String) (mxc : String) (todo : List String) : World :=
  if mxc ∈ checked then world.become id (some (.checking send checked todo))
  else if world.accepts env send.sender mxc then world.become id (some (.checking send (checked ++ [mxc]) todo))
  else world.become id none

/-! ## Committing -/

def commitSend (send : Send) (locked : List String) : World :=
  { world with tables := locked.foldl (fun tables mxc => tables.hold mxc send.holder) world.tables }.become id
    (some (.unlocking locked))

def commitAvatar (holder : Holder) (new : Option String) (held : List String) : World :=
  { world with
    tables := world.tables.setAvatarRef holder new held
    released := world.released ++ held.filter (some · ≠ new) }.become id (some (.unlocking new.toList))

/-- A retained original takes the media over; without one they are released. -/
def commitMove (source : Holder) (target : Option Holder) (held : List String) : World :=
  match target with
  | some target =>
    { world with tables := held.foldl (fun tables mxc => tables.swap mxc source target) world.tables }.become id none
  | none =>
    { world with
      tables := held.foldl (fun tables mxc => tables.delHolderRows mxc source) world.tables
      released := world.released ++ held }.become id none

/-! ## Removing -/

def isRemovable : Bool :=
  env.parses mxc && env.isLocal mxc && (world.mxcManaged.find mxc).isSome && !world.tables.hasHolders mxc

def sweepCandidates : List String :=
  (world.mxcManaged.rows.filter fun row => row.2 < world.now - env.unreferencedGrace).map Prod.fst

def removeNext : List String → World
  | [] => world.become id none
  | mxc :: rest => world.become id (some (.removing mxc .waiting rest))

def remove : World := { world with
  stored := update world.stored mxc false
  mxcManaged := world.mxcManaged.del mxc }

def advanceRemoval (rest : List String) : Stage → World
  | .waiting => world.take id mxc (.removing mxc .locked rest)
  | .locked =>
    if world.isRemovable env mxc then world.become id (some (.removing mxc .decided rest))
    else (world.unlock [mxc]).removeNext id rest
  | .decided =>
    -- With collection disabled, what would have been deleted is only logged.
    if env.mediaGcEnabled then (world.remove mxc).become id (some (.removing mxc .removed rest))
    else (world.unlock [mxc]).removeNext id rest
  -- The rows that still point at the media go; among them may be a holder that came meanwhile.
  | .removed => ({ world with tables := world.tables.forgetMedia mxc }.unlock [mxc]).removeNext id rest

/-! ## Moments -/

def advance : Task → World
  | .checking send checked [] =>
    world.become id (some (.locking send checked [] (listEventRefsAtStore send.contentRefs checked)))
  | .checking send checked (mxc :: todo) => world.checkNext env id send checked mxc todo
  | .locking send checked locked (mxc :: todo) => world.take id mxc (.locking send checked (locked ++ [mxc]) todo)
  -- Nothing is looked up again once the locks are there.
  | .locking send _ locked [] => world.commitSend id send locked
  | .unlocking locked => (world.unlock locked).become id none
  | .lockingAvatar holder new => world.take id new (.readingAvatar holder (some new))
  | .readingAvatar holder new => world.become id (some (.settingAvatar holder new (world.tables.listMxcsOf holder)))
  | .settingAvatar holder new held => world.commitAvatar id holder new held
  -- A redaction and a purge read the list without a lock.
  | .reading source target => world.become id (some (.moving source target (world.tables.listMxcsOf source)))
  | .moving source target held => world.commitMove id source target held
  | .removing mxc stage rest => world.advanceRemoval env id mxc rest stage

inductive Moment where
  | tick
  | upload (mxc uploader : String)
  | send (id : Nat) (send : Send)
  | setAvatar (id : Nat) (holder : Holder) (new : Option String)
  | redact (id : Nat) (source : Holder) (backup : Option Holder)
  | purge (id : Nat) (holder : Holder)
  | collect (id : Nat)
  | sweep (id : Nat)
  | advance (id : Nat)
  | abort (id : Nat)

def start (task : Task) : World :=
  if world.tasks id = none then world.become id (some task) else world

def step : Moment → World
  | .tick => { world with now := world.now + 1 }
  | .upload mxc uploader => { world with
      stored := update world.stored mxc true
      uploaderOf := update world.uploaderOf mxc (some uploader)
      mxcManaged := world.mxcManaged.put mxc world.now }
  | .send id send =>
    if send.declared.length > env.attachmentsMaxPerEvent then world else world.start id (.checking send [] send.declared)
  | .setAvatar id holder (some new) => world.start id (.lockingAvatar holder new)
  | .setAvatar id holder none => world.start id (.readingAvatar holder none)
  | .redact id source backup => world.start id (.reading source backup)
  | .purge id holder => world.start id (.reading holder none)
  | .collect id =>
    match world.released with
    | [] => world
    | mxc :: rest => if world.tasks id = none then { world with released := rest }.become id (some (.removing mxc .waiting []))
        else world
  | .sweep id => if world.tasks id = none then world.removeNext id (world.sweepCandidates env) else world
  | .advance id => (world.tasks id).elim world (world.advance env id)
  -- A dropped task gives its locks back and does no more.
  | .abort id => (world.tasks id).elim world fun task => (world.unlock task.locked).become id none

end World

end Wbfuwunel.MediaRefs
