import Mathlib.Data.Finset.Sort
import Mathlib.Data.Prod.Lex
import Mathlib.Data.String.Basic
import Wbfuwunel.Foundation.Runs
import Wbfuwunel.Foundation.Store
import Wbfuwunel.Rooms.Pdu

/-! The auth chains of events and their cache: `rooms/auth_chain`.

At every await other calls and the storing of events may come in between. A call is therefore a state, and each of its
actions is one read, one write or one turn of a loop.
-/

set_option autoImplicit false

namespace Wbfuwunel.Rooms.AuthChain

open Foundation List

abbrev ShortEventId := UInt64

structure AuthPdu where
  authEvents : List EventId
  roomId : RoomId

/-- What stands under each id once it is stored, and what the versions of the rooms say. -/
structure Events where
  /-- Nothing where the JSON lacks these fields. -/
  pdu : EventId → Option AuthPdu
  roomCreateEventIdAsRoomId : RoomId → Bool
  asEventId : RoomId → Option EventId
  /-- Where the room id is the id of the create event, the ids of the room's events are made from it, so it lists none. -/
  create_first : ∀ {room create}, roomCreateEventIdAsRoomId room → asEventId room = some create →
    ∀ {first other listed}, pdu create = some first → other ∈ first.authEvents → pdu other = some listed →
      listed.roomId ≠ room

def Events.create (events : Events) (room : RoomId) : Option EventId :=
  if events.roomCreateEventIdAsRoomId room then events.asEventId room else none

/-! ## Tables -/

structure Tables where
  stored : Finset EventId
  eventidShorteventid : Store EventId ShortEventId
  authchainkeyAuthchain : Store Bytes Bytes

namespace Tables

variable (tables : Tables)

def short (event : EventId) : Option ShortEventId := tables.eventidShorteventid.find event

/-- Allocations of one id exclude each other and look again under the lock, so this is one step. -/
def getOrCreateShorteventid (event : EventId) (count : ShortEventId) : Tables × ShortEventId :=
  match tables.short event with
  | some short => (tables, short)
  | none => ({ tables with eventidShorteventid := tables.eventidShorteventid.put event count }, count)

/-- A sequence of integers has no separators. -/
def shortsBytes (shorts : List ShortEventId) : Bytes := shorts.flatMap toBeBytes64

/-- `as_chunks` without its remainder, each read as a big-endian integer. -/
def readShorts : Bytes → List ShortEventId
  | first :: second :: third :: fourth :: fifth :: sixth :: seventh :: eighth :: rest =>
    fromBeBytes64 [first, second, third, fourth, fifth, sixth, seventh, eighth] :: readShorts rest
  | _ => []

def putCachedAuthChain (key chain : List ShortEventId) : Tables :=
  { tables with authchainkeyAuthchain := tables.authchainkeyAuthchain.put (shortsBytes key) (shortsBytes chain) }

def getCachedAuthChain (key : List ShortEventId) : Option (List ShortEventId) :=
  if key.isEmpty then some []
  else match tables.authchainkeyAuthchain.find (shortsBytes key) with
    | none => none
    | some value => if value.length % 8 = 0 then some (readShorts value) else none

end Tables

inductive GetError where
  | notFound
  | other
  deriving DecidableEq

/-- The event is looked for in the timeline and among the outliers at once; of an unreadable one the lookup that fails last
says which error it is. -/
def getEventAuthEventIds (events : Events) (tables : Tables) (room : RoomId) (event : EventId) (unreadable : GetError) :
    Except GetError (List EventId) :=
  if event ∉ tables.stored then .error .notFound
  else match events.pdu event with
    | none => .error unreadable
    | some pdu => if pdu.roomId ≠ room then .error .other else .ok pdu.authEvents

theorem getEventAuthEventIds_ok {es : Events} {tables : Tables} {r : RoomId} {event : EventId} {unreadable : GetError}
    {authEvents : List EventId} (ok : getEventAuthEventIds es tables r event unreadable = .ok authEvents) :
    event ∈ tables.stored ∧ es.pdu event = some ⟨authEvents, r⟩ := by
  rw [getEventAuthEventIds] at ok
  split at ok
  · cases ok
  next got =>
    split at ok
    · cases ok
    next pdu stands =>
      split at ok
      · cases ok
      next eq =>
        cases ok
        exact ⟨not_not.mp got, by rw [stands, ← not_not.mp eq]⟩

/-! ## The walk from one event -/

structure Fetch where
  event : EventId
  result : Option (Except GetError (List EventId))

structure Walk where
  todo : List Fetch
  seen : List EventId
  /-- Found, and not numbered yet. -/
  found : List EventId
  chain : List ShortEventId
  complete : Bool

inductive WalkAction where
  | read (position : Nat) (unreadable : GetError)
  | eval (position : Nat)
  | number (position : Nat) (count : ShortEventId)

def WalkAction.count : WalkAction → Option ShortEventId
  | .number _ count => some count
  | _ => none

namespace Walk

def start (events : Events) (room : RoomId) (event : EventId) : Walk where
  todo := [⟨event, none⟩]
  seen := (events.create room).toList
  found := []
  chain := []
  complete := true

def see (walk : Walk) (event : EventId) : Walk :=
  if event ∈ walk.seen then walk
  else { walk with
    seen := event :: walk.seen
    todo := walk.todo ++ [⟨event, none⟩]
    found := walk.found ++ [event] }

theorem foldl_see (authEvents : List EventId) (walk : Walk) : ∃ fresh : List EventId,
    authEvents.foldl see walk = { walk with
      seen := fresh.reverse ++ walk.seen
      todo := walk.todo ++ fresh.map (⟨·, none⟩)
      found := walk.found ++ fresh } ∧
    fresh.Nodup ∧ ∀ other, other ∈ fresh ↔ other ∈ authEvents ∧ other ∉ walk.seen := by
  induction authEvents generalizing walk with
  | nil => exact ⟨[], by simp⟩
  | cons a authEvents ih =>
    obtain ⟨fresh, eq, distinct, members⟩ := ih (walk.see a)
    rw [foldl_cons, eq]
    by_cases seen : a ∈ walk.seen
    · have still : walk.see a = walk := if_pos seen
      rw [still] at members ⊢
      refine ⟨fresh, rfl, distinct, fun other => ?_⟩
      rw [members, mem_cons]
      constructor
      · exact And.imp_left .inr
      · rintro ⟨rfl | ls, unseen⟩
        · exact absurd seen unseen
        · exact ⟨ls, unseen⟩
    · have new : walk.see a = { walk with
          seen := a :: walk.seen
          todo := walk.todo ++ [⟨a, none⟩]
          found := walk.found ++ [a] } := if_neg seen
      rw [new] at members ⊢
      refine ⟨a :: fresh, by simp, nodup_cons.mpr ⟨fun mem => ?_, distinct⟩, fun other => ?_⟩
      · simpa using (members a).mp mem
      · simp only [mem_cons, members]
        by_cases eq : other = a
        · simp [eq, seen]
        · simp [eq]

def evaluated (walk : Walk) : Except GetError (List EventId) → Walk
  | .ok authEvents => authEvents.foldl see walk
  | .error .notFound => { walk with complete := false }
  -- The stream ends, and what is still to do is dropped.
  | .error .other => { walk with complete := false, todo := [] }

def step (events : Events) (room : RoomId) (tables : Tables) (walk : Walk) : WalkAction → Tables × Walk
  | .read position unreadable =>
    match walk.todo[position]? with
    | some ⟨event, none⟩ =>
      let result := getEventAuthEventIds events tables room event unreadable
      (tables, { walk with todo := walk.todo.set position ⟨event, some result⟩ })
    | _ => (tables, walk)
  | .eval position =>
    match walk.todo[position]? with
    | some ⟨_, some result⟩ => (tables, evaluated { walk with todo := walk.todo.eraseIdx position } result)
    | _ => (tables, walk)
  | .number position count =>
    match walk.found[position]? with
    | some event =>
      let numbered := tables.getOrCreateShorteventid event count
      (numbered.1, { walk with found := walk.found.eraseIdx position, chain := walk.chain ++ [numbered.2] })
    | none => (tables, walk)

end Walk

/-! ## The chain of one event, of a bucket, and of a call -/

abbrev Starting := ShortEventId × EventId

/-- The shared flags start true, are only ever lowered, and are read when all is collected: each chain carries its own. -/
inductive Building where
  | asking
  | walking (walk : Walk)
  | built (chain : List ShortEventId) (complete : Bool)

inductive BuildAction where
  | lookup
  | walk (action : WalkAction)
  | finish

def BuildAction.count : BuildAction → Option ShortEventId
  | .walk action => action.count
  | _ => none

namespace Building

def chain : Building → List ShortEventId
  | built chain _ => chain
  | _ => []

def isBuilt : Building → Bool
  | built .. => true
  | _ => false

def complete : Building → Bool
  | built _ complete => complete
  | _ => true

def step (events : Events) (room : RoomId) (tables : Tables) (starting : Starting) (building : Building) :
    BuildAction → Tables × Building
  | .lookup =>
    match building with
    | asking =>
      match tables.getCachedAuthChain [starting.1] with
      | some chain => (tables, built chain true)
      | none => (tables, walking (Walk.start events room starting.2))
    | _ => (tables, building)
  | .walk action =>
    match building with
    | walking walk =>
      let next := walk.step events room tables action
      (next.1, walking next.2)
    | _ => (tables, building)
  | .finish =>
    match building with
    | walking walk =>
      if walk.todo.isEmpty && walk.found.isEmpty then
        (if walk.complete then tables.putCachedAuthChain [starting.1] walk.chain else tables,
          built walk.chain walk.complete)
      else (tables, building)
    | _ => (tables, building)

end Building

/-- `itertools`' `dedup`: neighbours that are equal become one. -/
def dedup : List ShortEventId → List ShortEventId
  | first :: second :: rest => if first = second then dedup (second :: rest) else first :: dedup (second :: rest)
  | chain => chain

/-- The order in which chains arrive is lost here. -/
def collectChains (chains : List (List ShortEventId)) : List ShortEventId := dedup (chains.flatten.mergeSort (· ≤ ·))

inductive ChunkStage where
  | asking
  | building (builders : List (Starting × Building))
  | done (chain : List ShortEventId)

structure Chunk where
  starting : List Starting
  stage : ChunkStage

inductive ChunkAction where
  | lookup
  | build (position : Nat) (action : BuildAction)
  | finish

def ChunkAction.count : ChunkAction → Option ShortEventId
  | .build _ action => action.count
  | _ => none

namespace Chunk

def chain (chunk : Chunk) : List ShortEventId :=
  match chunk.stage with
  | .done chain => chain
  | _ => []

def isDone (chunk : Chunk) : Bool :=
  match chunk.stage with
  | .done _ => true
  | _ => false

def key (chunk : Chunk) : List ShortEventId := chunk.starting.map Prod.fst

def step (events : Events) (room : RoomId) (tables : Tables) (chunk : Chunk) : ChunkAction → Tables × Chunk
  | .lookup =>
    match chunk.stage with
    | .asking =>
      match tables.getCachedAuthChain chunk.key with
      | some chain => (tables, { chunk with stage := .done chain })
      | none => (tables, { chunk with stage := .building (chunk.starting.map fun starting => (starting, .asking)) })
    | _ => (tables, chunk)
  | .build position action =>
    match chunk.stage with
    | .building builders =>
      match builders[position]? with
      | some builder =>
        let next := builder.2.step events room tables builder.1 action
        (next.1, { chunk with stage := .building (builders.set position (builder.1, next.2)) })
      | none => (tables, chunk)
    | _ => (tables, chunk)
  | .finish =>
    match chunk.stage with
    | .building builders =>
      if builders.all fun builder => builder.2.isBuilt then
        let chain := collectChains (builders.map fun builder => builder.2.chain)
        (if builders.all fun builder => builder.2.complete then tables.putCachedAuthChain chunk.key chain else tables,
          { chunk with stage := .done chain })
      else (tables, chunk)
    | _ => (tables, chunk)

end Chunk

def NUM_BUCKETS : Nat := 50

/-- Ordered by the short id first. -/
abbrev Bucket := Finset (ShortEventId ×ₗ EventId)

def Bucket.starting (bucket : Bucket) : List Starting := bucket.sort.map ofLex

inductive CallStage where
  | bucketing (rest : List EventId) (buckets : List Bucket)
  | collecting (chunks : List Chunk)
  | done (chain : List ShortEventId)
  /-- Cancelled, or the server stopped. -/
  | dropped

structure Call where
  roomId : RoomId
  startingEvents : List EventId
  stage : CallStage

inductive CallAction where
  | bucket (count : ShortEventId)
  | collect
  | chunk (position : Nat) (action : ChunkAction)
  | finish

def CallAction.count : CallAction → Option ShortEventId
  | .bucket count => some count
  | .chunk _ action => action.count
  | _ => none

namespace Call

def start (room : RoomId) (startingEvents : List EventId) : Call :=
  ⟨room, startingEvents, .bucketing startingEvents (List.replicate NUM_BUCKETS ∅)⟩

def result (call : Call) : Option (List ShortEventId) :=
  match call.stage with
  | .done chain => some chain
  | _ => none

def step (events : Events) (tables : Tables) (call : Call) : CallAction → Tables × Call
  | .bucket count =>
    match call.stage with
    | .bucketing (event :: rest) buckets =>
      let numbered := tables.getOrCreateShorteventid event count
      let bucket := numbered.2.toNat % NUM_BUCKETS
      (numbered.1, { call with
        stage := .bucketing rest (buckets.modify bucket (insert (toLex (numbered.2, event)))) })
    | _ => (tables, call)
  | .collect =>
    match call.stage with
    | .bucketing [] buckets =>
      (tables, { call with stage := .collecting (buckets.map fun bucket => ⟨bucket.starting, .asking⟩) })
    | _ => (tables, call)
  | .chunk position action =>
    match call.stage with
    | .collecting chunks =>
      match chunks[position]? with
      | some chunk =>
        let next := chunk.step events call.roomId tables action
        (next.1, { call with stage := .collecting (chunks.set position next.2) })
      | none => (tables, call)
    | _ => (tables, call)
  | .finish =>
    match call.stage with
    | .collecting chunks =>
      if chunks.all Chunk.isDone then (tables, { call with stage := .done (collectChains (chunks.map Chunk.chain)) })
      else (tables, call)
    | _ => (tables, call)

end Call

/-! ## All calls -/

structure Service where
  tables : Tables
  calls : List Call

inductive Event where
  | store (event : EventId)
  | getAuthChain (roomId : RoomId) (startingEvents : List EventId)
  | tick (call : Nat) (action : CallAction)
  | drop (call : Nat)
  /-- The table is a cache: its rows may go at any time. -/
  | evict (key : Bytes)
  | clearCache

namespace Service

def empty : Service := ⟨⟨∅, Store.empty, Store.empty⟩, []⟩

def step (events : Events) (service : Service) : Event → Service
  | .store event => { service with tables := { service.tables with stored := insert event service.tables.stored } }
  | .getAuthChain room startingEvents => { service with calls := service.calls ++ [Call.start room startingEvents] }
  | .tick position action =>
    match service.calls[position]? with
    | some call =>
      let next := call.step events service.tables action
      ⟨next.1, service.calls.set position next.2⟩
    | none => service
  | .drop position => { service with calls := service.calls.modify position fun call => { call with stage := .dropped } }
  | .evict key =>
    { service with tables := { service.tables with authchainkeyAuthchain := service.tables.authchainkeyAuthchain.del key } }
  | .clearCache => { service with tables := { service.tables with authchainkeyAuthchain := Store.empty } }

end Service

end Wbfuwunel.Rooms.AuthChain
