import Mathlib.Data.List.Perm.Subperm
import Wbfuwunel.Database.Tuples
import Wbfuwunel.Foundation.Runs
import Wbfuwunel.Foundation.Store

/-! Forward extremities: `service/rooms/state/mod.rs`, with the appends that set them.

The leaves of a room are the events that no other event names as a predecessor. An event that is built here takes the
leaves as its predecessors, twenty at most, and becomes the only leaf. An event that comes in takes its predecessors from
the leaves and is added.
-/

set_option autoImplicit false

namespace Wbfuwunel.Rooms.Extremities

open Foundation Database List Function Store

abbrev EventId := String
abbrev RoomId := String

structure Pdu where
  eventId : EventId
  prevEvents : List EventId
  deriving DecidableEq, Repr

structure LeafId where
  room : RoomId
  event : EventId
  deriving DecidableEq, Repr

namespace LeafId

def fields (id : LeafId) : List Field := [.str id.room, .str id.event]

def bytes (id : LeafId) : Bytes := serializeTuple id.fields

theorem bytes_injective : Injective bytes := by
  rintro ⟨r, e⟩ ⟨r', e'⟩ eq
  simpa [fields] using eq_of_serializeTuple_eq eq rfl

instance idOrder : LinearOrder LeafId := LinearOrder.lift' bytes bytes_injective

theorem lt_iff (a b : LeafId) : a < b ↔ a.bytes < b.bytes := Iff.rfl

theorem begins_iff (r : RoomId) (id : LeafId) : serializePrefix [r] <+: id.bytes ↔ id.room = r := by
  rw [bytes, serializePrefix_begins_iff _ (by simp [fields]) (by simp [fields, Field.isStr, Field.kind])]
  simp [fields]

end LeafId

open LeafId

structure Tables where
  roomidPduleaves : Store LeafId EventId
  referencedevents : RoomId × EventId → Bool
  /-- The events of all rooms, the latest first. -/
  timeline : List (RoomId × Pdu)

inductive Error where
  | inconsistentRoomState (message : String) (room : RoomId)
  deriving DecidableEq, Repr

def PREV_EVENTS_MAX : Nat := 20

namespace Tables

def empty : Tables := ⟨.empty, fun _ => false, []⟩

section Service

variable (tables : Tables) (room : RoomId)

def getForwardExtremities : List EventId :=
  (tables.roomidPduleaves.rowsStarting bytes (serializePrefix [room])).map (·.1.event)

def setForwardExtremities (events : List EventId) : Tables :=
  let cleared := ((tables.roomidPduleaves.rowsStarting bytes (serializePrefix [room])).map Prod.fst).foldl Store.del
    tables.roomidPduleaves
  { tables with roomidPduleaves := events.foldl (fun leaves event => leaves.put ⟨room, event⟩ event) cleared }

def markAsReferenced (events : List EventId) : Tables :=
  { tables with
    referencedevents := events.foldl (fun marks event => update marks (room, event) true) tables.referencedevents }

def isEventReferenced (event : EventId) : Bool := tables.referencedevents (room, event)

/-- `append_pdu`, what it does to the leaves. -/
def appendPdu (pdu : Pdu) (leafs : List EventId) : Tables :=
  let tables := (tables.markAsReferenced room pdu.prevEvents).setForwardExtremities room leafs
  { tables with timeline := (room, pdu) :: tables.timeline }

def computePrevEvents (isCreate : Bool) : Except Error (List EventId) :=
  let prevEvents := (tables.getForwardExtremities room).take PREV_EVENTS_MAX
  if prevEvents.isEmpty && !isCreate then
    .error (.inconsistentRoomState "cannot create a non-create event in a room with no forward extremities" room)
  else .ok prevEvents

/-- `build_and_append_pdu`; the id is the hash of what was built. -/
def buildAndAppendPdu (isCreate : Bool) (eventId : EventId) : Except Error Tables := do
  let prevEvents ← tables.computePrevEvents room isCreate
  return tables.appendPdu room ⟨eventId, prevEvents⟩ [eventId]

def computeRemainingExtremities (incoming : Pdu) : List EventId :=
  ((tables.getForwardExtremities room).filter fun event => !incoming.prevEvents.contains event).filter fun event =>
    !tables.isEventReferenced room event

def upgradeOutlierToTimelinePdu (incoming : Pdu) : Tables :=
  if tables.timeline.any (·.2.eventId = incoming.eventId) then tables
  else tables.appendPdu room incoming (tables.computeRemainingExtremities room incoming ++ [incoming.eventId])

end Service

def accepted (tables : Tables) (room : RoomId) : List Pdu :=
  tables.timeline.filterMap fun row => if row.1 = room then some row.2 else none

end Tables

open Tables

inductive Append where
  /-- An event that is built here. -/
  | build (room : RoomId) (isCreate : Bool) (eventId : EventId)
  /-- An event that comes in over federation. -/
  | incoming (room : RoomId) (pdu : Pdu)
  /-- A join or knock that another server has taken; its predecessors are that server's. -/
  | joined (room : RoomId) (pdu : Pdu)
  deriving DecidableEq, Repr

variable (tables : Tables)

def step : Append → Tables
  | .build room isCreate eventId =>
    match tables.buildAndAppendPdu room isCreate eventId with
    | .error _ => tables
    | .ok tables => tables
  | .incoming room pdu => tables.upgradeOutlierToTimelinePdu room pdu
  | .joined room pdu => tables.appendPdu room pdu [pdu.eventId]

def Unnamed (pdus : List Pdu) (event : EventId) : Prop :=
  (∃ pdu ∈ pdus, pdu.eventId = event) ∧ ∀ pdu ∈ pdus, event ∉ pdu.prevEvents

def Exact : Prop :=
  ∀ room event, event ∈ tables.getForwardExtremities room ↔ Unnamed (tables.accepted room) event

def Fresh : Append → Prop
  | .build room _ eventId => (∀ row ∈ tables.timeline, row.2.eventId ≠ eventId) ∧
      ∀ pdu ∈ tables.accepted room, eventId ∉ pdu.prevEvents
  | .incoming _ _ => True
  | .joined _ pdu => ∀ row ∈ tables.timeline, row.2.eventId ≠ pdu.eventId

/-- A built event meets no more leaves than it can name, a joined one names them all; an event that comes in new or joins
has not been named, also not by itself. -/
def Covered : Append → Prop
  | .build room _ _ => (tables.getForwardExtremities room).length ≤ PREV_EVENTS_MAX
  | .incoming room pdu => (∀ row ∈ tables.timeline, row.2.eventId ≠ pdu.eventId) →
      ∀ other ∈ pdu :: tables.accepted room, pdu.eventId ∉ other.prevEvents
  | .joined room pdu => (∀ event ∈ tables.getForwardExtremities room, event ∈ pdu.prevEvents) ∧
      ∀ other ∈ pdu :: tables.accepted room, pdu.eventId ∉ other.prevEvents

instance decidableFresh (tables : Tables) : ∀ append, Decidable (Fresh tables append)
  | .build room _ eventId => inferInstanceAs (Decidable ((∀ row ∈ tables.timeline, row.2.eventId ≠ eventId) ∧
      ∀ pdu ∈ tables.accepted room, eventId ∉ pdu.prevEvents))
  | .incoming _ _ => .isTrue trivial
  | .joined _ pdu => inferInstanceAs (Decidable (∀ row ∈ tables.timeline, row.2.eventId ≠ pdu.eventId))

instance decidableCovered (tables : Tables) : ∀ append, Decidable (Covered tables append)
  | .build room _ _ => inferInstanceAs (Decidable ((tables.getForwardExtremities room).length ≤ PREV_EVENTS_MAX))
  | .incoming room pdu => inferInstanceAs (Decidable ((∀ row ∈ tables.timeline, row.2.eventId ≠ pdu.eventId) →
      ∀ other ∈ pdu :: tables.accepted room, pdu.eventId ∉ other.prevEvents))
  | .joined room pdu => inferInstanceAs (Decidable ((∀ event ∈ tables.getForwardExtremities room, event ∈ pdu.prevEvents) ∧
      ∀ other ∈ pdu :: tables.accepted room, pdu.eventId ∉ other.prevEvents))

/-! ## The tables -/

namespace Tables

variable {tables : Tables} {room : RoomId}

theorem mem_getForwardExtremities {event : EventId} :
    event ∈ tables.getForwardExtremities room ↔ (tables.roomidPduleaves.find ⟨room, event⟩).isSome := by
  simp only [getForwardExtremities, mem_map, mem_rowsStarting _ lt_iff, begins_iff,
    Option.isSome_iff_exists, find_eq_some_iff, Prod.exists]
  constructor
  · rintro ⟨⟨_, _⟩, v, ⟨got, rfl⟩, rfl⟩
    exact ⟨v, got⟩
  · rintro ⟨v, got⟩
    exact ⟨⟨room, event⟩, v, ⟨got, rfl⟩, rfl⟩

theorem nodup_getForwardExtremities (tables : Tables) (room : RoomId) : (tables.getForwardExtremities room).Nodup := by
  have distinct : (tables.roomidPduleaves.rowsStarting bytes (serializePrefix [room])).Nodup :=
    (tables.roomidPduleaves.nodup_keys.of_map _).sublist ((takeWhile_sublist _).trans (dropWhile_sublist _))
  refine distinct.map_on ?_
  rintro ⟨⟨own, e⟩, v⟩ mem ⟨⟨own', e'⟩, v'⟩ mem' eq
  simp only [mem_rowsStarting _ lt_iff, begins_iff] at mem mem'
  obtain ⟨stored, rfl⟩ := mem
  obtain ⟨stored', rfl⟩ := mem'
  obtain rfl : e = e' := eq
  have got := (find_eq_some_iff.mpr stored).symm.trans (find_eq_some_iff.mpr stored')
  rw [Option.some.inj got]

theorem isSome_find_foldl_put (leaves : Store LeafId EventId) (es : List EventId) (id : LeafId) :
    ((es.foldl (fun leaves e => leaves.put ⟨room, e⟩ e) leaves).find id).isSome ↔
      id.room = room ∧ id.event ∈ es ∨ (leaves.find id).isSome := by
  induction es generalizing leaves with
  | nil => simp
  | cons e es ih =>
    rw [foldl_cons, ih, find_put]
    by_cases eq : id = ⟨room, e⟩
    · subst eq
      simp
    · have apart : ¬(id.room = room ∧ id.event = e) := fun both => eq (by rw [← both.1, ← both.2])
      rw [if_neg eq, mem_cons]
      tauto

theorem mem_getForwardExtremities_set (es : List EventId) (o : RoomId) (e : EventId) :
    e ∈ (tables.setForwardExtremities room es).getForwardExtremities o ↔
      if o = room then e ∈ es else e ∈ tables.getForwardExtremities o := by
  rw [mem_getForwardExtremities, mem_getForwardExtremities, setForwardExtremities, isSome_find_foldl_put]
  simp only [tables.roomidPduleaves.find_foldl_del_rowsStarting lt_iff, begins_iff]
  by_cases eq : o = room <;> simp [eq]

theorem isEventReferenced_mark (es : List EventId) (other : RoomId) (e : EventId) :
    (tables.markAsReferenced room es).isEventReferenced other e ↔
      other = room ∧ e ∈ es ∨ tables.isEventReferenced other e := by
  unfold markAsReferenced isEventReferenced
  generalize tables.referencedevents = marks
  induction es generalizing marks with
  | nil => simp
  | cons a es ih =>
    rw [foldl_cons, ih, update_apply]
    by_cases eq : (other, e) = (room, a)
    · obtain ⟨rfl, rfl⟩ := Prod.mk.inj eq
      simp
    · have apart : ¬(other = room ∧ e = a) := fun both => eq (by rw [both.1, both.2])
      rw [if_neg eq, mem_cons]
      tauto

/-! ### An append -/

variable {pdu : Pdu} {leafs : List EventId}

theorem mem_getForwardExtremities_append (o : RoomId) (e : EventId) :
    e ∈ (tables.appendPdu room pdu leafs).getForwardExtremities o ↔
      if o = room then e ∈ leafs else e ∈ tables.getForwardExtremities o :=
  mem_getForwardExtremities_set leafs o e

theorem isEventReferenced_append (other : RoomId) (e : EventId) :
    (tables.appendPdu room pdu leafs).isEventReferenced other e ↔
      other = room ∧ e ∈ pdu.prevEvents ∨ tables.isEventReferenced other e :=
  isEventReferenced_mark pdu.prevEvents other e

theorem accepted_append (o : RoomId) : (tables.appendPdu room pdu leafs).accepted o =
    if o = room then pdu :: tables.accepted room else tables.accepted o := by
  have rows : (tables.appendPdu room pdu leafs).timeline = (room, pdu) :: tables.timeline := rfl
  rw [accepted, rows]
  by_cases eq : o = room
  · subst eq
    simp [accepted]
  · simp [accepted, eq, Ne.symm eq]

theorem mem_accepted {pdu : Pdu} : pdu ∈ tables.accepted room ↔ (room, pdu) ∈ tables.timeline := by
  simp only [accepted, mem_filterMap, Option.ite_none_right_eq_some, Option.some.injEq, Prod.exists]
  constructor
  · rintro ⟨_, _, mem, rfl, rfl⟩
    exact mem
  · intro mem
    exact ⟨room, pdu, mem, rfl, rfl⟩

def Marked (tables : Tables) : Prop :=
  ∀ room event, tables.isEventReferenced room event ↔ ∃ pdu ∈ tables.accepted room, event ∈ pdu.prevEvents

theorem Marked.append (marked : tables.Marked) : (tables.appendPdu room pdu leafs).Marked := by
  intro o e
  rw [isEventReferenced_append, accepted_append, marked]
  by_cases eq : o = room
  · subst eq
    simp
  · simp [eq]

end Tables

/-! ## Leaves -/

section Leaves

variable {tables : Tables} {r : RoomId} {pdu : Pdu} {leafs : List EventId}

theorem unnamed_cons {pdus : List Pdu} {e : EventId} : Unnamed (pdu :: pdus) e ↔
    e ∉ pdu.prevEvents ∧ (∀ other ∈ pdus, e ∉ other.prevEvents) ∧
      (e = pdu.eventId ∨ ∃ other ∈ pdus, other.eventId = e) := by
  simp only [Unnamed, mem_cons, exists_eq_or_imp, forall_eq_or_imp]
  tauto

theorem exact_append_iff (exactly : Exact tables) : Exact (tables.appendPdu r pdu leafs) ↔
    ∀ e, e ∈ leafs ↔ Unnamed (pdu :: tables.accepted r) e := by
  constructor
  · intro h e
    have here := h r e
    rwa [mem_getForwardExtremities_append, accepted_append, if_pos rfl, if_pos rfl] at here
  · intro h o e
    rw [mem_getForwardExtremities_append, accepted_append]
    by_cases eq : o = r
    · subst eq
      simpa using h e
    · simpa [eq] using exactly o e

theorem not_mem_accepted {id : EventId} (new : ∀ row ∈ tables.timeline, row.2.eventId ≠ id) :
    ¬∃ other ∈ tables.accepted r, other.eventId = id := by
  rintro ⟨other, mem, eq⟩
  exact new _ (mem_accepted.mp mem) eq

variable (exactly : Exact tables)
include exactly

theorem exact_single_iff (new : ∀ row ∈ tables.timeline, row.2.eventId ≠ pdu.eventId) : Exact (tables.appendPdu r pdu [pdu.eventId]) ↔
    (∀ e ∈ tables.getForwardExtremities r, e ∈ pdu.prevEvents) ∧
      ∀ o ∈ pdu :: tables.accepted r, pdu.eventId ∉ o.prevEvents := by
  rw [exact_append_iff exactly]
  simp only [mem_singleton, unnamed_cons]
  constructor
  · intro h
    refine ⟨fun e leaf => ?_, ?_⟩
    · by_contra out
      obtain ⟨known, unnamed⟩ := (exactly r e).mp leaf
      obtain rfl := (h e).mpr ⟨out, unnamed, .inr known⟩
      exact not_mem_accepted new known
    · obtain ⟨own, others, -⟩ := (h pdu.eventId).mp rfl
      exact forall_mem_cons.mpr ⟨own, others⟩
  · rintro ⟨all, unnamed⟩ e
    obtain ⟨own, others⟩ := forall_mem_cons.mp unnamed
    constructor
    · rintro rfl
      exact ⟨own, others, .inl rfl⟩
    · rintro ⟨out, unnamed', rfl | known⟩
      · rfl
      · exact absurd (all e ((exactly r e).mpr ⟨known, unnamed'⟩)) out

theorem exact_remaining_iff (marked : tables.Marked) :
    Exact (tables.appendPdu r pdu (tables.computeRemainingExtremities r pdu ++ [pdu.eventId])) ↔
      ∀ o ∈ pdu :: tables.accepted r, pdu.eventId ∉ o.prevEvents := by
  have remaining (event : EventId) : event ∈ tables.computeRemainingExtremities r pdu ↔
      event ∉ pdu.prevEvents ∧ Unnamed (tables.accepted r) event := by
    have unmarked : (!tables.isEventReferenced r event) ↔ ¬∃ o ∈ tables.accepted r, event ∈ o.prevEvents := by
      rw [← marked r event, Bool.not_eq_true', Bool.not_eq_true]
    simp only [computeRemainingExtremities, mem_filter, exactly r event, Unnamed]
    grind
  rw [exact_append_iff exactly]
  simp only [mem_append, mem_singleton, remaining, unnamed_cons, forall_mem_cons]
  constructor
  · intro h
    obtain ⟨own, others, -⟩ := (h pdu.eventId).mp (.inr rfl)
    exact ⟨own, others⟩
  · rintro ⟨own, others⟩ event
    constructor
    · rintro (⟨out, known, unnamed⟩ | rfl)
      · exact ⟨out, unnamed, .inr known⟩
      · exact ⟨own, others, .inl rfl⟩
    · rintro ⟨out, unnamed, rfl | known⟩
      · exact .inr rfl
      · exact .inl ⟨out, known, unnamed⟩

omit exactly in
theorem leaves_subset_take_iff (n : Nat) :
    (∀ e ∈ tables.getForwardExtremities r, e ∈ (tables.getForwardExtremities r).take n) ↔
      (tables.getForwardExtremities r).length ≤ n := by
  constructor
  · intro all
    have most := (subperm_of_subset (tables.nodup_getForwardExtremities r) all).length_le
    exact most.trans (length_take_le _ _)
  · intro few e leaf
    rwa [take_of_length_le few]

theorem exact_build_iff {id : EventId} (new : ∀ row ∈ tables.timeline, row.2.eventId ≠ id)
    (unnamed : ∀ o ∈ tables.accepted r, id ∉ o.prevEvents) :
    Exact (tables.appendPdu r ⟨id, (tables.getForwardExtremities r).take PREV_EVENTS_MAX⟩ [id]) ↔
      (tables.getForwardExtremities r).length ≤ PREV_EVENTS_MAX := by
  have own : id ∉ (tables.getForwardExtremities r).take PREV_EVENTS_MAX := fun mem =>
    not_mem_accepted new ((exactly r id).mp (mem_of_mem_take mem)).1
  rw [exact_single_iff exactly new, leaves_subset_take_iff]
  exact and_iff_left (forall_mem_cons.mpr ⟨own, unnamed⟩)

end Leaves

/-! ## Runs -/

section Runs

variable {tables : Tables} {r : RoomId}

theorem step_incoming_old {pdu : Pdu} (old : ¬∀ row ∈ tables.timeline, row.2.eventId ≠ pdu.eventId) :
    step tables (.incoming r pdu) = tables := by
  have known : tables.timeline.any (·.2.eventId = pdu.eventId) := by simpa using old
  rw [step, upgradeOutlierToTimelinePdu, if_pos known]

theorem step_incoming_new {pdu : Pdu} (new : ∀ row ∈ tables.timeline, row.2.eventId ≠ pdu.eventId) :
    step tables (.incoming r pdu) =
      tables.appendPdu r pdu (tables.computeRemainingExtremities r pdu ++ [pdu.eventId]) := by
  have unknown : ¬tables.timeline.any (·.2.eventId = pdu.eventId) := by simpa using new
  rw [step, upgradeOutlierToTimelinePdu, if_neg unknown]

theorem step_build (r : RoomId) (isCreate : Bool) (id : EventId) :
    tables.getForwardExtremities r = [] ∧ step tables (.build r isCreate id) = tables ∨
      step tables (.build r isCreate id) =
        tables.appendPdu r ⟨id, (tables.getForwardExtremities r).take PREV_EVENTS_MAX⟩ [id] := by
  simp only [step, buildAndAppendPdu, computePrevEvents]
  split <;> rename_i result
  · split at result
    next refused =>
      rw [Bool.and_eq_true, List.isEmpty_iff, List.take_eq_nil_iff] at refused
      exact .inl ⟨refused.1.resolve_left (by decide), rfl⟩
    · cases result
  · split at result
    · cases result
    · exact .inr (Except.ok.inj result).symm

theorem marked_step (marked : tables.Marked) (append : Append) : (step tables append).Marked := by
  cases append with
  | build r isCreate id =>
    rcases @step_build tables r isCreate id with ⟨-, eq⟩ | appended
    · rwa [eq]
    · rw [appended]
      exact marked.append
  | incoming r pdu =>
    by_cases new : ∀ row ∈ tables.timeline, row.2.eventId ≠ pdu.eventId
    · rw [step_incoming_new new]
      exact marked.append
    · rwa [step_incoming_old new]
  | joined r pdu => exact marked.append

theorem exact_step_iff {append : Append} (marked : tables.Marked) (exactly : Exact tables) (fresh : Fresh tables append) :
    Exact (step tables append) ↔ Covered tables append := by
  cases append with
  | build r isCreate id =>
    rcases @step_build tables r isCreate id with ⟨none, eq⟩ | appended
    · rw [eq]
      exact iff_of_true exactly (by simp [Covered, none])
    · rw [appended]
      exact exact_build_iff exactly fresh.1 fresh.2
  | incoming r pdu =>
    by_cases new : ∀ row ∈ tables.timeline, row.2.eventId ≠ pdu.eventId
    · rw [step_incoming_new new, exact_remaining_iff exactly marked]
      exact ⟨fun unnamed _ => unnamed, fun covered => covered new⟩
    · rw [step_incoming_old new]
      exact iff_of_true exactly fun only => absurd only new
  | joined r pdu => exact exact_single_iff exactly fresh

theorem along_exact_iff (marked : tables.Marked) (exactly : Exact tables) {appends : List Append}
    (fresh : Admits step Fresh tables appends) : Along step Exact tables appends ↔ Admits step Covered tables appends := by
  have keeps : ∀ tables append, Tables.Marked tables → Fresh tables append → (step tables append).Marked :=
    fun _ append marked _ => marked_step marked append
  exact along_iff_admits keeps (fun _ _ marked exactly => exact_step_iff marked exactly) marked exactly fresh

theorem marked_empty : Tables.empty.Marked := by
  intro r e
  simp [Tables.empty, Tables.isEventReferenced, Tables.accepted]

theorem exact_empty : Exact .empty := by
  intro r e
  rw [mem_getForwardExtremities]
  simp [Tables.empty, Tables.accepted, Unnamed]

/-- The stored leaves of every room are exact after each append just if every built event meets at most twenty leaves, a
joined one names all of them, and none that is new has been named before. -/
theorem extremities_exact {appends : List Append} (fresh : Admits step Fresh .empty appends) :
    Along step Exact .empty appends ↔ Admits step Covered .empty appends :=
  along_exact_iff marked_empty exact_empty fresh

end Runs

section Story

/-- A fork of two events, which the next event that is built joins. -/
def joinedFork : List Append :=
  [.build "!r" true "$create", .incoming "!r" ⟨"$a", ["$create"]⟩, .incoming "!r" ⟨"$b", ["$create"]⟩,
    .build "!r" false "$next"]

theorem extremities_exact_fork : Exact (run step .empty joinedFork) ∧
    (run step .empty joinedFork).getForwardExtremities "!r" = ["$next"] :=
  ⟨((@extremities_exact joinedFork (by decide +kernel)).mpr (by decide +kernel)).last, by decide +kernel⟩

/-- An event that names another comes in before it. -/
def namedFirst : List Append :=
  [.build "!r" true "$create", .incoming "!r" ⟨"$b", ["$a"]⟩, .incoming "!r" ⟨"$a", ["$create"]⟩]

def letters : List EventId := "abcdefghijklmnopqrstu".toList.map String.singleton

/-- Twenty-one events behind the first. -/
def wide : List Append := .build "!r" true "$create" :: letters.map fun letter => .incoming "!r" ⟨letter, ["$create"]⟩

def built : Tables := step (run step .empty wide) (.build "!r" false "$next")

/-- A late event is a leaf although it is named; one of the twenty-one is no leaf although nothing names it. -/
theorem extremities_inexact : ((run step .empty namedFirst).getForwardExtremities "!r" = ["$a", "$b"] ∧
      ⟨"$b", ["$a"]⟩ ∈ (run step .empty namedFirst).accepted "!r") ∧
    ∃ event, Unnamed (built.accepted "!r") event ∧ event ∉ built.getForwardExtremities "!r" := by
  have dropped : ((∃ pdu ∈ built.accepted "!r", pdu.eventId = "u") ∧ ∀ pdu ∈ built.accepted "!r", "u" ∉ pdu.prevEvents) ∧
      "u" ∉ built.getForwardExtremities "!r" := by decide +kernel
  exact ⟨by decide +kernel, "u", dropped⟩

end Story

end Wbfuwunel.Rooms.Extremities
