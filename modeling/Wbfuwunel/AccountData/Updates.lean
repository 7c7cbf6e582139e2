import Wbfuwunel.Database.Counted
import Wbfuwunel.Database.Tuples
import Wbfuwunel.Foundation.Calls

/-! Account data: `service/account_data/mod.rs`.

The data of a room, a user and a type lies under a position, and an index row names it. An update takes a position, looks
up the row it will replace, and then writes both tables and deletes that row in one transaction.
-/

set_option autoImplicit false

namespace Wbfuwunel.AccountData

open Foundation Database List Function Option Store Protocol

/-- What the data is for. Global data is stored under an empty room. -/
structure DataKey where
  room : String
  user : String
  kind : String
  deriving DecidableEq, Repr

structure DataId where
  room : String
  user : String
  count : UInt64
  kind : String
  deriving DecidableEq, Repr

/-- The two fields of the JSON that are looked at. -/
structure Event where
  type : Option String
  content : Option String
  deriving DecidableEq, Repr

namespace DataId

variable (id : DataId)

def key : DataKey := ⟨id.room, id.user, id.kind⟩

def fields : List Field := [.str id.room, .str id.user, .u64 id.count, .str id.kind]

def bytes : Bytes := serializeTuple id.fields

theorem bytes_injective : Injective bytes := by
  rintro ⟨r, u, n, kind⟩ ⟨r', u', n', kind'⟩ eq
  simpa [fields] using eq_of_serializeTuple_eq eq rfl

instance idOrder : LinearOrder DataId := LinearOrder.lift' bytes bytes_injective

theorem lt_iff (a b : DataId) : a < b ↔ a.bytes < b.bytes := Iff.rfl

def isOf (room user : String) (id : DataId) : Bool := id.room = room && id.user = user

def opening : Bytes := serializePrefix [id.room, id.user]

theorem bytes_eq : id.bytes = id.opening ++ (toBeBytes64 id.count ++ SEP :: utf8 id.kind) := by
  simp [bytes, opening, fields, serializeTuple, serializePrefix, Field.element, Element.encode]

theorem begins_iff (r user : String) (id : DataId) : serializePrefix [r, user] <+: id.bytes ↔ id.isOf r user := by
  rw [bytes, serializePrefix_begins_iff _ (by simp [fields]) (by simp [fields, Field.isStr, Field.kind])]
  simp [fields, isOf]

end DataId

structure Tables where
  roomuserdataidAccountdata : Store DataId Event
  roomusertypeRoomuserdataid : DataKey → Option DataId
  counter : UInt64

namespace Tables

def empty : Tables := ⟨.empty, fun _ => none, 0⟩

variable (tables : Tables)

/-- `next_count`; the counter stops the server before it overflows. -/
def nextCount : Option Tables :=
  if tables.counter = 0xFFFFFFFFFFFFFFFF then none else some { tables with counter := tables.counter + 1 }

def commit (id : DataId) (data : Event) (prev : Option DataId) : Tables :=
  let put := tables.roomuserdataidAccountdata.put id data
  { tables with
    roomuserdataidAccountdata := prev.elim put put.del
    roomusertypeRoomuserdataid := update tables.roomusertypeRoomuserdataid id.key (some id) }

def getRaw (key : DataKey) : Option Event :=
  (tables.roomusertypeRoomuserdataid key).bind tables.roomuserdataidAccountdata.find

def changedRows (room user : String) (since : UInt64) (upper : Option UInt64) : List (DataId × Event) :=
  rowsWithin DataId.bytes DataId.count tables.roomuserdataidAccountdata (serializePrefix [room, user])
    (DataId.isOf room user) since upper

def changesSince (room user : String) (since : UInt64) (upper : Option UInt64) : List Event :=
  (tables.changedRows room user since upper).map Prod.snd

end Tables

open Tables

inductive Request where
  | update (key : DataKey) (data : Event)
  | delete (key : DataKey)
  deriving DecidableEq, Repr

inductive Call where
  | refused (message : String)
  | numbering (key : DataKey) (data : Event)
  | reading (key : DataKey) (data : Event) (count : UInt64)
  | committing (key : DataKey) (data : Event) (count : UInt64) (prev : Option DataId)
  | done (key : DataKey) (data : Event) (count : UInt64)
  deriving DecidableEq, Repr

def update (key : DataKey) (data : Event) : Call :=
  if data.type.isNone || data.content.isNone then .refused "Account data doesn't have all required fields."
  else .numbering key data

def tombstone (kind : String) : Event := ⟨some kind, some "\x7b\x7d"⟩

def begin : Request → Call
  | .update key data => update key data
  | .delete key => update key (tombstone key.kind)

def advance (tables : Tables) : Call → Tables × Call
  | .refused message => (tables, .refused message)
  | .numbering key data =>
    match tables.nextCount with
    | none => (tables, .numbering key data)
    | some tables => (tables, .reading key data tables.counter)
  | .reading key data count => (tables, .committing key data count (tables.roomusertypeRoomuserdataid key))
  | .committing key data count prev =>
    (tables.commit ⟨key.room, key.user, count, key.kind⟩ data prev, .done key data count)
  | .done key data count => (tables, .done key data count)

abbrev DataEvent := CallEvent Request Unit Empty

def dataProtocol : Protocol Tables Call Request Unit Empty where
  begin request tables := (tables, begin request)
  advance _ := advance
  other event := event.elim

structure Written where
  key : DataKey
  data : Event
  count : UInt64
  deriving DecidableEq, Repr

def Call.written : Call → Option Written
  | .done key data count => some ⟨key, data, count⟩
  | _ => none

/-- The index row an update replaces is still the one it read, at an earlier position. -/
def Call.Undisturbed (tables : Tables) : Call → Prop
  | .committing key _ count prev => tables.roomusertypeRoomuserdataid key = prev ∧ ∀ id ∈ prev, id.count < count
  | _ => True

instance decidableUndisturbed (tables : Tables) : ∀ call : Call, Decidable (call.Undisturbed tables)
  | .committing key _ count prev => inferInstanceAs (Decidable
      (tables.roomusertypeRoomuserdataid key = prev ∧ ∀ id ∈ prev, id.count < count))
  | .refused _ | .numbering _ _ | .reading _ _ _ | .done _ _ _ => .isTrue trivial

namespace Call

def position : Call → Option (DataKey × UInt64)
  | .reading key _ count | .committing key _ count _ | .done key _ count => some (key, count)
  | .refused _ | .numbering _ _ => none

def Finished : Call → Prop
  | .refused _ | .done _ _ _ => True
  | _ => False

end Call

open Call

/-! ## The data, the index and what was written -/

section Tables

/-- Every data row is the one its index row names, and it was written last among the rows of its key. -/
structure Indexed (tables : Tables) (writes : Multiset Written) : Prop where
  named : ∀ row ∈ tables.roomuserdataidAccountdata.rows, tables.roomusertypeRoomuserdataid row.1.key = some row.1
  last : ∀ key id, tables.roomusertypeRoomuserdataid key = some id → id.key = key ∧
    ∃ write ∈ writes, write.key = key ∧ write.count = id.count ∧
      tables.roomuserdataidAccountdata.find id = some write.data ∧ ∀ other ∈ writes, other.key = key → other.count ≤ id.count
  kept : ∀ write ∈ writes, (tables.roomusertypeRoomuserdataid write.key).isSome

variable {t : Tables} {writes : Multiset Written}

theorem indexed_empty : Indexed .empty 0 := ⟨by simp [Tables.empty, Store.empty], by simp [Tables.empty], by simp⟩

variable {id : DataId} {data : Event}

theorem find_commit {o : DataId} {prev : Option DataId} (ne : prev ≠ some id) :
    (t.commit id data prev).roomuserdataidAccountdata.find o =
      if o = id then some data else if prev = some o then none else t.roomuserdataidAccountdata.find o := by
  cases prev with
  | none => simp [commit, find_put]
  | some replaced =>
    have apart : replaced ≠ id := fun eq => ne (congrArg some eq)
    simp only [commit, Option.elim, find_del, find_put]
    grind

theorem index_commit (id : DataId) (data : Event) (prev : Option DataId) (k : DataKey) :
    (t.commit id data prev).roomusertypeRoomuserdataid k =
      if k = id.key then some id else t.roomusertypeRoomuserdataid k := by
  simp [commit, update_apply]

theorem Indexed.commit (indexed : Indexed t writes) {prev : Option DataId}
    (current : t.roomusertypeRoomuserdataid id.key = prev) (later : ∀ old ∈ prev, old.count < id.count) :
    Indexed (t.commit id data prev) ({⟨id.key, data, id.count⟩} + writes) := by
  have ne : prev ≠ some id := fun eq => lt_irrefl _ (later id eq)
  -- Every earlier write of the key lies before the row that is replaced.
  have largest : ∀ write ∈ writes, write.key = id.key → write.count ≤ id.count := by
    intro write mem eq
    obtain ⟨old, hit⟩ := isSome_iff_exists.mp (indexed.kept write mem)
    rw [eq] at hit
    obtain ⟨-, -, -, -, -, -, above⟩ := indexed.last _ old hit
    exact (above write mem eq).trans (later old (current.symm.trans hit)).le
  constructor
  · rintro ⟨o, v⟩ mem
    have got := find_eq_some_iff.mpr mem
    rw [find_commit ne] at got
    rw [index_commit]
    split at got
    next eq =>
      simp [eq]
    · split at got
      · cases got
      next replaced =>
        have before := indexed.named _ (find_eq_some_iff.mp got)
        rw [if_neg, before]
        intro eq
        rw [eq, current] at before
        exact replaced before
  · intro k o hit
    rw [index_commit] at hit
    split at hit
    next eq =>
      obtain rfl := some.inj hit
      refine ⟨eq.symm, ⟨id.key, data, id.count⟩, by simp, eq.symm, rfl, by simp [find_commit ne], ?_⟩
      intro write mem own
      rcases Multiset.mem_add.mp mem with new | old
      · rw [Multiset.mem_singleton.mp new]
      · exact largest write old (own.trans eq)
    next away =>
      obtain ⟨own, write, mem, written, ok, got, above⟩ := indexed.last k o hit
      have kept : o ≠ id ∧ prev ≠ some o := by
        refine ⟨fun eq => away (by rw [← own, eq]), fun replaced => away ?_⟩
        rw [← own]
        exact (indexed.last _ o (current.trans replaced)).1
      refine ⟨own, write, by simp [mem], written, ok, ?_, ?_⟩
      · rw [find_commit ne, if_neg kept.1, if_neg kept.2, got]
      · intro later member eq
        rcases Multiset.mem_add.mp member with new | old
        · rw [Multiset.mem_singleton.mp new] at eq
          exact absurd eq.symm away
        · exact above later old eq
  · intro write mem
    rw [index_commit]
    split
    · rfl
    next away =>
      rcases Multiset.mem_add.mp mem with new | old
      · rw [Multiset.mem_singleton.mp new] at away
        exact absurd rfl away
      · exact indexed.kept write old

theorem Indexed.filter_eq (indexed : Indexed t writes) {k : DataKey} (named : t.roomusertypeRoomuserdataid k = some id)
    (got : t.roomuserdataidAccountdata.find id = some data) :
    t.roomuserdataidAccountdata.rows.filter (·.1.key = k) = [(id, data)] := by
  have own : id.key = k := (indexed.last k id named).1
  have mem : (id, data) ∈ t.roomuserdataidAccountdata.rows.filter (·.1.key = k) :=
    mem_filter.mpr ⟨find_eq_some_iff.mp got, by simpa using own⟩
  have only : ∀ row ∈ t.roomuserdataidAccountdata.rows.filter (·.1.key = k), row = (id, data) := by
    rintro ⟨o, v⟩ member
    obtain ⟨stored, same⟩ := mem_filter.mp member
    have same : o.key = k := by simpa using same
    have named' := indexed.named _ stored
    rw [same, named] at named'
    obtain rfl := some.inj named'
    exact congrArg (Prod.mk id) (some.inj ((find_eq_some_iff.mpr stored).symm.trans got))
  have distinct : (t.roomuserdataidAccountdata.rows.filter (·.1.key = k)).Nodup :=
    (t.roomuserdataidAccountdata.nodup_keys.of_map _).filter _
  exact perm_singleton.mp ((perm_ext_iff_of_nodup distinct (nodup_singleton _)).mpr fun row =>
    ⟨fun member => mem_singleton.mpr (only row member), fun equal => mem_singleton.mp equal ▸ mem⟩)

end Tables

section Changes

variable {t : Tables} {writes : Multiset Written} {r u : String} {since : UInt64} {upper : Option UInt64}

theorem mem_changedRows {row : DataId × Event} : row ∈ t.changedRows r u since upper ↔
    row ∈ t.roomuserdataidAccountdata.rows ∧ row.1.isOf r u ∧
      saturatingAdd64 since 1 ≤ row.1.count ∧ ∀ le ∈ upper, row.1.count ≤ le := by
  refine mem_rowsWithin DataId.bytes_eq DataId.lt_iff (DataId.begins_iff r u) ?_
  intro id own
  simp only [DataId.isOf, Bool.and_eq_true, decide_eq_true_eq] at own
  rw [DataId.opening, own.1, own.2]

theorem Indexed.nodup_changedRows (indexed : Indexed t writes) :
    ((t.changedRows r u since upper).map (·.1.kind)).Nodup := by
  have rows : (t.changedRows r u since upper).Nodup :=
    (t.roomuserdataidAccountdata.nodup_keys.of_map _).sublist ((takeWhile_sublist _).trans (dropWhile_sublist _))
  refine rows.map_on ?_
  rintro ⟨a, v⟩ mem ⟨b, v'⟩ mem' eq
  obtain ⟨got, own, -⟩ := mem_changedRows.mp mem
  obtain ⟨got', own', -⟩ := mem_changedRows.mp mem'
  simp only [DataId.isOf, Bool.and_eq_true, decide_eq_true_eq] at own own'
  have k : a.key = b.key := by
    rw [DataId.key, DataId.key, own.1, own.2, own'.1, own'.2, show a.kind = b.kind from eq]
  have named := indexed.named _ got
  rw [k, indexed.named _ got'] at named
  obtain rfl := some.inj named
  exact congrArg (Prod.mk b) (some.inj ((find_eq_some_iff.mpr got).symm.trans (find_eq_some_iff.mpr got')))

/-- A type is reported with what `get_raw` returns for it, if its position lies in the window. -/
theorem Indexed.changedRows_iff (indexed : Indexed t writes) (kind : String) (data : Event) :
    (∃ row ∈ t.changedRows r u since upper, row.1.kind = kind ∧ row.2 = data) ↔
      t.getRaw ⟨r, u, kind⟩ = some data ∧ ∃ id, t.roomusertypeRoomuserdataid ⟨r, u, kind⟩ = some id ∧
        saturatingAdd64 since 1 ≤ id.count ∧ ∀ le ∈ upper, id.count ≤ le := by
  constructor
  · rintro ⟨⟨id, v⟩, mem, rfl, rfl⟩
    obtain ⟨got, own, window⟩ := mem_changedRows.mp mem
    simp only [DataId.isOf, Bool.and_eq_true, decide_eq_true_eq] at own
    have named := indexed.named _ got
    rw [DataId.key, own.1, own.2] at named
    refine ⟨?_, id, named, window⟩
    rw [getRaw, named, bind_some, find_eq_some_iff]
    exact got
  · rintro ⟨read, id, named, window⟩
    rw [getRaw, named] at read
    have own := (indexed.last _ id named).1
    simp only [DataId.key, DataKey.mk.injEq] at own
    exact ⟨(id, data), mem_changedRows.mpr ⟨find_eq_some_iff.mp read, by simp [DataId.isOf, own], window⟩, own.2.2, rfl⟩

end Changes

/-! ## Updates at the same time -/

section Runs

structure Current (tables : Tables) (calls : List Call) : Prop where
  /-- A written key has one row, which the index names, at the largest position that was taken for it. -/
  one : ∀ call ∈ calls, ∀ key count, call.position = some (key, count) →
    ∃ id data, tables.roomusertypeRoomuserdataid key = some id ∧
      tables.roomuserdataidAccountdata.rows.filter (·.1.key = key) = [(id, data)] ∧
      .done key data id.count ∈ calls ∧
      ∀ other ∈ calls, ∀ count, other.position = some (key, count) → count ≤ id.count
  /-- A type that changed behind a position is reported once, with what is read for it. -/
  reported : ∀ room user since, since ≠ 0xFFFFFFFFFFFFFFFF →
    ((tables.changedRows room user since none).map (·.1.kind)).Nodup ∧
    ∀ kind data, (∃ row ∈ tables.changedRows room user since none, row.1.kind = kind ∧ row.2 = data) ↔
      tables.getRaw ⟨room, user, kind⟩ = some data ∧
        ∃ id, tables.roomusertypeRoomuserdataid ⟨room, user, kind⟩ = some id ∧ since < id.count

variable {state : Calls Tables Call}

abbrev Kept (state : Calls Tables Call) : Prop := state.Sound written Indexed fun _ _ _ => True

theorem begin_written (req : Request) : (begin req).written = none := by
  cases req <;> simp only [begin, update] <;> split <;> rfl

theorem Indexed.nextCount {t t' : Tables} {writes : Multiset Written} (indexed : Indexed t writes)
    (taken : t.nextCount = some t') : Indexed t' writes := by
  unfold Tables.nextCount at taken
  split at taken
  · cases taken
  · obtain rfl := some.inj taken
    exact ⟨indexed.named, indexed.last, indexed.kept⟩

theorem kept_step {e : DataEvent} (kept : Kept state) (moves : Calls.Moves Call.Undisturbed state e) :
    Kept (dataProtocol.step state e) := by
  cases e with
  | start req =>
    exact sound_start kept (begin_written req) kept.shared trivial fun _ _ _ _ => trivial
  | other e => exact e.elim
  | move i input =>
    refine step_move_rule kept fun c got goesOn => ?_
    have undisturbed := moves c got
    cases c with
    | refused | done => exact absurd rfl goesOn
    | reading _ _ _ =>
      refine sound_move kept got rfl ?_ trivial fun _ _ _ _ _ => trivial
      simpa [dataProtocol, advance, written] using kept.shared
    | numbering k data =>
      refine sound_move kept got rfl ?_ trivial fun _ _ _ _ _ => trivial
      cases taken : state.shared.nextCount with
      | none => simpa [dataProtocol, advance, taken, written] using kept.shared
      | some t => simpa [dataProtocol, advance, taken, written] using kept.shared.nextCount taken
    | committing k data n prev =>
      exact sound_move kept got rfl (kept.shared.commit undisturbed.1 undisturbed.2) trivial fun _ _ _ _ _ => trivial

theorem current_of_kept (kept : Kept state) (finished : ∀ call ∈ state.calls, call.Finished) :
    Current state.shared state.calls := by
  -- Among calls that have returned, a position was taken by a write.
  have written : ∀ call ∈ state.calls, ∀ k n, call.position = some (k, n) → ∃ data, call = .done k data n := by
    intro call mem k n taken
    have through := finished call mem
    cases call with
    | refused _ => cases taken
    | numbering | reading | committing => cases through
    | done own data number =>
      obtain ⟨rfl, rfl⟩ := Prod.mk.inj (some.inj taken)
      exact ⟨data, rfl⟩
  constructor
  · intro call mem k n taken
    obtain ⟨data, rfl⟩ := written call mem k n taken
    obtain ⟨id, named⟩ := isSome_iff_exists.mp (kept.shared.kept ⟨k, data, n⟩ (Calls.mem_outcomes.mpr ⟨_, mem, rfl⟩))
    obtain ⟨-, write, member, own, ok, got, above⟩ := kept.shared.last k id named
    refine ⟨id, write.data, named, kept.shared.filter_eq named got, ?_, ?_⟩
    · obtain ⟨last, among, returned⟩ := Calls.mem_outcomes.mp member
      unfold Call.written at returned
      split at returned
      · obtain rfl := some.inj returned
        obtain rfl : _ = k := own
        exact ok ▸ among
      · cases returned
    · intro o mem' n' taken'
      obtain ⟨data', rfl⟩ := written o mem' k n' taken'
      exact above ⟨k, data', n'⟩ (Calls.mem_outcomes.mpr ⟨_, mem', rfl⟩) rfl
  · intro r u since least
    refine ⟨kept.shared.nodup_changedRows, fun kind data => ?_⟩
    rw [kept.shared.changedRows_iff]
    simp [saturatingAdd64_one_le_iff least]

/-- Where every update finds the index row as it read it, with an earlier position, the account data has one current row
for each key and `changes_since` reports it. -/
theorem one_current_row {events : List DataEvent}
    (undisturbed : Admits dataProtocol.step (Calls.Moves Call.Undisturbed) ⟨.empty, []⟩ events) :
    Along dataProtocol.step (fun state => (∀ call ∈ state.calls, call.Finished) → Current state.shared state.calls)
      ⟨.empty, []⟩ events :=
  (along_of_keeps (fun _ _ => kept_step) ⟨indexed_empty, by simp⟩ undisturbed).imp fun _ => current_of_kept

end Runs

section Story

def fullyRead : DataKey := ⟨"!r", "@u:h", "m.fully_read"⟩

def marker (event : String) : Event := ⟨some "m.fully_read", some event⟩

def dataRun (events : List DataEvent) : Calls Tables Call := run dataProtocol.step ⟨.empty, []⟩ events

def inTurn : List DataEvent :=
  [.start (.update fullyRead (marker "$a")), .move 0 (), .move 0 (), .move 0 (),
    .start (.update fullyRead (marker "$b")), .move 1 (), .move 1 (), .move 1 ()]

theorem one_current_row_in_turn : (dataRun inTurn).calls.all (fun call => call.position.isSome) ∧
    ∃ id data, (dataRun inTurn).shared.roomusertypeRoomuserdataid fullyRead = some id ∧
      (dataRun inTurn).shared.roomuserdataidAccountdata.rows.filter (·.1.key = fullyRead) = [(id, data)] := by
  have calls : (dataRun inTurn).calls = [.done fullyRead (marker "$a") 1, .done fullyRead (marker "$b") 2] := by
    decide +kernel
  have finished : ∀ call ∈ (dataRun inTurn).calls, call.Finished := by
    rw [calls]
    simp [Call.Finished]
  have current := (@one_current_row inTurn (by decide +kernel)).last finished
  obtain ⟨id, data, named, only, -⟩ := current.one (.done fullyRead (marker "$b") 2) (by
    change _ ∈ (dataRun inTurn).calls
    simp [calls]) fullyRead 2 rfl
  exact ⟨by simp [calls, position], id, data, named, only⟩

/-- Both updates look up the row to replace before either commits, and the later number commits first. -/
def crossed : List DataEvent :=
  [.start (.update fullyRead (marker "$a")), .start (.update fullyRead (marker "$b")), .move 0 (), .move 1 (), .move 0 (),
    .move 1 (), .move 1 (), .move 0 ()]

theorem account_data_row_left :
    (dataRun crossed).calls = [.done fullyRead (marker "$a") 1, .done fullyRead (marker "$b") 2] ∧
    (dataRun crossed).shared.roomuserdataidAccountdata.rows =
      [(⟨"!r", "@u:h", 1, "m.fully_read"⟩, marker "$a"), (⟨"!r", "@u:h", 2, "m.fully_read"⟩, marker "$b")] ∧
    (dataRun crossed).shared.roomusertypeRoomuserdataid fullyRead = some ⟨"!r", "@u:h", 1, "m.fully_read"⟩ ∧
    (dataRun crossed).shared.changesSince "!r" "@u:h" 0 none = [marker "$a", marker "$b"] ∧
    (dataRun crossed).shared.getRaw fullyRead = some (marker "$a") := by
  decide +kernel

end Story

end Wbfuwunel.AccountData
