import Wbfuwunel.Database.Tuples
import Wbfuwunel.Foundation.Runs
import Wbfuwunel.Foundation.Saturating
import Wbfuwunel.Foundation.Store

/-! Local aliases: `service/rooms/alias/mod.rs`, with the two places that walk a room's aliases.

An alias leads to its room in one table, and a room lists its aliases in another, each under a number of its own. Setting
an alias again adds to the list of the new room and leaves that of the old; removing one empties the list of its room.
-/

set_option autoImplicit false

namespace Wbfuwunel.Rooms.Aliases

open Foundation Database List Function Store

structure RoomAliasId where
  localpart : String
  server : String
  deriving DecidableEq, Repr

structure AliasId where
  room : String
  count : UInt64
  deriving DecidableEq, Repr

namespace AliasId

def fields (id : AliasId) : List Field := [.str id.room, .u64 id.count]

def bytes (id : AliasId) : Bytes := serializeTuple id.fields

theorem bytes_injective : Injective bytes := by
  rintro ⟨r, n⟩ ⟨r', n'⟩ eq
  simpa [fields] using eq_of_serializeTuple_eq eq rfl

instance idOrder : LinearOrder AliasId := LinearOrder.lift' bytes bytes_injective

theorem lt_iff (a b : AliasId) : a < b ↔ a.bytes < b.bytes := Iff.rfl

theorem begins_iff (r : String) (id : AliasId) : serializePrefix [r] <+: id.bytes ↔ id.room = r := by
  rw [bytes, serializePrefix_begins_iff _ (by simp [fields]) (by simp [fields, Field.isStr, Field.kind])]
  simp [fields]

end AliasId

open AliasId

inductive ErrorKind where
  | invalidParam
  | forbidden
  | notFound
  deriving DecidableEq, Repr

inductive Error where
  | request (kind : ErrorKind) (message : String)
  /-- The counter has no further number; the server stops. -/
  | stopped
  deriving DecidableEq, Repr

structure Server where
  serverName : String
  serverUser : String
  adminAlias : RoomAliasId

structure Tables where
  aliasUserid : String → Option String
  aliasRoomid : String → Option String
  aliasidAlias : Store AliasId RoomAliasId
  counter : UInt64

namespace Tables

def empty : Tables := ⟨fun _ => none, fun _ => none, .empty, 0⟩

section Service

variable (server : Server) (tables : Tables) (name : RoomAliasId)

def checkAliasLocal : Except Error Unit :=
  if name.server ≠ server.serverName then .error (.request .invalidParam "Alias is from another server.") else .ok ()

def setAliasBy (room user : String) : Except Error Tables := do
  checkAliasLocal server name
  if name = server.adminAlias ∧ user ≠ server.serverUser then
    throw (.request .forbidden "Only the server user can set this alias")
  if tables.counter = 0xFFFFFFFFFFFFFFFF then throw .stopped
  let count := tables.counter + 1
  return {
    aliasUserid := update tables.aliasUserid name.localpart (some user)
    aliasRoomid := update tables.aliasRoomid name.localpart (some room)
    aliasidAlias := tables.aliasidAlias.put ⟨room, count⟩ name
    counter := count }

def removeAlias : Except Error Tables :=
  match tables.aliasRoomid name.localpart with
  | none => .error (.request .notFound "Alias does not exist or is invalid.")
  | some room => .ok { tables with
      aliasidAlias := ((tables.aliasidAlias.rowsStarting bytes (serializePrefix [room])).map Prod.fst).foldl Store.del
        tables.aliasidAlias
      aliasRoomid := update tables.aliasRoomid name.localpart none
      aliasUserid := update tables.aliasUserid name.localpart none }

def resolveLocalAlias : Option String :=
  if name.server = server.serverName then tables.aliasRoomid name.localpart else none

def localAliasesForRoom (room : String) : List RoomAliasId :=
  (tables.aliasidAlias.rowsStarting bytes (serializePrefix [room])).map Prod.snd

def orSame (result : Except Error Tables) : Tables :=
  match result with
  | .error _ => tables
  | .ok tables => tables

def deleteAliases (room : String) : Tables :=
  (tables.localAliasesForRoom room).foldl (fun tables name => tables.orSame (tables.removeAlias name)) tables

/-- The part of an upgrade that gives the aliases of the old room to the new one. -/
def moveLocalAliases (old new creator : String) : Tables :=
  (tables.localAliasesForRoom old).foldl (fun tables name => tables.orSame (tables.setAliasBy server name new creator)) tables

end Service

end Tables

open Tables

inductive Operation where
  | set (name : RoomAliasId) (room user : String)
  | remove (name : RoomAliasId)
  | delete (room : String)
  deriving DecidableEq, Repr

variable (server : Server) (tables : Tables)

def step : Operation → Tables
  | .set name room user => tables.orSame (tables.setAliasBy server name room user)
  | .remove name => tables.orSame (tables.removeAlias name)
  | .delete room => tables.deleteAliases room

theorem moveLocalAliases_eq_run (old new creator : String) : tables.moveLocalAliases server old new creator =
      run (step server) tables ((tables.localAliasesForRoom old).map fun name => .set name new creator) := by
  rw [run, foldl_map]
  rfl

/-- A room lists exactly the aliases that lead to it, each once. -/
def Agree : Prop :=
  ∀ room, (tables.localAliasesForRoom room).Nodup ∧
    ∀ name, name ∈ tables.localAliasesForRoom room ↔ tables.resolveLocalAlias server name = some room

/-- The alias is of this server, the user may set it, and there is a count left. -/
def Settable (name : RoomAliasId) (user : String) : Prop :=
  name.server = server.serverName ∧ (name = server.adminAlias → user = server.serverUser) ∧
    tables.counter ≠ 0xFFFFFFFFFFFFFFFF

def Lone : Operation → Prop
  | .set name _ user => Settable server tables name user → tables.aliasRoomid name.localpart = none
  | .remove name => ∀ room, tables.aliasRoomid name.localpart = some room →
      ∀ other ∈ tables.localAliasesForRoom room, other.localpart = name.localpart
  | .delete _ => True

/-! ## The rows of a room -/

namespace Tables

variable {server : Server} {tables : Tables} {room : String} {name : RoomAliasId}

theorem mem_localAliasesForRoom :
    name ∈ tables.localAliasesForRoom room ↔ ∃ count, tables.aliasidAlias.find ⟨room, count⟩ = some name := by
  simp only [localAliasesForRoom, mem_map, mem_rowsStarting _ lt_iff, begins_iff, find_eq_some_iff, Prod.exists]
  constructor
  · rintro ⟨⟨_, count⟩, _, ⟨got, rfl⟩, rfl⟩
    exact ⟨count, got⟩
  · rintro ⟨count, got⟩
    exact ⟨⟨room, count⟩, name, ⟨got, rfl⟩, rfl⟩

theorem nodup_localAliasesForRoom_iff : (tables.localAliasesForRoom room).Nodup ↔
    ∀ name a second, tables.aliasidAlias.find ⟨room, a⟩ = some name →
      tables.aliasidAlias.find ⟨room, second⟩ = some name → a = second := by
  have distinct : (tables.aliasidAlias.rowsStarting bytes (serializePrefix [room])).Nodup :=
    (tables.aliasidAlias.nodup_keys.of_map _).sublist ((takeWhile_sublist _).trans (dropWhile_sublist _))
  rw [localAliasesForRoom, nodup_map_iff_inj_on distinct]
  simp only [mem_rowsStarting _ lt_iff, begins_iff, find_eq_some_iff]
  constructor
  · intro injective name a second got got'
    have eq := injective (⟨room, a⟩, name) ⟨got, rfl⟩ (⟨room, second⟩, name) ⟨got', rfl⟩ rfl
    exact congrArg (fun row : AliasId × RoomAliasId => row.1.count) eq
  · rintro once ⟨⟨own, a⟩, name⟩ ⟨got, inRoom⟩ ⟨⟨own', second⟩, name'⟩ ⟨got', inRoom'⟩ eq
    obtain rfl : own = room := inRoom
    obtain rfl : own' = own := inRoom'
    obtain rfl : name = name' := eq
    rw [once name a second got got']

structure Listed (server : Server) (tables : Tables) : Prop where
  leads : ∀ room count name, tables.aliasidAlias.find ⟨room, count⟩ = some name →
    tables.resolveLocalAlias server name = some room
  found : ∀ room name, tables.resolveLocalAlias server name = some room →
    ∃ count, tables.aliasidAlias.find ⟨room, count⟩ = some name
  once : ∀ room name first second, tables.aliasidAlias.find ⟨room, first⟩ = some name →
    tables.aliasidAlias.find ⟨room, second⟩ = some name → first = second

theorem agree_iff_listed : Agree server tables ↔ tables.Listed server := by
  simp only [Agree, nodup_localAliasesForRoom_iff, mem_localAliasesForRoom]
  constructor
  · intro agree
    exact ⟨fun room n name got => ((agree room).2 name).mp ⟨n, got⟩,
      fun room name => ((agree room).2 name).mpr, fun room => (agree room).1⟩
  · intro ls room
    refine ⟨ls.once room, fun name => ⟨?_, ls.found room name⟩⟩
    rintro ⟨n, got⟩
    exact ls.leads room n name got

def Numbered (tables : Tables) : Prop :=
  ∀ room count, (tables.aliasidAlias.find ⟨room, count⟩).isSome → count ≤ tables.counter

theorem resolveLocalAlias_eq_some_iff : tables.resolveLocalAlias server name = some room ↔
      name.server = server.serverName ∧ tables.aliasRoomid name.localpart = some room := by
  simp [resolveLocalAlias]

/-! ## What the operations leave -/

section Operations

variable {after : Tables} {name : RoomAliasId} {room u : String}

theorem setAliasBy_isOk_iff : (tables.setAliasBy server name room u).isOk ↔ Settable server tables name u := by
  unfold setAliasBy checkAliasLocal
  split
  next other => exact iff_of_false nofun fun settable => other settable.1
  next own =>
    dsimp only
    split
    next refused => exact iff_of_false nofun fun settable => refused.2 (settable.2.1 refused.1)
    next allowed =>
      split
      next spent => exact iff_of_false nofun fun settable => settable.2.2 spent
      next left =>
        exact iff_of_true rfl ⟨not_not.mp own, fun admin => not_not.mp fun other => allowed ⟨admin, other⟩, left⟩

theorem setAliasBy_eq_ok (done : tables.setAliasBy server name room u = .ok after) :
    name.server = server.serverName ∧ tables.counter ≠ 0xFFFFFFFFFFFFFFFF ∧
      after.aliasRoomid = update tables.aliasRoomid name.localpart (some room) ∧
      after.aliasidAlias = tables.aliasidAlias.put ⟨room, tables.counter + 1⟩ name ∧ after.counter = tables.counter + 1 := by
  unfold setAliasBy checkAliasLocal at done
  split at done
  · cases done
  next own =>
    dsimp only at done
    split at done
    · cases done
    · split at done
      · cases done
      next left =>
        obtain rfl := Except.ok.inj done
        exact ⟨not_not.mp own, left, rfl, rfl, rfl⟩

theorem removeAlias_eq_ok (leads : tables.aliasRoomid name.localpart = some room) :
    ∃ after, tables.removeAlias name = .ok after ∧
      after.aliasRoomid = update tables.aliasRoomid name.localpart none ∧ after.counter = tables.counter ∧
      ∀ id, after.aliasidAlias.find id = if id.room = room then none else tables.aliasidAlias.find id := by
  simp only [removeAlias, leads]
  refine ⟨_, rfl, rfl, rfl, fun id => ?_⟩
  simp only [tables.aliasidAlias.find_foldl_del_rowsStarting lt_iff, begins_iff]

end Operations

/-! ## Setting -/

section Setting

variable {after : Tables} {name : RoomAliasId} {room u : String} (done : tables.setAliasBy server name room u = .ok after)
include done

theorem Numbered.setAliasBy (ok : tables.Numbered) : after.Numbered := by
  obtain ⟨-, left, -, i, counter⟩ := setAliasBy_eq_ok done
  have next : tables.counter < tables.counter + 1 := lt_add_one_of_ne left
  intro room' n got
  rw [counter]
  rw [i, find_put] at got
  split at got
  next eq =>
    rw [(AliasId.mk.inj eq).2]
  · exact (ok room' n got).trans next.le

variable {o : RoomAliasId}

theorem Numbered.find_setAliasBy (ok : tables.Numbered) {id : AliasId} : after.aliasidAlias.find id = some o ↔
      id = ⟨room, tables.counter + 1⟩ ∧ o = name ∨ tables.aliasidAlias.find id = some o := by
  obtain ⟨-, left, -, i, -⟩ := setAliasBy_eq_ok done
  have fresh : tables.aliasidAlias.find ⟨room, tables.counter + 1⟩ = none :=
    Option.not_isSome_iff_eq_none.mp fun got => (ok _ _ got).not_gt (lt_add_one_of_ne left)
  rw [i, find_put]
  split
  next eq =>
    subst eq
    simp [fresh, eq_comm]
  next ne =>
    simp [ne]

theorem resolveLocalAlias_setAliasBy : after.resolveLocalAlias server o =
    if o = name then some room else tables.resolveLocalAlias server o := by
  obtain ⟨own, -, forward, -, -⟩ := setAliasBy_eq_ok done
  obtain ⟨localpart, host⟩ := o
  obtain ⟨localpart', host'⟩ := name
  obtain rfl : host' = server.serverName := own
  simp only [resolveLocalAlias, forward]
  grind

theorem Listed.setAliasBy_iff (ls : tables.Listed server) (ok : tables.Numbered) :
    after.Listed server ↔ tables.aliasRoomid name.localpart = none := by
  have own : name.server = server.serverName := (setAliasBy_eq_ok done).1
  have left := (setAliasBy_eq_ok done).2.1
  have resolves : tables.resolveLocalAlias server name = tables.aliasRoomid name.localpart := by
    simp [resolveLocalAlias, own]
  rw [← resolves]
  constructor
  · intro ls'
    refine Option.eq_none_iff_forall_ne_some.mpr fun old leads => ?_
    -- The row of before is still there, and the alias has a second one now.
    obtain ⟨n, stored⟩ := ls.found old name leads
    have kept := (ok.find_setAliasBy done).mpr (.inr stored)
    have new : after.aliasidAlias.find ⟨room, tables.counter + 1⟩ = some name :=
      (ok.find_setAliasBy done).mpr (.inl ⟨rfl, rfl⟩)
    obtain rfl : old = room := by
      have leads' := ls'.leads old n name kept
      rw [resolveLocalAlias_setAliasBy done, if_pos rfl] at leads'
      exact (Option.some.inj leads').symm
    have eq := ls'.once old name n (tables.counter + 1) kept new
    have lt := ok old n (by rw [stored]; rfl)
    rw [eq] at lt
    exact lt.not_gt (lt_add_one_of_ne left)
  · intro nowhere
    have absent {id : AliasId} : tables.aliasidAlias.find id ≠ some name := by
      intro stored
      have leads := ls.leads id.room id.count name stored
      rw [nowhere] at leads
      cases leads
    constructor
    · intro room' n o stored
      rw [resolveLocalAlias_setAliasBy done]
      rcases (ok.find_setAliasBy done).mp stored with ⟨eq, rfl⟩ | old
      · rw [if_pos rfl, (AliasId.mk.inj eq).1]
      · rw [if_neg fun eq => absent (eq ▸ old), ls.leads room' n o old]
    · intro room' o leads
      rw [resolveLocalAlias_setAliasBy done] at leads
      split at leads
      next eq =>
        obtain rfl := Option.some.inj leads
        exact ⟨_, (ok.find_setAliasBy done).mpr (.inl ⟨rfl, eq⟩)⟩
      · obtain ⟨n, old⟩ := ls.found room' o leads
        exact ⟨n, (ok.find_setAliasBy done).mpr (.inr old)⟩
    · intro room' o a b stored stored'
      rcases (ok.find_setAliasBy done).mp stored with ⟨eq, rfl⟩ | old
      · rcases (ok.find_setAliasBy done).mp stored' with ⟨eq', -⟩ | old'
        · rw [(AliasId.mk.inj eq).2, (AliasId.mk.inj eq').2]
        · exact absurd old' absent
      · rcases (ok.find_setAliasBy done).mp stored' with ⟨-, rfl⟩ | old'
        · exact absurd old absent
        · exact ls.once room' o a b old old'

end Setting

/-! ## Removing -/

section Removing

structure Without (tables after : Tables) (room : String) (names : List RoomAliasId) : Prop where
  forward : ∀ localpart, after.aliasRoomid localpart =
    if localpart ∈ names.map RoomAliasId.localpart then none else tables.aliasRoomid localpart
  list : ∀ id, after.aliasidAlias.find id = if id.room = room ∧ names ≠ [] then none else tables.aliasidAlias.find id
  counter : after.counter = tables.counter

variable {room : String} {names : List RoomAliasId}

theorem without_nil (tables : Tables) (room : String) : tables.Without tables room [] := ⟨by simp, by simp, rfl⟩

theorem without_cons {name : RoomAliasId} (leads : tables.aliasRoomid name.localpart = some room) {after : Tables}
    (rest : (tables.orSame (tables.removeAlias name)).Without after room names) : tables.Without after room (name :: names) := by
  obtain ⟨removed, done, forward, counter, list⟩ := removeAlias_eq_ok leads
  rw [done] at rest
  change removed.Without after room names at rest
  constructor
  · intro localpart
    rw [rest.forward, forward]
    grind
  · intro id
    rw [rest.list]
    grind
  · rw [rest.counter, counter]

theorem without_foldl (distinct : (names.map RoomAliasId.localpart).Nodup)
    (lead : ∀ name ∈ names, tables.aliasRoomid name.localpart = some room) :
    tables.Without (names.foldl (fun tables name => tables.orSame (tables.removeAlias name)) tables) room names := by
  induction names generalizing tables with
  | nil => exact without_nil tables room
  | cons name names ih =>
    rw [map_cons, nodup_cons] at distinct
    refine without_cons (lead name mem_cons_self) (ih distinct.2 fun o mem => ?_)
    have gone := without_cons (lead name mem_cons_self) (without_nil _ room)
    rw [gone.forward, if_neg, lead o (mem_cons_of_mem _ mem)]
    intro eq
    rw [map_singleton, mem_singleton] at eq
    exact distinct.1 (eq ▸ mem_map_of_mem mem)

variable {after : Tables} (gone : tables.Without after room names)
include gone

theorem Without.numbered (ok : tables.Numbered) : after.Numbered := by
  intro room' n got
  rw [gone.counter]
  rw [gone.list] at got
  split at got
  · cases got
  · exact ok room' n got

theorem Without.resolveLocalAlias (own : ∀ name ∈ names, name.server = server.serverName) (o : RoomAliasId) :
    after.resolveLocalAlias server o = if o ∈ names then none else tables.resolveLocalAlias server o := by
  have known (here : o.server = server.serverName) : o.localpart ∈ names.map RoomAliasId.localpart ↔ o ∈ names := by
    refine ⟨fun mem => ?_, mem_map_of_mem⟩
    obtain ⟨name, member, same⟩ := mem_map.mp mem
    obtain ⟨localpart, host⟩ := name
    obtain ⟨localpart', host'⟩ := o
    obtain rfl : localpart = localpart' := same
    obtain rfl : host' = server.serverName := here
    obtain rfl : host = server.serverName := own _ member
    exact member
  by_cases here : o.server = server.serverName
  · simp only [Tables.resolveLocalAlias, if_pos here, gone.forward, known here]
  · simp only [Tables.resolveLocalAlias, if_neg here, ite_self]

theorem Listed.without_iff (ls : tables.Listed server)
    (lead : ∀ name ∈ names, tables.resolveLocalAlias server name = some room) :
    after.Listed server ↔ ∀ name, tables.resolveLocalAlias server name = some room → names ≠ [] → name ∈ names := by
  have own : ∀ name ∈ names, name.server = server.serverName := fun name mem =>
    (resolveLocalAlias_eq_some_iff.mp (lead name mem)).1
  have resolves := gone.resolveLocalAlias own
  constructor
  · intro ls' name leads some
    by_contra out
    obtain ⟨count, stored⟩ := ls'.found room name (by rw [resolves, if_neg out, leads])
    rw [gone.list, if_pos ⟨rfl, some⟩] at stored
    cases stored
  · intro all
    have kept {room' : String} {count : UInt64} {name : RoomAliasId}
        (stored : after.aliasidAlias.find ⟨room', count⟩ = some name) : tables.aliasidAlias.find ⟨room', count⟩ = some name := by
      rw [gone.list] at stored
      split at stored
      · cases stored
      · exact stored
    constructor
    · intro room' count name stored
      have leads := ls.leads room' count name (kept stored)
      rw [resolves, if_neg, leads]
      -- A row that is left is not in the room's list, and its alias leads away.
      intro mem
      obtain rfl := Option.some.inj ((lead name mem).symm.trans leads)
      rw [gone.list, if_pos ⟨rfl, ne_nil_of_mem mem⟩] at stored
      cases stored
    · intro room' name leads
      rw [resolves] at leads
      split at leads
      · cases leads
      next out =>
        obtain ⟨count, stored⟩ := ls.found room' name leads
        refine ⟨count, ?_⟩
        rw [gone.list, if_neg, stored]
        rintro ⟨rfl, some⟩
        exact out (all name leads some)
    · intro room' name a b stored stored'
      exact ls.once room' name a b (kept stored) (kept stored')

end Removing

end Tables

/-! ## Runs -/

section Runs

variable {server : Server} {tables : Tables}

open Tables

theorem numbered_removeAlias (ok : tables.Numbered) (name : RoomAliasId) :
    (tables.orSame (tables.removeAlias name)).Numbered := by
  cases leads : tables.aliasRoomid name.localpart with
  | none =>
    rw [show tables.removeAlias name = .error _ by simp only [removeAlias, leads]; rfl]
    exact ok
  | some r => exact (without_cons leads (without_nil _ r)).numbered ok

theorem numbered_step (numbered : tables.Numbered) (op : Operation) : (step server tables op).Numbered := by
  cases op with
  | set name r u =>
    cases done : tables.setAliasBy server name r u with
    | error _ => simpa only [step, done, orSame] using numbered
    | ok after => simpa only [step, done, orSame] using numbered.setAliasBy done
  | remove name => exact numbered_removeAlias numbered name
  | delete r =>
    rw [step, deleteAliases]
    generalize tables.localAliasesForRoom r = names
    induction names generalizing tables with
    | nil => exact numbered
    | cons name names ih => exact ih (numbered_removeAlias numbered name)

section

variable (ls : tables.Listed server)
include ls

theorem listed_set_iff (numbered : tables.Numbered) (name : RoomAliasId) (r u : String) :
    (step server tables (.set name r u)).Listed server ↔ Lone server tables (.set name r u) := by
  rw [Lone, ← (setAliasBy_isOk_iff : (tables.setAliasBy server name r u).isOk ↔ _)]
  cases done : tables.setAliasBy server name r u with
  | error _ => simp only [step, done, orSame, ls, Except.toBool, Bool.false_eq_true, false_implies]
  | ok after =>
    simp only [step, done, Except.toBool, true_implies]
    exact ls.setAliasBy_iff done numbered

theorem listed_remove_iff (name : RoomAliasId) :
    (step server tables (.remove name)).Listed server ↔ Lone server tables (.remove name) := by
  cases leads : tables.aliasRoomid name.localpart with
  | none => simp [step, Lone, removeAlias, leads, orSame, ls]
  | some r =>
    -- The server of the name is not looked at.
    let own : RoomAliasId := ⟨name.localpart, server.serverName⟩
    have gone : tables.Without (tables.orSame (tables.removeAlias own)) r [own] :=
      without_cons (show tables.aliasRoomid own.localpart = some r from leads) (without_nil _ r)
    have exactly := ls.without_iff gone (by simp [own, resolveLocalAlias, leads])
    rw [show step server tables (.remove name) = tables.orSame (tables.removeAlias own) from rfl, exactly]
    simp only [Lone, leads, Option.some.injEq, forall_eq', mem_singleton, ne_eq, cons_ne_self, not_false_eq_true,
      true_implies]
    refine forall_congr' fun o => ?_
    rw [((agree_iff_listed.mpr ls) r).2 o]
    refine imp_congr_right fun resolves => ?_
    have here := (resolveLocalAlias_eq_some_iff.mp resolves).1
    constructor
    · rintro rfl
      rfl
    · intro eq
      obtain ⟨localpart, host⟩ := o
      obtain rfl : localpart = name.localpart := eq
      obtain rfl : host = server.serverName := here
      rfl

theorem without_deleteAliases (r : String) :
    tables.Without (tables.deleteAliases r) r (tables.localAliasesForRoom r) := by
  have agree := (agree_iff_listed.mpr ls) r
  have leads : ∀ name ∈ tables.localAliasesForRoom r, name.server = server.serverName ∧
      tables.aliasRoomid name.localpart = some r :=
    fun name mem => resolveLocalAlias_eq_some_iff.mp ((agree.2 name).mp mem)
  refine without_foldl (agree.1.map_on ?_) fun name mem => (leads name mem).2
  rintro ⟨a, host⟩ mem ⟨b, host'⟩ mem' eq
  obtain rfl : host = server.serverName := (leads _ mem).1
  obtain rfl : host' = server.serverName := (leads _ mem').1
  exact congrArg (RoomAliasId.mk · _) eq

theorem listed_delete (r : String) : (tables.deleteAliases r).Listed server := by
  have agree := (agree_iff_listed.mpr ls) r
  refine (ls.without_iff (without_deleteAliases ls r) fun name => (agree.2 name).mp).mpr ?_
  intro name resolves _
  exact (agree.2 name).mpr resolves

end

/-- The tables agree in every state of a sequence of operations just if every alias is set where it leads nowhere yet and
removed where it is the only one of its room; where they agree, deleting a room removes its aliases and no other. -/
theorem aliases_agree (server : Server) : (∀ operations, Along (step server) (Agree server) .empty operations ↔
      Admits (step server) (Lone server) .empty operations) ∧
    ∀ tables room, Agree server tables → ∀ name, (tables.deleteAliases room).resolveLocalAlias server name =
      if tables.resolveLocalAlias server name = some room then none else tables.resolveLocalAlias server name := by
  constructor
  · intro operations
    have always : Admits (step server) (fun _ _ => True) .empty operations := admits_of_forall fun _ _ _ => trivial
    have keeps : ∀ tables op, Tables.Numbered tables → True → (step server tables op).Numbered :=
      fun _ op ok _ => numbered_step ok op
    refine along_iff_admits keeps ?_ ?_ ?_ always
    · intro tables op ok agree _
      rw [agree_iff_listed] at agree ⊢
      cases op with
      | set name room u => exact listed_set_iff agree ok name room u
      | remove name => exact listed_remove_iff agree name
      | delete room => exact iff_of_true (listed_delete agree room) trivial
    · intro room n got
      cases got
    · rw [agree_iff_listed]
      exact ⟨by simp [Tables.empty], by simp [Tables.empty, Tables.resolveLocalAlias], by simp [Tables.empty]⟩
  · intro tables room agree name
    have ls := agree_iff_listed.mp agree
    have own : ∀ name ∈ tables.localAliasesForRoom room, name.server = server.serverName := fun name mem =>
      (resolveLocalAlias_eq_some_iff.mp (((agree room).2 name).mp mem)).1
    rw [(without_deleteAliases ls room).resolveLocalAlias own]
    simp only [(agree room).2 name]

end Runs

section Story

def here : Server := ⟨"h", "@conduit:h", ⟨"admins", "h"⟩⟩

def hall : RoomAliasId := ⟨"hall", "h"⟩

def lobby : RoomAliasId := ⟨"lobby", "h"⟩

def garden : RoomAliasId := ⟨"garden", "h"⟩

def settings : List Operation := [.set hall "!old" "@u:h", .set lobby "!old" "@u:h", .set garden "!new" "@u:h"]

theorem aliases_agree_three : Agree here (run (step here) .empty settings) ∧
    (run (step here) .empty (settings ++ [.delete "!old"])).resolveLocalAlias here lobby = none ∧
    (run (step here) .empty (settings ++ [.delete "!old"])).resolveLocalAlias here garden = some "!new" := by
  have agree : Agree here (run (step here) .empty settings) :=
    (((aliases_agree here).1 settings).mpr ⟨fun _ => rfl, fun _ => rfl, fun _ => rfl, trivial⟩).last
  have deleted := (aliases_agree here).2 _ "!old" agree
  refine ⟨agree, (deleted lobby).trans ?_, (deleted garden).trans ?_⟩ <;> decide +kernel

def afterSetting : Tables := run (step here) .empty [.set hall "!old" "@u:h"]

def afterRemoval : Tables := run (step here) .empty [.set hall "!old" "@u:h", .set lobby "!old" "@u:h", .remove hall]

def afterUpgrade : Tables := afterSetting.moveLocalAliases here "!old" "!new" "@u:h"

theorem aliases_disagree :
    (afterRemoval.resolveLocalAlias here lobby = some "!old" ∧ afterRemoval.localAliasesForRoom "!old" = []) ∧
    (afterUpgrade.resolveLocalAlias here hall = some "!new" ∧ afterUpgrade.localAliasesForRoom "!old" = [hall]) ∧
    (afterUpgrade.deleteAliases "!old").resolveLocalAlias here hall = none := by
  decide +kernel

end Story

end Wbfuwunel.Rooms.Aliases
