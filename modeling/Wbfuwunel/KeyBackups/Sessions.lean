import Mathlib.Data.Prod.Lex
import Wbfuwunel.Foundation.Calls
import Wbfuwunel.Foundation.Saturating
import Wbfuwunel.KeyBackups.Deletions

/-! The sessions of a backup, as they are counted, replaced and told apart by the etag: `service/key_backups/mod.rs`. -/

set_option autoImplicit false

namespace Wbfuwunel.KeyBackups

open Foundation Database List Function Store BackupKeyId Tables Protocol

/-! ## Counting -/

namespace Tables

/-- The prefix has no `Interfix` behind the version. -/
def countKeys (tables : Tables) (user version : String) : Nat :=
  (tables.backupkeyidBackup.rowsStarting bytes (serializeTuple [.str user, .str version])).length

variable {t : Tables} {u v : String}

theorem rows_getAll : t.getAll u v =
    (t.backupkeyidBackup.rows.filter fun row => row.1.user = u ∧ row.1.version = v).map fun row =>
      (row.1.room, row.1.session, row.2) := by
  rw [getAll, t.backupkeyidBackup.rowsStarting_eq_filter lt_iff]
  congr 2
  funext row
  rw [Bool.eq_iff_iff, isPrefixOf_iff_prefix, version_begins_iff, decide_eq_true_eq]

theorem countKeys_eq_iff : t.countKeys u v = (t.getAll u v).length ↔
    ∀ row ∈ t.backupkeyidBackup.rows, u = row.1.user → utf8 v <+: utf8 row.1.version → row.1.version = v := by
  have wide : t.countKeys u v = (t.backupkeyidBackup.rows.filter fun row =>
      u = row.1.user ∧ utf8 v <+: utf8 row.1.version).length := by
    rw [countKeys, t.backupkeyidBackup.rowsStarting_eq_filter lt_iff]
    congr 2
    funext row
    rw [Bool.eq_iff_iff, isPrefixOf_iff_prefix, bytes_eq, pair_begins_iff, decide_eq_true_eq]
  -- Both count rows of one list, and what the closed prefix selects the open one selects too.
  rw [wide, rows_getAll, length_map, length_filter_eq_iff]
  · refine forall₂_congr fun row _ => ?_
    simp only [decide_eq_true_eq, and_imp]
    exact ⟨fun h own pre => (h own pre).2, fun h own pre => ⟨own.symm, h own pre⟩⟩
  · intro row _ own
    obtain ⟨rfl, rfl⟩ := of_decide_eq_true own
    simp

theorem getRoom_eq (r : String) :
    t.getRoom u v r = ((t.getAll u v).filter (·.1 = r)).map Prod.snd := by
  rw [getRoom, rows_getAll, t.backupkeyidBackup.rowsStarting_eq_filter lt_iff, filter_map, map_map,
    filter_filter]
  congr 2
  funext row
  rw [Bool.eq_iff_iff, isPrefixOf_iff_prefix, room_begins_iff]
  simp only [comp_apply, Bool.and_eq_true, decide_eq_true_eq]
  tauto

/-- What is read of a backup is in its own rows. -/
theorem getAll_eq_of_sessions {o : Tables}
    (eq : ∀ r session, o.getSession u v r session = t.getSession u v r session) :
    o.getAll u v = t.getAll u v := by
  rw [rows_getAll, rows_getAll]
  congr 1
  refine eq_of_ascending (o.backupkeyidBackup.ordered.filter _) (t.backupkeyidBackup.ordered.filter _) fun row => ?_
  simp only [mem_filter, decide_eq_true_eq]
  refine and_congr_left fun own => ?_
  obtain ⟨⟨_, _, r, session⟩, data⟩ := row
  obtain ⟨rfl, rfl⟩ := own
  rw [← find_eq_some_iff, ← find_eq_some_iff]
  exact Eq.congr_left (eq r session)

end Tables

/-! ## Replacing -/

/-- `Raw::get_field` of a key's JSON: an error where the field has another type, `none` where it is absent. -/
structure Reader where
  isVerified : KeyBackupData → Except String (Option Bool)
  firstMessageIndex : KeyBackupData → Except String (Option Nat)
  forwardedCount : KeyBackupData → Except String (Option Nat)

def required {α : Type} (field : String) (value : Option α) : Except String α :=
  value.elim (.error ("`" ++ field ++ "` field should exist")) .ok

namespace Reader

variable (json : Reader)

def isBetterKey (old new : KeyBackupData) : Except String Bool := do
  let oldVerified := (← json.isVerified old).getD false
  let newVerified ← required "is_verified" (← json.isVerified new)
  if oldVerified ≠ newVerified then return newVerified
  let oldFirstMessageIndex := (← json.firstMessageIndex old).getD uintMax
  let newFirstMessageIndex ← required "first_message_index" (← json.firstMessageIndex new)
  if newFirstMessageIndex < oldFirstMessageIndex then return true
  if oldFirstMessageIndex < newFirstMessageIndex then return false
  let oldForwardedCount := (← json.forwardedCount old).getD uintMax
  let newForwardedCount ← required "forwarded_count" (← json.forwardedCount new)
  return decide (newForwardedCount < oldForwardedCount)

/-- Whether a key is stored over what `get_session` found. -/
def replaces : Option KeyBackupData → KeyBackupData → Except String Bool
  | some old, new => json.isBetterKey old new
  | none, _ => .ok true

end Reader

/-- Two keys of a session as clients upload them. -/
def verifiedKey : KeyBackupData :=
  "\x7b\"first_message_index\":0,\"forwarded_count\":0,\"is_verified\":true,\"session_data\":\x7b\x7d\x7d"

def otherKey : KeyBackupData :=
  "\x7b\"first_message_index\":0,\"forwarded_count\":0,\"is_verified\":false,\"session_data\":\x7b\x7d\x7d"

/-- What the fields of these texts are. -/
def ofTexts : Reader := ⟨fun data => .ok (some (data == verifiedKey)), fun _ => .ok (some 0), fun _ => .ok (some 0)⟩

/-! ## The etag -/

/-- The tables and the last number given out. -/
structure Backups where
  tables : Tables
  counter : UInt64

namespace Backups

def new : Backups := ⟨⟨fun _ => none, fun _ => none, .empty⟩, 0⟩

variable (state : Backups) (json : Reader) (user version : String)

/-- A write under a number of its own; the counter stops the server before it overflows. -/
def draw (write : UInt64 → Tables) : Backups :=
  if state.counter = 0xFFFFFFFFFFFFFFFF then state else ⟨write (state.counter + 1), state.counter + 1⟩

def getEtag : Option UInt64 := state.tables.backupidEtag (user, version)

def createBackup (algorithm : String) : Backups :=
  let numbered := state.draw fun _ => state.tables
  let version := toString numbered.counter.toNat
  numbered.draw fun count =>
    { state.tables with
      backupidAlgorithm := update state.tables.backupidAlgorithm (user, version) (some algorithm)
      backupidEtag := update state.tables.backupidEtag (user, version) (some count) }

def updateBackup (algorithm : String) : Backups :=
  if (state.tables.backupidAlgorithm (user, version)).isNone then state
  else state.draw fun count =>
    { state.tables with
      backupidAlgorithm := update state.tables.backupidAlgorithm (user, version) (some algorithm)
      backupidEtag := update state.tables.backupidEtag (user, version) (some count) }

def addKey (room session : String) (data : KeyBackupData) : Backups :=
  if (state.tables.backupidAlgorithm (user, version)).isNone then state
  else match json.replaces (state.tables.getSession user version room session) data with
    | .ok true => state.draw fun count =>
      { state.tables with
        backupidEtag := update state.tables.backupidEtag (user, version) (some count)
        backupkeyidBackup := state.tables.backupkeyidBackup.put ⟨user, version, room, session⟩ data }
    | _ => state

inductive KeyCall where
  | addKey (room session : String) (data : KeyBackupData)
  | updateBackup (algorithm : String)
  | deleteAllKeys
  | deleteRoomKeys (room : String)
  | deleteRoomKey (room session : String)
  deriving DecidableEq, Repr

def step (state : Backups) : KeyCall → Backups
  | .addKey room session data => state.addKey json user version room session data
  | .updateBackup algorithm => state.updateBackup user version algorithm
  | .deleteAllKeys => { state with tables := state.tables.deleteAllKeys user version }
  | .deleteRoomKeys room => { state with tables := state.tables.deleteRoomKeys user version room }
  | .deleteRoomKey room session => { state with tables := state.tables.deleteRoomKey user version room session }

/-- The bytes that a deletion scans along. -/
def KeyCall.start (user version : String) : KeyCall → Option Bytes
  | .addKey .. | .updateBackup _ => none
  | .deleteAllKeys => some (serializePrefix [user, version])
  | .deleteRoomKeys room => some (serializePrefix [user, version, room])
  | .deleteRoomKey room session => some (bytes ⟨user, version, room, session⟩)

/-- The sessions of the backup that a call deletes; a session id also selects those that go on from it. -/
def KeyCall.selects : KeyCall → BackupKeyId → Bool
  | .addKey .. , _ | .updateBackup _, _ => false
  | .deleteAllKeys, _ => true
  | .deleteRoomKeys room, id => id.room = room
  | .deleteRoomKey room session, id => id.room = room ∧ utf8 session <+: utf8 id.session

/-- No session of the backup is stored that the call would delete. -/
def Spares (state : Backups) (call : KeyCall) : Prop :=
  ∀ row ∈ state.tables.backupkeyidBackup.rows, row.1.user = user → row.1.version = version → call.selects row.1 = false

instance (state : Backups) (call : KeyCall) : Decidable (Spares user version state call) :=
  inferInstanceAs (Decidable (∀ _ ∈ _, _))

variable {state json user version} {next : Backups}

/-- The etag is a number given out; it never falls, and stands still only while the sessions do. -/
structure Follows (user version : String) (state next : Backups) : Prop where
  given : ∃ etag, next.getEtag user version = some etag ∧ etag ≤ next.counter
  rises : ∀ old new, state.getEtag user version = some old → next.getEtag user version = some new → old ≤ new ∧
    (old = new → next.tables.getAll user version = state.tables.getAll user version)

theorem Follows.refl (given : ∃ etag, state.getEtag user version = some etag ∧ etag ≤ state.counter) :
    Follows user version state state where
  given := given
  rises _ _ a b := ⟨(Option.some.inj (a.symm.trans b)).le, fun _ => rfl⟩

theorem Follows.trans {last : Backups} (a : Follows user version state next) (b : Follows user version next last) :
    Follows user version state last where
  given := b.given
  rises old new first second := by
    obtain ⟨middle, read, -⟩ := a.given
    have early := a.rises old middle first read
    have late := b.rises middle new read second
    refine ⟨early.1.trans late.1, ?_⟩
    rintro rfl
    have still : old = middle := le_antisymm early.1 late.1
    exact (late.2 still.symm).trans (early.2 still)

theorem follows_draw (old : Follows user version state state) {write : UInt64 → Tables}
    (writes : ∀ count, (write count).backupidEtag (user, version) = some count) :
    Follows user version state (state.draw write) := by
  unfold draw
  split
  · exact old
  case isFalse lt =>
    have rises := lt_add_one_of_ne lt
    refine ⟨⟨_, writes _, le_rfl⟩, fun etag new read drawn => ?_⟩
    obtain rfl := Option.some.inj ((writes _).symm.trans drawn)
    obtain ⟨given, again, bound⟩ := old.given
    obtain rfl := Option.some.inj (again.symm.trans read)
    exact ⟨(bound.trans_lt rises).le, fun eq => absurd (eq ▸ bound) (not_le.mpr rises)⟩

section Deletion

variable {c : KeyCall} {start : Bytes}

theorem step_of_start (deletion : c.start user version = some start) :
    step json user version state c = { state with tables := state.tables.removeStarting start } := by
  cases c <;> cases deletion <;> rfl

theorem start_begins_iff (deletion : c.start user version = some start) (id : BackupKeyId) :
    start <+: id.bytes ↔ id.user = user ∧ id.version = version ∧ c.selects id := by
  cases c <;> cases deletion
  · simpa [KeyCall.selects] using version_begins_iff id
  · simpa [KeyCall.selects] using room_begins_iff id
  · rw [bytes_begins_iff, KeyCall.selects, decide_eq_true_eq, eq_comm, @eq_comm _ version, @eq_comm _ _ id.room]

/-- A deletion leaves what is read of the backup just if it finds no row of it. -/
theorem getAll_step_iff (json : Reader) (deletion : c.start user version = some start) :
    (step json user version state c).tables.getAll user version = state.tables.getAll user version ↔
      Spares user version state c := by
  rw [step_of_start deletion]
  constructor
  · rintro eq ⟨⟨_, _, r, session⟩, data⟩ mem rfl rfl
    by_contra hit
    have before := mem_getAll.mpr (find_eq_some_iff.mpr mem)
    have selected := (start_begins_iff deletion ⟨_, _, r, session⟩).mpr ⟨rfl, rfl, by simpa using hit⟩
    rw [← eq, mem_getAll, getSession_removeStarting, if_pos selected] at before
    cases before
  · refine fun spares => getAll_eq_of_sessions fun r session => ?_
    rw [getSession_removeStarting]
    split
    case isTrue selected =>
      have hit := ((start_begins_iff deletion _).mp selected).2.2
      refine (find_eq_none_iff.mpr ?_).symm
      rintro ⟨id, data⟩ mem rfl
      exact absurd (hit.symm.trans (spares _ mem rfl rfl)) (by decide)
    case isFalse => rfl

end Deletion

theorem follows_step (json : Reader) (old : Follows user version state state) {c : KeyCall}
    (spares : Spares user version state c) : Follows user version state (step json user version state c) := by
  cases deletion : c.start user version with
  | some start =>
    obtain ⟨etag, read, bound⟩ := old.given
    have kept := (getAll_step_iff json deletion).mpr spares
    have eq : (step json user version state c).getEtag user version = some etag := by
      rw [step_of_start deletion]
      exact read
    have counter : (step json user version state c).counter = state.counter := by rw [step_of_start deletion]
    refine ⟨⟨etag, eq, bound.trans_eq counter.symm⟩, fun a b here there => ⟨?_, fun _ => kept⟩⟩
    exact (Option.some.inj (here.symm.trans (read.trans (eq.symm.trans there)))).le
  | none =>
    cases c with
    | addKey r session data =>
      change Follows user version state (state.addKey json user version r session data)
      unfold addKey
      split
      · exact old
      · split
        · exact follows_draw old fun count => update_self ..
        · exact old
    | updateBackup algorithm =>
      change Follows user version state (state.updateBackup user version algorithm)
      unfold updateBackup
      split
      · exact old
      · exact follows_draw old fun count => update_self ..
    | deleteAllKeys => cases deletion
    | deleteRoomKeys r => cases deletion
    | deleteRoomKey r session => cases deletion

theorem follows_run (old : Follows user version state state) {calls : List KeyCall}
    (admits : Admits (step json user version) (Spares user version) state calls) :
    Follows user version state (run (step json user version) state calls) := by
  induction calls generalizing state with
  | nil => exact old
  | cons c calls ih =>
    have here := follows_step json old admits.1
    exact here.trans (ih (.refl here.given) admits.2)

/-- Equal etags mean equal sessions at any two moments of a run just if no deletion of the run deletes a session. -/
theorem etag_identifies_iff (given : ∃ etag, state.getEtag user version = some etag ∧ etag ≤ state.counter)
    (calls : List KeyCall) :
    (∀ before middle after, calls = before ++ middle ++ after →
      (run (step json user version) state before).getEtag user version =
        (run (step json user version) state (before ++ middle)).getEtag user version →
      (run (step json user version) state before).tables.getAll user version =
        (run (step json user version) state (before ++ middle)).tables.getAll user version) ↔
    Admits (step json user version) (Spares user version) state calls := by
  constructor
  · intro identifies
    induction calls generalizing state with
    | nil => trivial
    | cons c calls ih =>
      -- A deletion leaves the etag, so the law itself says that it found nothing.
      have spares : Spares user version state c := by
        cases deletion : c.start user version with
        | some start =>
          refine (getAll_step_iff json deletion).mp (identifies [] [c] calls rfl ?_).symm
          change state.getEtag user version = (step json user version state c).getEtag user version
          rw [step_of_start deletion]
          rfl
        | none => cases c <;> first | exact fun _ _ _ _ => rfl | cases deletion
      refine ⟨spares, ih (follows_step json (.refl given) spares).given fun before middle after split => ?_⟩
      exact identifies (c :: before) middle after (by rw [split]; rfl)
  · rintro admits before middle after rfl same
    rw [append_assoc, admits_append, admits_append] at admits
    have early := follows_run (.refl given) admits.1
    have late := follows_run (.refl early.given) admits.2.1
    obtain ⟨etag, read, -⟩ := early.given
    rw [run_append] at same ⊢
    exact ((late.rises etag etag read (same.symm.trans read)).2 rfl).symm

/-- A deletion that finds nothing leaves the sessions with the etag; the verified key gives another one. -/
theorem etag_of_spared :
    let state := new.createBackup "@u:h" "m.megolm_backup.v1.curve25519-aes-sha2"
    let step := step ofTexts "@u:h" "1"
    let added := step state (.addKey "!r" "s" otherKey)
    let spared := step added (.deleteRoomKeys "!o")
    let replaced := step spared (.addKey "!r" "s" verifiedKey)
    spared.tables.getAll "@u:h" "1" = added.tables.getAll "@u:h" "1" ∧
      replaced.getEtag "@u:h" "1" ≠ added.getEtag "@u:h" "1" := by
  intro state _ added spared replaced
  have law := (@etag_identifies_iff state ofTexts "@u:h" "1" ⟨2, rfl, by decide⟩
    [.addKey "!r" "s" otherKey, .deleteRoomKeys "!o", .addKey "!r" "s" verifiedKey]).mpr
    ⟨by decide +kernel, by decide +kernel, by decide +kernel, trivial⟩
  refine ⟨(law [_] [_] [_] rfl rfl).symm, fun eq => ?_⟩
  exact absurd (law [_] [_, _] [] rfl eq.symm) (by decide +kernel)

/-- The sessions are gone and the etag is the same. -/
theorem etag_of_deleted :
    let state := (new.createBackup "@u:h" "m.megolm_backup.v1.curve25519-aes-sha2").addKey ofTexts "@u:h" "1" "!r" "s" otherKey
    let deleted := step ofTexts "@u:h" "1" state .deleteAllKeys
    deleted.getEtag "@u:h" "1" = state.getEtag "@u:h" "1" ∧
      deleted.tables.getAll "@u:h" "1" ≠ state.tables.getAll "@u:h" "1" := by
  decide +kernel

/-- What the readers of a backup agree on; the count goes along just if no longer version beginning with this one has rows. -/
theorem backup_reads_agree (t : Tables) (user version : String) :
    (t.countKeys user version = (t.getAll user version).length ↔ ∀ row ∈ t.backupkeyidBackup.rows,
      user = row.1.user → utf8 version <+: utf8 row.1.version → row.1.version = version) ∧
    (∀ room, t.getRoom user version room = ((t.getAll user version).filter (·.1 = room)).map Prod.snd) ∧
    (∀ room session data, t.getSession user version room session = some data ↔
      (session, data) ∈ t.getRoom user version room) ∧
    ∀ o : Tables, (∀ room session, o.getSession user version room session = t.getSession user version room session) →
      o.getAll user version = t.getAll user version :=
  ⟨countKeys_eq_iff, getRoom_eq, fun _ _ _ => mem_getRoom.symm, fun _ => getAll_eq_of_sessions⟩

/-- A session of version 11 is counted for version 1. -/
theorem counted_under_longer_version :
    let created := Nat.repeat (·.createBackup "@u:h" "m.megolm_backup.v1.curve25519-aes-sha2") 6 new
    let added := created.addKey ofTexts "@u:h" "11" "!r" "s" otherKey
    added.tables.countKeys "@u:h" "1" = 1 ∧ added.tables.getAll "@u:h" "1" = [] := by
  decide +kernel

end Backups

/-! ## Uploads of one session at the same time -/

namespace Reader

variable (json : Reader)

structure Complete (data : KeyBackupData) : Prop where
  verified : ∃ value, json.isVerified data = .ok (some value)
  index : ∃ value, json.firstMessageIndex data = .ok (some value)
  forwarded : ∃ value, json.forwardedCount data = .ok (some value)

/-- The better key has the smaller rank. -/
def rank (data : KeyBackupData) : Bool ×ₗ Nat ×ₗ Nat :=
  toLex (!(json.isVerified data).toOption.join.getD false, toLex
    ((json.firstMessageIndex data).toOption.join.getD uintMax, (json.forwardedCount data).toOption.join.getD uintMax))

variable {json} {old new : KeyBackupData} {got : Option KeyBackupData}

theorem isBetterKey_eq (complete : json.Complete old) (complete' : json.Complete new) :
    json.isBetterKey old new = .ok (decide (json.rank new < json.rank old)) := by
  obtain ⟨⟨verified, read⟩, ⟨index, found⟩, ⟨forwarded, counted⟩⟩ := complete
  obtain ⟨⟨verified', read'⟩, ⟨index', found'⟩, ⟨forwarded', counted'⟩⟩ := complete'
  have compared : json.isBetterKey old new = .ok (if verified ≠ verified' then verified' else
      if index' < index then true else if index < index' then false else decide (forwarded' < forwarded)) := by
    simp only [isBetterKey, read, read', found, found', counted, counted', apply_ite Except.ok]
    rfl
  have ranked : json.rank old = toLex (!verified, toLex (index, forwarded)) := by simp only [rank, read, found, counted]; rfl
  have ranked' : json.rank new = toLex (!verified', toLex (index', forwarded')) := by
    simp only [rank, read', found', counted']; rfl
  rw [compared, ranked, ranked']
  simp only [Prod.Lex.toLex_lt_toLex]
  rcases lt_trichotomy index' index with less | rfl | greater
  · cases verified <;> cases verified' <;> simp [less]
  · cases verified <;> cases verified' <;> simp
  · cases verified <;> cases verified' <;> simp [greater, greater.ne']

theorem replaces_cases (complete : json.Complete new) (complete' : ∀ old ∈ got, json.Complete old) :
    json.replaces got new = .ok true ∧ (∀ old ∈ got, json.rank new < json.rank old) ∨
      json.replaces got new = .ok false ∧ ∃ old ∈ got, json.rank old ≤ json.rank new := by
  cases got with
  | none => exact .inl ⟨rfl, by simp⟩
  | some old =>
    rw [replaces, isBetterKey_eq (complete' old rfl) complete]
    by_cases better : json.rank new < json.rank old
    · exact .inl ⟨by simp [better], by simpa using better⟩
    · exact .inr ⟨by simp [better], old, rfl, not_lt.mp better⟩

end Reader

/-- An `add_key` of a backup that exists: it reads the stored key, and commits over it later. -/
inductive Adding where
  | reading (data : KeyBackupData)
  | committing (seen : Option KeyBackupData) (data : KeyBackupData)
  | finished (data : KeyBackupData)
  deriving DecidableEq, Repr

namespace Adding

def advance (json : Reader) (stored : Option KeyBackupData) : Adding → Option KeyBackupData × Adding
  | .reading data =>
    match json.replaces stored data with
    | .ok true => (stored, .committing stored data)
    | _ => (stored, .finished data)
  | .committing _ data => (some data, .finished data)
  | .finished data => (stored, .finished data)

def uploaded : Adding → Option KeyBackupData
  | .finished data => some data
  | _ => none

/-- The key it commits over is still the one it compared with. -/
def Undisturbed (stored : Option KeyBackupData) : Adding → Prop
  | .committing seen _ => stored = seen
  | _ => True

def protocol (json : Reader) : Protocol (Option KeyBackupData) Adding KeyBackupData Unit Empty where
  begin data stored := (stored, .reading data)
  advance _ := advance json
  other event := event.elim

def Uploads (json : Reader) : CallEvent KeyBackupData Unit Empty → Prop
  | .start data => json.Complete data
  | _ => True

variable {json : Reader}

/-- The stored key was uploaded, and no key that is through is better. -/
structure Best (json : Reader) (stored : Option KeyBackupData) (uploads : Multiset KeyBackupData) : Prop where
  own : ∀ best ∈ stored, best ∈ uploads ∧ json.Complete best
  least : ∀ data ∈ uploads, ∃ best ∈ stored, json.rank best ≤ json.rank data

def Ready (json : Reader) : Adding → Prop
  | .reading data => json.Complete data
  | .committing seen data => json.Complete data ∧ ∀ old ∈ seen, json.rank data < json.rank old
  | .finished _ => True

variable {got : Option KeyBackupData} {uploads : Multiset KeyBackupData} {data : KeyBackupData}

theorem Best.kept (best : Best json got uploads) {old : KeyBackupData} (hit : old ∈ got)
    (le : json.rank old ≤ json.rank data) : Best json got (data ::ₘ uploads) where
  own o here := ⟨Multiset.mem_cons_of_mem (best.own o here).1, (best.own o here).2⟩
  least := Multiset.forall_mem_cons.mpr ⟨⟨old, hit, le⟩, best.least⟩

theorem Best.replaced (best : Best json got uploads) (complete : json.Complete data)
    (better : ∀ old ∈ got, json.rank data < json.rank old) : Best json (some data) (data ::ₘ uploads) where
  own := by
    rintro _ ⟨⟩
    exact ⟨Multiset.mem_cons_self _ _, complete⟩
  least := by
    refine Multiset.forall_mem_cons.mpr ⟨⟨data, rfl, le_rfl⟩, fun o mem => ⟨data, rfl, ?_⟩⟩
    obtain ⟨old, hit, le⟩ := best.least o mem
    exact (better old hit).le.trans le

variable {state : Calls (Option KeyBackupData) Adding} {e : CallEvent KeyBackupData Unit Empty}

abbrev Sound (json : Reader) : Calls (Option KeyBackupData) Adding → Prop :=
  Calls.Sound uploaded (Best json) fun _ _ => Ready json

theorem sound_step (h : Sound json state) (uploads : Uploads json e) (undisturbed : Calls.Moves Undisturbed state e) :
    Sound json ((protocol json).step state e) := by
  cases e with
  | start data => exact sound_start h rfl h.shared uploads fun _ _ _ ready => ready
  | other event => exact event.elim
  | move i input =>
    refine step_move_rule h fun c got moved => ?_
    have ready := h.calls i c got
    cases c with
    | reading data =>
      rcases Reader.replaces_cases ready fun old hit => (h.shared.own old hit).2 with ⟨reads, better⟩ | ⟨reads, old, hit, le⟩
      · have next : (protocol json).advance input state.shared (.reading data) =
            (state.shared, .committing state.shared data) := by
          simp only [protocol, advance, reads]
        exact sound_pass h got rfl next (by simpa [uploaded] using h.shared) ⟨ready, better⟩
      · have next : (protocol json).advance input state.shared (.reading data) = (state.shared, .finished data) := by
          simp only [protocol, advance, reads]
        exact sound_pass h got rfl next (h.shared.kept hit le) trivial
    | committing seen data =>
      have same : state.shared = seen := undisturbed _ got
      subst same
      exact sound_move h got rfl (h.shared.replaced ready.1 ready.2) trivial fun _ _ _ _ ready => ready
    | finished data => exact absurd rfl moved

/-- Once all uploads are through, the stored key is one of them and none is better, if no commit meets another key than
the one it compared with. -/
theorem stored_key_best {events : List (CallEvent KeyBackupData Unit Empty)}
    (admits : Admits (protocol json).step (fun state e => Uploads json e ∧ Calls.Moves Undisturbed state e) ⟨none, []⟩ events) :
    let state := run (protocol json).step ⟨none, []⟩ events
    (∀ c ∈ state.calls, ∃ data, c = .finished data) → state.calls ≠ [] →
    ∃ best, state.shared = some best ∧ .finished best ∈ state.calls ∧
      ∀ data, .finished data ∈ state.calls → ¬ json.rank data < json.rank best := by
  intro state through some
  have h : Sound json state :=
    (along_of_keeps (fun _ _ h fits => sound_step h fits.1 fits.2) ⟨⟨by simp, by simp [Calls.outcomes]⟩, by simp⟩ admits).last
  have mem {data : KeyBackupData} : data ∈ state.outcomes uploaded ↔ .finished data ∈ state.calls := by
    rw [Calls.mem_outcomes]
    constructor
    · rintro ⟨c, mem, result⟩
      obtain ⟨data', rfl⟩ := through c mem
      obtain rfl := Option.some.inj result
      exact mem
    · exact fun mem => ⟨_, mem, rfl⟩
  obtain ⟨c, here⟩ := exists_mem_of_ne_nil _ some
  obtain ⟨data, rfl⟩ := through c here
  obtain ⟨best, hit, -⟩ := h.shared.least data (mem.mpr here)
  refine ⟨best, hit, mem.mp (h.shared.own best hit).1, fun o finished => not_lt.mpr ?_⟩
  obtain ⟨best', hit', le⟩ := h.shared.least o (mem.mpr finished)
  obtain rfl := Option.some.inj (hit.symm.trans hit')
  exact le

theorem ofTexts_complete (data : KeyBackupData) : ofTexts.Complete data := ⟨⟨_, rfl⟩, ⟨_, rfl⟩, ⟨_, rfl⟩⟩

/-- The verified key replaces the other one, which does not come back behind it. -/
theorem stored_key_best_of_three :
    let state := run (protocol ofTexts).step ⟨none, []⟩
      [.start otherKey, .start verifiedKey, .move 0 (), .move 0 (), .move 1 (), .move 1 (), .start otherKey, .move 2 ()]
    ∃ best, state.shared = some best ∧ .finished best ∈ state.calls ∧
      ∀ data, .finished data ∈ state.calls → ¬ ofTexts.rank data < ofTexts.rank best := by
  have through : (run (protocol ofTexts).step ⟨none, []⟩
      [.start otherKey, .start verifiedKey, .move 0 (), .move 0 (), .move 1 (), .move 1 (), .start otherKey, .move 2 ()]).calls =
      [.finished otherKey, .finished verifiedKey, .finished otherKey] := by
    decide +kernel
  refine stored_key_best ?_ (by rw [through]; simp) (by rw [through]; simp)
  have complete := ofTexts_complete
  refine ⟨⟨complete _, trivial⟩, ⟨complete _, trivial⟩, ⟨trivial, ?_⟩, ⟨trivial, ?_⟩, ⟨trivial, ?_⟩, ⟨trivial, ?_⟩,
    ⟨complete _, trivial⟩, ⟨trivial, ?_⟩, trivial⟩
  all_goals rintro _ ⟨⟩
  exacts [trivial, rfl, trivial, rfl, trivial]

/-- Both find no key; the one that is not verified commits last. -/
theorem worse_key_commits_last :
    let events := [.start verifiedKey, .start otherKey, .move 0 (), .move 1 (), .move 0 (), .move 1 ()]
    let state := run (protocol ofTexts).step ⟨none, []⟩ events
    state.shared = some otherKey ∧ state.calls = [.finished verifiedKey, .finished otherKey] ∧
      ofTexts.rank verifiedKey < ofTexts.rank otherKey := by
  decide +kernel

end Adding

end Wbfuwunel.KeyBackups
