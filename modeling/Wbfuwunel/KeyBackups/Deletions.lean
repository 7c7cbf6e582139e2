import Wbfuwunel.Database.Tuples
import Wbfuwunel.Foundation.Store

/-! Key backups: `service/key_backups/mod.rs`.

The sessions of all backups lie in one table under a user, a version, a room and a session id. A deletion scans it along
the bytes of the fields it is given. Closed by a separator, they select the keys with these fields; not closed, also the
keys whose last field merely begins so.
-/

set_option autoImplicit false

namespace Wbfuwunel.KeyBackups

open Foundation Database Function Store

structure BackupKeyId where
  user : String
  version : String
  room : String
  session : String
  deriving DecidableEq, Repr

namespace BackupKeyId

variable (id : BackupKeyId)

def fields : List Field := [.str id.user, .str id.version, .str id.room, .str id.session]

def bytes : Bytes := serializeTuple id.fields

theorem bytes_injective : Injective bytes := by
  rintro ⟨u, v, r, session⟩ ⟨u', v', r', session'⟩ eq
  simpa [fields] using eq_of_serializeTuple_eq eq rfl

instance idOrder : LinearOrder BackupKeyId := LinearOrder.lift' bytes bytes_injective

theorem lt_iff (a b : BackupKeyId) : a < b ↔ a.bytes < b.bytes := Iff.rfl

theorem bytes_eq :
    id.bytes = utf8 id.user ++ SEP :: (utf8 id.version ++ SEP :: (utf8 id.room ++ SEP :: utf8 id.session)) := by
  simp [bytes, fields, serializeTuple, Field.element, Element.encode]

theorem bytes_begins_iff (o : BackupKeyId) : id.bytes <+: o.bytes ↔
    id.user = o.user ∧ id.version = o.version ∧ id.room = o.room ∧ utf8 id.session <+: utf8 o.session := by
  rw [bytes_eq, bytes_eq, str_begins_iff, str_begins_iff, str_begins_iff]

end BackupKeyId

open BackupKeyId

/-- The raw JSON of a `KeyBackupData`. -/
abbrev KeyBackupData := String

structure Tables where
  backupidAlgorithm : String × String → Option String
  backupidEtag : String × String → Option UInt64
  backupkeyidBackup : Store BackupKeyId KeyBackupData

namespace Tables

variable (tables : Tables)

def removeStarting (start : Bytes) : Tables :=
  { tables with
    backupkeyidBackup :=
      ((tables.backupkeyidBackup.rowsStarting bytes start).map Prod.fst).foldl Store.del tables.backupkeyidBackup }

variable (user version : String)

def deleteBackup : Tables :=
  { tables with
    backupidAlgorithm := update tables.backupidAlgorithm (user, version) none
    backupidEtag := update tables.backupidEtag (user, version) none }.removeStarting (serializePrefix [user, version])

def deleteAllKeys : Tables :=
  tables.removeStarting (serializePrefix [user, version])

def deleteRoomKeys (user version room : String) : Tables :=
  tables.removeStarting (serializePrefix [user, version, room])

variable (user version room session : String)

/-- The prefix is the whole key, without an `Interfix` behind the session id. -/
def deleteRoomKey : Tables :=
  tables.removeStarting (bytes ⟨user, version, room, session⟩)

def getSession : Option KeyBackupData :=
  tables.backupkeyidBackup.find ⟨user, version, room, session⟩

def getRoom (user version room : String) : List (String × KeyBackupData) :=
  (tables.backupkeyidBackup.rowsStarting bytes (serializePrefix [user, version, room])).map fun row =>
    (row.1.session, row.2)

/-- The sessions of a backup with their rooms; the source groups them by room. -/
def getAll : List (String × String × KeyBackupData) :=
  (tables.backupkeyidBackup.rowsStarting bytes (serializePrefix [user, version])).map fun row =>
    (row.1.room, row.1.session, row.2)

/-! ## What a scan selects -/

variable {tables : Tables} {u v r session : String}

theorem version_begins_iff (id : BackupKeyId) : serializePrefix [u, v] <+: id.bytes ↔ id.user = u ∧ id.version = v := by
  rw [bytes, serializePrefix_begins_iff _ (by simp [fields]) (by simp [fields, Field.isStr, Field.kind])]
  simp [fields]

theorem room_begins_iff (id : BackupKeyId) :
    serializePrefix [u, v, r] <+: id.bytes ↔ id.user = u ∧ id.version = v ∧ id.room = r := by
  rw [bytes, serializePrefix_begins_iff _ (by simp [fields]) (by simp [fields, Field.isStr, Field.kind])]
  simp [fields]

theorem getSession_removeStarting (start : Bytes) : (tables.removeStarting start).getSession u v r session =
      if start <+: bytes ⟨u, v, r, session⟩ then none
      else tables.getSession u v r session :=
  tables.backupkeyidBackup.find_foldl_del_rowsStarting lt_iff _

theorem mem_getRoom {data : KeyBackupData} :
    (session, data) ∈ tables.getRoom u v r ↔ tables.getSession u v r session = some data := by
  simp only [getRoom, getSession, List.mem_map, find_eq_some_iff, mem_rowsStarting _ lt_iff,
    room_begins_iff, Prod.mk.injEq, Prod.exists]
  constructor
  · rintro ⟨⟨_, _, _, _⟩, _, ⟨got, rfl, rfl, rfl⟩, rfl, rfl⟩
    exact got
  · intro got
    exact ⟨_, data, ⟨got, rfl, rfl, rfl⟩, rfl, rfl⟩

theorem mem_getAll {data : KeyBackupData} :
    (r, session, data) ∈ tables.getAll u v ↔ tables.getSession u v r session = some data := by
  simp only [getAll, getSession, List.mem_map, find_eq_some_iff, mem_rowsStarting _ lt_iff,
    version_begins_iff, Prod.mk.injEq, Prod.exists]
  constructor
  · rintro ⟨⟨_, _, _, _⟩, _, ⟨got, rfl, rfl⟩, rfl, rfl, rfl⟩
    exact got
  · intro got
    exact ⟨_, data, ⟨got, rfl, rfl⟩, rfl, rfl, rfl⟩

end Tables

open Tables

/-! ## Deletions -/

/-- After a deletion exactly the selected sessions are gone, and every other reads as before. -/
def Exact (before after : Tables) (selected : BackupKeyId → Prop) : Prop :=
  ∀ id : BackupKeyId, (selected id → after.getSession id.user id.version id.room id.session = none) ∧
    (¬selected id → after.getSession id.user id.version id.room id.session =
      before.getSession id.user id.version id.room id.session)

def Unextended (tables : Tables) (id : BackupKeyId) : Prop :=
  ∀ other, (tables.getSession id.user id.version id.room other).isSome → utf8 id.session <+: utf8 other → other = id.session

theorem exact_removeStarting {t : Tables} {start : Bytes} {sel : BackupKeyId → Prop}
    (selects : ∀ id, start <+: id.bytes ↔ sel id) : Exact t (t.removeStarting start) sel := by
  intro id
  rw [getSession_removeStarting]
  exact ⟨fun mem => if_pos ((selects id).mpr mem), fun out => if_neg fun pre => out ((selects id).mp pre)⟩

theorem exact_deleteRoomKey_iff (t : Tables) (id : BackupKeyId) :
    Exact t (t.deleteRoomKey id.user id.version id.room id.session) (· = id) ↔ Unextended t id := by
  constructor
  · intro exactly other got pre
    by_contra ne
    have kept := (exactly ⟨id.user, id.version, id.room, other⟩).2 fun eq => ne (congrArg session eq)
    have sel : id.bytes <+: bytes ⟨id.user, id.version, id.room, other⟩ :=
      (bytes_begins_iff id ⟨id.user, id.version, id.room, other⟩).mpr ⟨rfl, rfl, rfl, pre⟩
    rw [deleteRoomKey, getSession_removeStarting, if_pos sel] at kept
    simp [← kept] at got
  · intro unextended other
    rw [deleteRoomKey, getSession_removeStarting]
    refine ⟨?_, fun ne => ?_⟩
    · rintro rfl
      exact if_pos List.prefix_rfl
    · split
      · -- Only a session that is not stored can have been selected besides.
        rename_i pre
        obtain ⟨u, v, r, within⟩ := (bytes_begins_iff _ _).mp pre
        refine (Option.not_isSome_iff_eq_none.mp fun got => ne ?_).symm
        obtain ⟨_, _, _, session⟩ := other
        subst u v r
        have eq := unextended session got within
        rw [eq]
      · rfl

/-- The deletions of a backup, of its keys and of a room are exact; that of a session where no stored session id of the
room extends it. -/
theorem deletions_exact (tables : Tables) :
    (∀ user version, Exact tables (tables.deleteBackup user version) fun id => id.user = user ∧ id.version = version) ∧
    (∀ user version, Exact tables (tables.deleteAllKeys user version) fun id => id.user = user ∧ id.version = version) ∧
    (∀ user version room, Exact tables (tables.deleteRoomKeys user version room) fun id =>
      id.user = user ∧ id.version = version ∧ id.room = room) ∧
    ∀ id, Exact tables (tables.deleteRoomKey id.user id.version id.room id.session) (· = id) ↔ Unextended tables id := by
  refine ⟨fun user version => ?_, fun user version => ?_, fun user version room => ?_, exact_deleteRoomKey_iff tables⟩
  · exact exact_removeStarting version_begins_iff
  · exact exact_removeStarting version_begins_iff
  · exact exact_removeStarting room_begins_iff

def twoSessions : Tables where
  backupidAlgorithm _ := some "m.megolm_backup.v1.curve25519-aes-sha2"
  backupidEtag _ := some 1
  backupkeyidBackup := (Store.empty.put ⟨"@u:h", "1", "!r", "ab"⟩ "first").put ⟨"@u:h", "1", "!r", "abc"⟩ "second"

/-- A session id that goes on from the deleted one. -/
theorem longer_session_deleted : twoSessions.getSession "@u:h" "1" "!r" "abc" = some "second" ∧
    (twoSessions.deleteRoomKey "@u:h" "1" "!r" "ab").getSession "@u:h" "1" "!r" "abc" = none := by
  decide +kernel

end Wbfuwunel.KeyBackups
