import Wbfuwunel.Api.Batches
import Wbfuwunel.Rooms.Pdu

/-! A pending invite on the wire: the fields of `core/wbf/invites.rs` in the meta of an `Invite/Push`
(`service/streams/invites.rs`) and in an entry of `Invite/Fetch` (`api/client/wbf/invites.rs`). -/

set_option autoImplicit false

namespace Wbfuwunel.Api
open Foundation Wire Rooms

/-! ## The fields -/

/-- A JSON value; a number is the text it is written as. -/
inductive Value where
  | null
  | bool (value : Bool)
  | number (text : String)
  | string (text : String)
  | array (values : List Value)
  | object (entries : List (String × Value))

namespace Value

def get (key : String) : Value → Option Value
  | object entries => entries.lookup key
  | _ => none

def text (value : Value) (key : String) : Option String :=
  match value.get key with
  | some (string text) => some text
  | _ => none

def flag (value : Value) (key : String) : Bool :=
  match value.get key with
  | some (bool flag) => flag
  | _ => false

/-- For a text without anything to escape. -/
def quoted (text : String) : Bytes := 34 :: (utf8 text ++ [34])

mutual

def write : Value → Bytes
  | null => utf8 "null"
  | bool value => utf8 (toString value)
  | number text => utf8 text
  | string text => quoted text
  | array values => 91 :: (writeAll values ++ [93])
  | object entries => 123 :: (writeEntries entries ++ [125])

def writeAll : List Value → Bytes
  | [] => []
  | value :: values => value.write ++ if values.isEmpty then [] else 44 :: writeAll values

def writeEntries : List (String × Value) → Bytes
  | [] => []
  | (key, value) :: entries =>
    quoted key ++ 58 :: value.write ++ if entries.isEmpty then [] else 44 :: writeEntries entries

end

end Value

/-- The reader and the writer of JSON. -/
structure Json where
  fromSlice : Bytes → Option Value
  toVec : Value → Bytes

/-- A reader of the texts of some values. -/
def Json.of (values : List Value) : Json := ⟨fun bytes => values.find? fun value => value.write = bytes, Value.write⟩

/-- The event of an invite as a server sends it. -/
def invited (sender : String) : Value :=
  .object [("content", .object [("is_direct", .bool true), ("membership", .string "invite"), ("reason", .string "Hi")]),
    ("sender", .string sender), ("state_key", .string "@b:x"), ("type", .string "m.room.member")]

@[ext]
structure InviteFields where
  inviter : Option String := none
  isDirect : Bool := false
  reason : Option String := none
  deriving DecidableEq, Repr

def InviteFields.entries (fields : InviteFields) : List (String × Value) :=
  (fields.inviter.map fun inviter => ("inviter", .string inviter)).toList ++ ("is_direct", .bool fields.isDirect) ::
    (fields.reason.map fun reason => ("reason", .string reason)).toList

def Value.inviteFields (value : Value) : InviteFields := ⟨value.text "inviter", value.flag "is_direct", value.text "reason"⟩

namespace Json

variable (json : Json) (user : UserId) (room : RoomId) (state : List Bytes)

def findOwnMemberEvent : Option Value :=
  ((state.filterMap json.fromSlice).filter fun event =>
    event.text "type" = some "m.room.member" ∧ event.text "state_key" = some user).getLast?

def getInviteFields : InviteFields :=
  match json.findOwnMemberEvent user state with
  | none => {}
  | some member =>
    let content := (member.get "content").getD .null
    ⟨member.text "sender", content.flag "is_direct", content.text "reason"⟩

/-- A sender's list of events does not reach the fields: they are those of the member event stored after it. -/
theorem getInviteFields_of_appended {verified : Bytes} {member : Value} (read : json.fromSlice verified = some member)
    (kind : member.text "type" = some "m.room.member") (own : member.text "state_key" = some user)
    (supplied other : List Bytes) :
    let content := (member.get "content").getD .null
    json.getInviteFields user (supplied ++ [verified]) =
        ⟨member.text "sender", content.flag "is_direct", content.text "reason"⟩ ∧
      json.getInviteFields user (supplied ++ [verified]) = json.getInviteFields user (other ++ [verified]) := by
  have last (state : List Bytes) : json.findOwnMemberEvent user (state ++ [verified]) = some member := by
    simp [findOwnMemberEvent, read, kind, own]
  simp only [getInviteFields, last, and_self]

theorem getInviteFields_of_forged : let json := Json.of [invited "@a:x", invited "@forged:y"]
    let supplied := [(invited "@forged:y").write, utf8 "no JSON"]
    json.getInviteFields "@b:x" (supplied ++ [(invited "@a:x").write]) = ⟨some "@a:x", true, some "Hi"⟩ ∧
      json.getInviteFields "@b:x" (supplied ++ [(invited "@a:x").write]) =
        json.getInviteFields "@b:x" ([] ++ [(invited "@a:x").write]) := by
  intro json supplied
  have read : json.fromSlice (invited "@a:x").write = some (invited "@a:x") := by
    simp [json, Json.of]
  exact json.getInviteFields_of_appended "@b:x" read (by decide) (by decide) _ _

/-! ### The push -/

def framedState (dataMax : Nat) : Bytes :=
  match lengthPrefixed state with
  | .ok framed => if dataMax < framed.length then [] else framed
  | .error _ => []

def wholeMeta (fields : InviteFields) (count : UInt64) (stateCount : Nat) (gap : Bool) : Value :=
  .object (("room_id", .string room) :: (fields.entries ++
    [("is", .number (toString count)), ("sc", .number (toString stateCount)), ("gap", .bool gap)]))

def isOverMetaMax (value : Value) (metaMax : Nat) : Bool := decide (metaMax < (json.toVec value).length)

def invitedMeta (fields : InviteFields) (count : UInt64) (stateCount : Nat) (gap : Bool) (metaMax : Nat) : Value :=
  if json.isOverMetaMax (wholeMeta room fields count stateCount gap) metaMax then
    wholeMeta room { fields with reason := none } count stateCount gap
  else wholeMeta room fields count stateCount gap

def stateCount (dataMax : Nat) : Nat := if (framedState state dataMax).isEmpty then 0 else state.length

def pushedMeta (count : UInt64) (gap : Bool) (dataMax metaMax : Nat) : Value :=
  json.invitedMeta room (json.getInviteFields user state) count (stateCount state dataMax) gap metaMax

/-! ### The entry -/

def toEntry : Value :=
  .object (("room_id", .string room) :: ((json.getInviteFields user state).entries ++
    [("state", .array (state.filterMap json.fromSlice))]))

def readEntry (dataMax : Nat) : Value :=
  let entry := json.toEntry user room state
  if dataMax < framedLen (json.toVec entry).length then json.toEntry user room [] else entry

theorem inviteFields_wholeMeta (fields : InviteFields) (n : UInt64) (stateCount : Nat) (gap : Bool) :
    (wholeMeta room fields n stateCount gap).inviteFields = fields := by
  obtain ⟨_ | inviter, isDirect, _ | reason⟩ := fields <;> rfl

theorem inviteFields_toEntry : (json.toEntry user room state).inviteFields = json.getInviteFields user state := by
  rw [toEntry]
  obtain ⟨_ | inviter, isDirect, _ | reason⟩ := json.getInviteFields user state <;> rfl

variable (n : UInt64) (gap : Bool) (dataMax metaMax : Nat)

theorem inviteFields_pushedMeta : (json.pushedMeta user room state n gap dataMax metaMax).inviteFields =
    if json.isOverMetaMax (wholeMeta room (json.getInviteFields user state) n (stateCount state dataMax) gap) metaMax
    then { json.getInviteFields user state with reason := none } else json.getInviteFields user state := by
  rw [pushedMeta, invitedMeta, apply_ite Value.inviteFields, inviteFields_wholeMeta, inviteFields_wholeMeta]

theorem inviteFields_readEntry : (json.readEntry user room state dataMax).inviteFields =
    if dataMax < framedLen (json.toVec (json.toEntry user room state)).length then {} else json.getInviteFields user state := by
  rw [readEntry, apply_ite Value.inviteFields, inviteFields_toEntry, inviteFields_toEntry]
  rfl

/-- What a push and a fetch report of the same stored state. The push leaves out a reason that does not fit the meta; the
fetch reads all fields from the state it serves, and so has none where it serves none. -/
theorem push_and_fetch_report : let fields := json.getInviteFields user state
    let exceeds := json.isOverMetaMax (wholeMeta room fields n (stateCount state dataMax) gap) metaMax
    let large := dataMax < framedLen (json.toVec (json.toEntry user room state)).length
    let pushed := (json.pushedMeta user room state n gap dataMax metaMax).inviteFields
    let fetched := (json.readEntry user room state dataMax).inviteFields
    pushed = (if exceeds then { fields with reason := none } else fields) ∧ fetched = (if large then {} else fields) ∧
      (pushed = fetched ↔
        if large then fields.inviter = none ∧ fields.isDirect = false ∧ (exceeds = false → fields.reason = none)
        else exceeds → fields.reason = none) := by
  intro fields exceeds large pushed fetched
  have sent : pushed = if exceeds then { fields with reason := none } else fields := inviteFields_pushedMeta ..
  have read : fetched = if large then {} else fields := inviteFields_readEntry ..
  refine ⟨sent, read, ?_⟩
  rw [read, sent]
  by_cases whole : large <;> cases exceeds <;> simp [whole, InviteFields.ext_iff, @eq_comm _ none fields.reason]

/-- An invite whose entry does not fit: the push names the inviter, the fetch does not. -/
theorem inviter_not_fetched : let json := Json.of [invited "@a:x"]
    let state := [(invited "@a:x").write]
    (json.pushedMeta "@b:x" "!r:x" state 1 false 128 1024).inviteFields = ⟨some "@a:x", true, some "Hi"⟩ ∧
      (json.readEntry "@b:x" "!r:x" state 128).inviteFields = {} := by
  decide +kernel

end Json

end Wbfuwunel.Api
