import Wbfuwunel.Database.Codec
import Wbfuwunel.Foundation.Store

/-! Who holds a media item: `media_refs/holder.rs` and the holder tables of `media_refs/mod.rs`.

`mxc_holder` answers who holds a media, `holder_mxc` what a holder holds; a row is its key.
-/

set_option autoImplicit false

namespace Wbfuwunel.MediaRefs

open Foundation Database De

inductive Holder where
  | event (room : String) (gSeq : Int64)
  | backup (room : String) (gSeq : Int64)
  | avatar (localpart : String)
  | roomAvatar (room : String) (user : String)
  deriving DecidableEq

/-- Offset-binary form of a signed position, so key order is numeric order. -/
def biasGSeq (gSeq : Int64) : UInt64 := (gSeq - Int64.minValue).toUInt64

def unbiasGSeq (biased : UInt64) : Int64 := biased.toInt64 + Int64.minValue

namespace Holder

def kind : Holder → String
  | event _ _ => "e"
  | backup _ _ => "b"
  | avatar _ => "a"
  | roomAvatar _ _ => "r"

variable (holder : Holder)

def mxcHolderKey (mxc : String) : Bytes :=
  match holder with
  | event room gSeq | backup room gSeq =>
    serializeKey [.str mxc, .str holder.kind, .str room, .u64 (biasGSeq gSeq)]
  | avatar localpart => serializeKey [.str mxc, .str holder.kind, .str localpart]
  | roomAvatar room user => serializeKey [.str mxc, .str holder.kind, .str room, .str user]

def holderMxcKey (mxc : String) : Bytes :=
  match holder with
  | event room gSeq | backup room gSeq =>
    serializeKey [.str holder.kind, .str room, .u64 (biasGSeq gSeq), .str mxc]
  | avatar localpart => serializeKey [.str holder.kind, .str localpart, .str mxc]
  | roomAvatar room user => serializeKey [.str holder.kind, .str room, .str user, .str mxc]

/-- What `list_mxcs_of` seeks: the holder's key without the media, and without a last separator. -/
def listPrefixKey : Bytes :=
  match holder with
  | event room gSeq | backup room gSeq => serializeKey [.str holder.kind, .str room, .u64 (biasGSeq gSeq)]
  | avatar localpart => serializeKey [.str holder.kind, .str localpart]
  | roomAvatar room user => serializeKey [.str holder.kind, .str room, .str user]

def room? : Holder → Option String
  | event room _ | backup room _ | roomAvatar room _ => some room
  | avatar _ => none

/-- `(Ignore, Ignore, Ignore, &str)`, or one `Ignore` fewer for an avatar: the media named last. -/
def mxcOfKey : Holder → De String
  | avatar _ => strAfter 2
  | _ => strAfter 3

end Holder

/-! ## The tables -/

structure Tables where
  mxcHolder : Store Bytes Unit
  holderMxc : Store Bytes Unit
  roomMxc : Store Bytes Unit
  mxcRoom : Store Bytes Unit

namespace Tables

def empty : Tables := ⟨.empty, .empty, .empty, .empty⟩

variable (tables : Tables) (mxc : String)

variable (holder : Holder)

def hold : Tables where
  mxcHolder := tables.mxcHolder.put (holder.mxcHolderKey mxc) ()
  holderMxc := tables.holderMxc.put (holder.holderMxcKey mxc) ()
  roomMxc := holder.room?.elim tables.roomMxc fun room => tables.roomMxc.put (serializeKey [.str room, .str mxc]) ()
  mxcRoom := holder.room?.elim tables.mxcRoom fun room => tables.mxcRoom.put (serializeKey [.str mxc, .str room]) ()

/-- `room_mxc` and `mxc_room` stay: whether the room still holds the media would need a scan. -/
def delHolderRows : Tables := { tables with
  mxcHolder := tables.mxcHolder.del (holder.mxcHolderKey mxc)
  holderMxc := tables.holderMxc.del (holder.holderMxcKey mxc) }

/-- The collector is told of `mxc` once this has committed. -/
def release : Tables := tables.delHolderRows mxc holder

def swap (source target : Holder) : Tables :=
  (tables.delHolderRows mxc source).hold mxc target

def listMxcsOf : List String :=
  (tables.holderMxc.rowsBeginning holder.listPrefixKey).filterMap fun row => fromSlice holder.mxcOfKey row.1

def releaseAllOf : Tables :=
  (tables.listMxcsOf holder).foldl (fun next mxc => next.delHolderRows mxc holder) tables

def swapAllOf (source target : Holder) : Tables :=
  (tables.listMxcsOf source).foldl (fun next mxc => next.swap mxc source target) tables

def hasHolders : Bool :=
  !(tables.mxcHolder.rowsBeginning (serializeKey [.str mxc, .interfix])).isEmpty

/-! ## Who holds a media -/

/-- `(Ignore, Ignore, &str, u64)`: the room and the position. -/
def positionOfKey : De (String × UInt64) := do
  sequenceStart 4
  skip 2
  let room ← element str
  let biased ← element u64
  return (room, biased)

/-- `(Ignore, Ignore, &str, &str)`: the room and the user. -/
def memberOfKey : De (String × String) := do
  sequenceStart 4
  skip 2
  let room ← element str
  let user ← element str
  return (room, user)

def decodeHolders {α : Type} (kind : String) (key : De α) (holder : α → Holder) : List Holder :=
  (tables.mxcHolder.rowsBeginning (serializeKey [.str mxc, .str kind])).filterMap fun row =>
    (fromSlice key row.1).map holder

def listHolders : List Holder :=
  tables.decodeHolders mxc "e" positionOfKey (fun (room, biased) => .event room (unbiasGSeq biased)) ++
    tables.decodeHolders mxc "b" positionOfKey (fun (room, biased) => .backup room (unbiasGSeq biased)) ++
    tables.decodeHolders mxc "a" (strAfter 2) .avatar ++
    tables.decodeHolders mxc "r" memberOfKey (fun (room, user) => .roomAvatar room user)

/-- What pointed at a removed media goes with it. -/
def forgetMedia : Tables :=
  let rooms := (tables.mxcRoom.rowsBeginning (serializeKey [.str mxc, .interfix])).filterMap fun row =>
    fromSlice (strAfter 1) row.1
  (tables.listHolders mxc).foldl (fun next holder => next.delHolderRows mxc holder) { tables with
    roomMxc := rooms.foldl (fun next room => next.del (serializeKey [.str room, .str mxc])) tables.roomMxc
    mxcRoom := rooms.foldl (fun next room => next.del (serializeKey [.str mxc, .str room])) tables.mxcRoom }

/-- The other media of an avatar holder are let go, and the new one is held. `held` is what the holder held when it was
looked up. -/
def setAvatarRef (new : Option String) (held : List String) : Tables :=
  let dropped := (held.filter (some · ≠ new)).foldl (fun next mxc => next.delHolderRows mxc holder) tables
  new.elim dropped fun mxc => dropped.hold mxc holder

/-- `set_avatar_ref`. The holder is named by the localpart alone, so a user of another server is no holder. -/
def setProfileAvatarRef (userIsLocal : Bool) (localpart : String) (new : Option String) : Tables :=
  if userIsLocal then tables.setAvatarRef (.avatar localpart) new (tables.listMxcsOf (.avatar localpart)) else tables

def setRoomAvatarRef (room user : String) (new : Option String) : Tables :=
  tables.setAvatarRef (.roomAvatar room user) new (tables.listMxcsOf (.roomAvatar room user))

/-! ## A room that is deleted -/

def delRoomRows (room mxc : String) : Tables := { tables with
  roomMxc := tables.roomMxc.del (serializeKey [.str room, .str mxc])
  mxcRoom := tables.mxcRoom.del (serializeKey [.str mxc, .str room]) }

/-- `(Ignore, Ignore, Ignore, u64)`: the position. -/
def biasedOfKey : De UInt64 := do
  sequenceStart 4
  skip 3
  element u64

/-- The rows begin with the room, and may be those of a room whose id is longer; the holder is this room's all the
same. -/
def decodeRoomHolders {α : Type} (kind room : String) (key : De α) (holder : α → Holder) : List Holder :=
  (tables.mxcHolder.rowsBeginning (serializeKey [.str mxc, .str kind, .str room])).filterMap fun row =>
    (fromSlice key row.1).map holder

def listRoomHolders (room : String) : List Holder :=
  tables.decodeRoomHolders mxc "e" room biasedOfKey (fun biased => .event room (unbiasGSeq biased)) ++
    tables.decodeRoomHolders mxc "b" room biasedOfKey (fun biased => .backup room (unbiasGSeq biased)) ++
    tables.decodeRoomHolders mxc "r" room (strAfter 3) (.roomAvatar room)

/-- Every read is of the tables before the transaction. -/
def releaseRoom (room : String) : Tables :=
  let media := (tables.roomMxc.rowsBeginning (serializeKey [.str room, .interfix])).filterMap fun row =>
    fromSlice (strAfter 1) row.1
  media.foldl (fun next mxc =>
    ((tables.listRoomHolders mxc room).foldl (fun next holder => next.delHolderRows mxc holder) next).delRoomRows room mxc)
    tables

end Tables

end Wbfuwunel.MediaRefs
